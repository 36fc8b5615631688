import LetBlocks.Node.Walk

/-!
A let-block is written in one of two styles. The native one is a block with a declaration, `{
let a = 1, b; … }`. The other one is for engines of the third edition of the language, which
have no block scope but for the parameter of a `catch`: each declaration becomes a layer
`try{throw 1}catch(a){ … }`.

Everything outside let-blocks is written as it was read. At both ends of the body of a block
that is written anew, and of its declarations, blanks are dropped; where a line comment comes
to stand last, a line feed keeps it from swallowing what follows. A block that declares nothing
is written as it was read.

`Output.write` says what is meant by recursion on the tree. `Output.Writer` computes it step by
step from an explicit list of what is left to write, and can be used for one tree after
another.
-/

namespace LetBlocks

/-- How let-blocks are written. Annotations are comments that mark the layers and repeat their
values; only layers have them. -/
structure Style where
  es3 : Bool := false
  annotate : Bool := true
  deriving DecidableEq, Repr, Inhabited

namespace Output

/-! ### Tokens -/

def trimStart (tokens : List Token) : List Token := tokens.dropWhile Token.isBlank

def trimEnd (tokens : List Token) : List Token :=
  (tokens.reverse.dropWhile Token.isBlank).reverse

/-- The text of tokens that other text will follow: a line comment at their end gets its line
feed. -/
def closedText (tokens : List Token) : Text :=
  Token.join tokens ++ if tokens.getLast?.any (·.kind == .lineComment) then [Byte.lf] else []

def trimmedText (tokens : List Token) : Text := closedText (trimEnd (trimStart tokens))

/-- A plain run in a sequence of nodes, which is trimmed at those ends of the sequence where it
stands. -/
def plainText (trim first last : Bool) (tokens : List Token) : Text :=
  let tokens := if trim && first then trimStart tokens else tokens
  if trim && last then closedText (trimEnd tokens) else Token.join tokens

/-- Puts a byte before a text that stands inside a block comment, and a space between them if
they would close the comment. -/
def guardedCons (b : Byte) (text : Text) : Text :=
  if b = Byte.star ∧ text.head? = some Byte.slash then b :: Byte.space :: text else b :: text

def escapeComment (text : Text) : Text := text.foldr guardedCons []

/-! ### Blocks -/

def startsWithComment (tokens : List Token) : Bool :=
  (trimStart tokens).head?.any Token.isTrivia

def valueText (d : Declaration) : Text := d.initializer.elim (utf8 "undefined") trimmedText

/-- The operand of `throw`, which has to start on the same line. -/
def operandText (d : Declaration) : Text :=
  if d.initializer.any startsWithComment then
    [Byte.openParen] ++ valueText d ++ [Byte.closeParen]
  else valueText d

def layerNote (style : Style) : Text := if style.annotate then utf8 "/*let*/" else []

def valueNote (style : Style) (d : Declaration) : Text :=
  if style.annotate && d.initializer.isSome then
    utf8 "/* = " ++ escapeComment (valueText d) ++ utf8 " */"
  else []

def layerText (style : Style) (d : Declaration) : Text :=
  utf8 "try\x7bthrow " ++ operandText d ++ utf8 "\x7d" ++ layerNote style ++ utf8 "catch(" ++
    d.name.lexeme ++ valueNote style d ++ utf8 ")\x7b"

def nativeText (declarations : List Declaration) : Text :=
  utf8 "\x7b let " ++ (utf8 ", ").intercalate
    (declarations.map fun d => trimmedText d.tokens) ++ utf8 ";"

def openingText (style : Style) (header : Header) : Text :=
  if header.declarations = [] then Token.join header.tokens
  else if style.es3 then header.declarations.flatMap (layerText style)
  else nativeText header.declarations

/-- What is written after the body of a let-block: a brace for each one that was opened before
it. -/
def closingText (style : Style) (header : Header) (closing : Option Token) : Text :=
  if header.declarations = [] then closing.elim [Byte.closeCurly] Token.lexeme
  else if style.es3 then List.replicate header.declarations.length Byte.closeCurly
  else [Byte.closeCurly]

def trimsBody (header : Header) : Bool := header.declarations ≠ []

/-! ### The tree -/

mutual

/-- The text of a node; `first` and `last` say whether it stands at an end of its sequence. -/
def writeNode (style : Style) (trim first last : Bool) : Node → Text
  | .plain tokens => plainText trim first last tokens
  | .letBlock header body closing _ =>
    openingText style header ++ writeFrom style (trimsBody header) true body ++
      closingText style header closing

def writeFrom (style : Style) (trim first : Bool) : List Node → Text
  | [] => []
  | node :: nodes =>
    writeNode style trim first nodes.isEmpty node ++ writeFrom style trim false nodes

end

def write (style : Style) (nodes : List Node) : Text := writeFrom style false true nodes

/-! ### The writer -/

/-- What to remember about a sequence of nodes that is being written: whether nothing of it has
been written yet, whether its ends are trimmed, and what follows it, how many times. -/
structure Pending where
  first : Bool := true
  trim : Bool := false
  closing : Text := []
  times : Nat := 0

def Pending.ofBody (style : Style) (header : Header) (closing : Option Token) : Pending :=
  if header.declarations = [] then
    { closing := closing.elim [Byte.closeCurly] Token.lexeme, times := 1 }
  else
    { trim := true
      closing := [Byte.closeCurly]
      times := if style.es3 then header.declarations.length else 1 }

def Pending.ending (pending : Pending) : Text :=
  (List.replicate pending.times pending.closing).flatten

/-- What a writer keeps between its steps: the texts written so far, and the sequences that are
left, the innermost first. -/
structure Writer where
  style : Style := {}
  out : Array Text := #[]
  pending : List (List Node × Pending) := []

namespace Writer

def start (w : Writer) (nodes : List Node) : Writer :=
  { w with out := #[], pending := [(nodes, {})] }

/-- Writes the next node of a sequence, or what follows the sequence if it has none left. The
sequences around it are `outer`; the body of a let-block comes before the rest of the sequence
it stands in. -/
def step (w : Writer) (outer : List (List Node × Pending)) : List Node × Pending → Writer
  | ([], pending) =>
    { w with out := w.out.push pending.ending, pending := outer }
  | (.plain tokens :: nodes, pending) =>
    { w with
      out := w.out.push (plainText pending.trim pending.first nodes.isEmpty tokens)
      pending := (nodes, { pending with first := false }) :: outer }
  | (.letBlock header body closing _ :: nodes, pending) =>
    { w with
      out := w.out.push (openingText w.style header)
      pending := (body, .ofBody w.style header closing) ::
        (nodes, { pending with first := false }) :: outer }

theorem pendingWeight_step_lt (w : Writer) (outer : List (List Node × Pending))
    (entry : List Node × Pending) :
    Node.pendingWeight (w.step outer entry).pending < Node.pendingWeight (entry :: outer) := by
  rcases entry with ⟨_ | ⟨tokens | ⟨header, body, closing, span⟩, nodes⟩, pending⟩
  · simp [step, Node.pendingWeight, Node.weightAll]
  · simp [step, Node.pendingWeight, Node.weightAll, Node.weight]
  · simp only [step, Node.pendingWeight, Node.weightAll, Node.weight]
    omega

def run (w : Writer) : Writer :=
  match _h : w.pending with
  | [] => w
  | entry :: outer => (w.step outer entry).run
termination_by Node.pendingWeight w.pending
decreasing_by
  rw [_h]
  exact pendingWeight_step_lt w outer entry

/-- The text of a whole tree, without recursion into it, and the writer that can write the next
one. -/
def generate (w : Writer) (nodes : List Node) : Text × Writer :=
  let done := (w.start nodes).run
  (done.out.toList.flatten, { done with out := #[] })

end Writer

def render (style : Style) (nodes : List Node) : Text := (Writer.generate { style } nodes).1

end Output

end LetBlocks
