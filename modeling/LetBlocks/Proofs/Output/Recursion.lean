import LetBlocks.Proofs.Node.Walks
import Mathlib.Data.List.DropRight

/-!
A writer keeps a list of unfinished sequences, with what it has to remember about each, and
goes back and forth between them. The text it ends with is that of a plain recursion on the
tree. The recursion stands here once more in full and can be read without the functions that
the writer calls.
-/

namespace LetBlocks.Output

/-- The text of a run of tokens that may be trimmed at its `front` and at its `back`. Trimmed
at its back, it gets a line feed if a line comment comes to stand last. -/
def runText (front back : Bool) (tokens : List Token) : Text :=
  let tokens := if front then tokens.dropWhile Token.isBlank else tokens
  let tokens := if back then tokens.rdropWhile Token.isBlank else tokens
  tokens.flatMap Token.lexeme ++
    if back && tokens.getLast?.any (·.kind == .lineComment) then utf8 "\n" else []

/-- A text as it is repeated inside a block comment: each `*/` becomes `* /`. -/
def echo : Text → Text
  | [] => []
  | [b] => [b]
  | b :: b' :: rest =>
    if b = Byte.star ∧ b' = Byte.slash then utf8 "* /" ++ echo rest else b :: echo (b' :: rest)

def thrownText : Option (List Token) → Text
  | none => utf8 "undefined"
  | some init =>
    -- A comment may hold a line break, and the operand of `throw` has to begin on its line.
    if (init.find? (!·.isBlank)).any (·.kind.isComment) then
      utf8 "(" ++ runText true true init ++ utf8 ")"
    else runText true true init

def echoNote (init : List Token) : Text :=
  utf8 "/* = " ++ echo (runText true true init) ++ utf8 " */"

/-- The text of a let-block. The text of its body depends on whether the body is trimmed. -/
def blockText (style : Style) (header : Header) (closing : Option Token) (body : Bool → Text) :
    Text :=
  if header.declarations = [] then
    header.tokens.flatMap Token.lexeme ++ body false ++ closing.elim (utf8 "\x7d") Token.lexeme
  else if style.es3 then
    (header.declarations.flatMap fun d =>
      utf8 "try\x7bthrow " ++ thrownText d.initializer ++ utf8 "\x7d" ++
        (if style.annotate then utf8 "/*let*/" else []) ++ utf8 "catch(" ++ d.name.lexeme ++
        (if style.annotate then d.initializer.elim [] echoNote else []) ++ utf8 ")\x7b") ++
      body true ++ (List.replicate header.declarations.length (utf8 "\x7d")).flatten
  else
    utf8 "\x7b let " ++
      (utf8 ", ").intercalate (header.declarations.map fun d => runText true true d.tokens) ++
      utf8 ";" ++ body true ++ utf8 "\x7d"

mutual

def memberText (style : Style) (trim first last : Bool) : Node → Text
  | .plain tokens => runText (trim && first) (trim && last) tokens
  | .letBlock header body closing _ =>
    blockText style header closing fun trim => membersText style trim true body

def membersText (style : Style) (trim first : Bool) : List Node → Text
  | [] => []
  | node :: nodes =>
    memberText style trim first nodes.isEmpty node ++ membersText style trim false nodes

end

def sequenceText (style : Style) (trim : Bool) (nodes : List Node) : Text :=
  membersText style trim true nodes

/-! ### Runs and blocks -/

theorem plainText_eq_runText (trim first last : Bool) (tokens : List Token) :
    plainText trim first last tokens = runText (trim && first) (trim && last) tokens := by
  unfold plainText runText
  cases trim && last with
  | true => rfl
  | false => simp [Token.join, trimStart]

theorem trimmedText_eq_runText (tokens : List Token) :
    trimmedText tokens = runText true true tokens :=
  plainText_eq_runText true true true tokens

theorem head?_escapeComment_cons (b : Byte) (text : Text) :
    (escapeComment (b :: text)).head? = some b := by
  rw [escapeComment, List.foldr_cons, guardedCons]
  split_ifs <;> rfl

theorem escapeComment_eq_echo (text : Text) : escapeComment text = echo text := by
  induction text using echo.induct with
  | case1 => rfl
  | case2 b =>
      rw [echo, escapeComment, List.foldr_cons, List.foldr_nil, guardedCons, if_neg (by simp)]
  | case3 b b' rest hend ih =>
      rw [echo, if_pos hend, ← ih, hend.1, hend.2]
      rfl
  | case4 b b' rest hend ih =>
      have hcons : escapeComment (b :: b' :: rest) =
          guardedCons b (escapeComment (b' :: rest)) :=
        rfl
      have hfree : ¬ (b = Byte.star ∧ some b' = some Byte.slash) :=
        fun h => hend ⟨h.1, Option.some.inj h.2⟩
      rw [echo, if_neg hend, ← ih, hcons, guardedCons, head?_escapeComment_cons, if_neg hfree]

theorem startsWithComment_eq (tokens : List Token) :
    startsWithComment tokens = (tokens.find? (!·.isBlank)).any (·.kind.isComment) := by
  rw [startsWithComment, trimStart, List.find?_eq_head?_dropWhile_not]
  simp only [Bool.not_not]
  cases hfirst : (tokens.dropWhile Token.isBlank).head? with
  | none => rfl
  | some t =>
      have hblank : t.kind.isBlank = false := by
        have hnot := List.head?_dropWhile_not Token.isBlank tokens
        rw [hfirst] at hnot
        simpa [Token.isBlank] using hnot
      rw [Option.any_some, Option.any_some, Token.isTrivia, Token.Kind.isTrivia, hblank,
        Bool.false_or]

theorem operandText_eq_thrownText (d : Declaration) :
    operandText d = thrownText d.initializer := by
  unfold operandText valueText
  cases d.initializer with
  | none => rfl
  | some init =>
      rw [Option.any_some, Option.elim_some, startsWithComment_eq, trimmedText_eq_runText,
        thrownText]
      rfl

theorem valueNote_eq (style : Style) (d : Declaration) :
    valueNote style d = if style.annotate then d.initializer.elim [] echoNote else [] := by
  unfold valueNote valueText
  cases d.initializer with
  | none => cases style.annotate <;> rfl
  | some init =>
      rw [Option.isSome_some, Bool.and_true, Option.elim_some, Option.elim_some,
        escapeComment_eq_echo, trimmedText_eq_runText, echoNote]

theorem layerText_eq (style : Style) (d : Declaration) :
    layerText style d =
      utf8 "try\x7bthrow " ++ thrownText d.initializer ++ utf8 "\x7d" ++
        (if style.annotate then utf8 "/*let*/" else []) ++ utf8 "catch(" ++ d.name.lexeme ++
        (if style.annotate then d.initializer.elim [] echoNote else []) ++ utf8 ")\x7b" := by
  rw [layerText, operandText_eq_thrownText, layerNote, valueNote_eq]

theorem flatten_replicate_brace (n : Nat) :
    (List.replicate n (utf8 "\x7d")).flatten = List.replicate n Byte.closeCurly := by
  rw [show utf8 "\x7d" = [Byte.closeCurly] from rfl, List.flatten_replicate_singleton]

theorem blockText_eq (style : Style) (header : Header) (closing : Option Token)
    (body : Bool → Text) :
    blockText style header closing body =
      openingText style header ++ body (trimsBody header) ++
        closingText style header closing := by
  unfold blockText openingText closingText trimsBody
  by_cases hnone : header.declarations = []
  · simp only [hnone, ne_eq, not_true_eq_false, decide_false]
    rfl
  · simp only [ne_eq, hnone, not_false_eq_true, decide_true, flatten_replicate_brace, if_false]
    by_cases hes3 : style.es3 = true
    · rw [if_pos hes3, if_pos hes3, if_pos hes3, funext (layerText_eq style)]
    · rw [if_neg hes3, if_neg hes3, if_neg hes3]
      rfl

mutual

theorem writeNode_eq_memberText (style : Style) (trim first last : Bool) :
    ∀ node, writeNode style trim first last node = memberText style trim first last node
  | .plain tokens => by
      rw [writeNode, memberText, plainText_eq_runText]
  | .letBlock header body closing _ => by
      rw [writeNode, memberText, blockText_eq, writeFrom_eq_membersText style _ true body]

theorem writeFrom_eq_membersText (style : Style) (trim first : Bool) :
    ∀ nodes, writeFrom style trim first nodes = membersText style trim first nodes
  | [] => by
      rw [writeFrom, membersText]
  | node :: nodes => by
      rw [writeFrom, membersText, writeNode_eq_memberText style trim first _ node,
        writeFrom_eq_membersText style trim false nodes]

end

/-! ### The writer -/

namespace Writer

/-- A writer ends with the text that the recursion gives for the tree, whatever the tree looks
like and whatever the writer has been used for before. Used once more, it writes the same text
again. -/
theorem generate_eq_sequenceText (w : Writer) (nodes : List Node) :
    (w.generate nodes).1 = sequenceText w.style false nodes ∧
      ((w.generate nodes).2.generate nodes).1 = (w.generate nodes).1 := by
  have hwrite : ∀ w : Writer, (w.generate nodes).1 = sequenceText w.style false nodes := by
    intro w
    rw [generate_eq_write, write, writeFrom_eq_membersText, sequenceText]
  refine ⟨hwrite w, ?_⟩
  rw [hwrite w, hwrite, style_generate]

end Writer

end LetBlocks.Output
