import LetBlocks.Output
import LetBlocks.Proofs.Token.Tiling

/-!
The output is described as text. Here it is described once more, as the list of the pieces that
are meant: the tokens copied from the source, and the words, marks, blanks and comments that
stand around them. `spell_written` says that both descriptions agree on the text.
-/

namespace LetBlocks.Output

open Piece

/-! ### Fixed pieces -/

def mark (text : String) : Piece := { kind := .punct, lexeme := utf8 text }

def word (text : String) : Piece := { kind := .identifier, lexeme := utf8 text }

def letWord : Piece := { kind := .kwLet, lexeme := utf8 "let" }

def gap : Piece := { kind := .whitespace, lexeme := [Byte.space] }

def lineFeed : Piece := { kind := .newline, lexeme := [Byte.lf] }

def comment (text : Text) : Piece :=
  { kind := .blockComment, lexeme := utf8 "/*" ++ text ++ utf8 "*/" }

/-! ### Copied tokens -/

def copied (tokens : List Token) : List Piece := tokens.map Token.toPiece

/-- Copied tokens that other pieces will follow: a line comment at their end gets its line
feed. -/
def closedPieces (tokens : List Token) : List Piece :=
  copied tokens ++ if tokens.getLast?.any (·.kind == .lineComment) then [lineFeed] else []

def trimmedPieces (tokens : List Token) : List Piece :=
  closedPieces (trimEnd (trimStart tokens))

def plainPieces (trim first last : Bool) (tokens : List Token) : List Piece :=
  let tokens := if trim && first then trimStart tokens else tokens
  if trim && last then closedPieces (trimEnd tokens) else copied tokens

/-! ### Blocks -/

def valuePieces (d : Declaration) : List Piece :=
  d.initializer.elim [word "undefined"] trimmedPieces

def operandPieces (d : Declaration) : List Piece :=
  if d.initializer.any startsWithComment then mark "(" :: valuePieces d ++ [mark ")"]
  else valuePieces d

def layerNotePieces (style : Style) : List Piece :=
  if style.annotate then [comment (utf8 "let")] else []

def valueNotePieces (style : Style) (d : Declaration) : List Piece :=
  if style.annotate && d.initializer.isSome then
    [comment (utf8 " = " ++ escapeComment (valueText d) ++ utf8 " ")]
  else []

def layerPieces (style : Style) (d : Declaration) : List Piece :=
  [word "try", mark "\x7b", word "throw", gap] ++ operandPieces d ++ [mark "\x7d"] ++
    layerNotePieces style ++
    [word "catch", mark "(", d.name.toPiece] ++ valueNotePieces style d ++
    [mark ")", mark "\x7b"]

def nativePieces (declarations : List Declaration) : List Piece :=
  [mark "\x7b", gap, letWord, gap] ++
    [mark ",", gap].intercalate (declarations.map fun d => trimmedPieces d.tokens) ++
    [mark ";"]

def openingPieces (style : Style) (header : Header) : List Piece :=
  if header.declarations = [] then copied header.tokens
  else if style.es3 then header.declarations.flatMap (layerPieces style)
  else nativePieces header.declarations

def closingPieces (style : Style) (header : Header) (closing : Option Token) : List Piece :=
  if header.declarations = [] then [closing.elim (mark "\x7d") Token.toPiece]
  else if style.es3 then List.replicate header.declarations.length (mark "\x7d")
  else [mark "\x7d"]

mutual

def writtenNode (style : Style) (trim first last : Bool) : Node → List Piece
  | .plain tokens => plainPieces trim first last tokens
  | .letBlock header body closing _ =>
    openingPieces style header ++ writtenFrom style (trimsBody header) true body ++
      closingPieces style header closing

def writtenFrom (style : Style) (trim first : Bool) : List Node → List Piece
  | [] => []
  | node :: nodes =>
    writtenNode style trim first nodes.isEmpty node ++ writtenFrom style trim false nodes

end

/-- The pieces written for a whole tree. -/
def written (style : Style) (nodes : List Node) : List Piece :=
  writtenFrom style false true nodes

/-! ### Their text -/

theorem spell_copied (tokens : List Token) : spell (copied tokens) = Token.join tokens :=
  Token.spell_map_toPiece tokens

theorem spell_closedPieces (tokens : List Token) :
    spell (closedPieces tokens) = closedText tokens := by
  rw [closedPieces, closedText, spell_append, spell_copied]
  split_ifs <;> rfl

theorem spell_trimmedPieces (tokens : List Token) :
    spell (trimmedPieces tokens) = trimmedText tokens :=
  spell_closedPieces _

theorem spell_plainPieces (trim first last : Bool) (tokens : List Token) :
    spell (plainPieces trim first last tokens) = plainText trim first last tokens := by
  unfold plainPieces plainText
  dsimp only
  split_ifs <;> first | exact spell_closedPieces _ | exact spell_copied _

theorem spell_valuePieces (d : Declaration) : spell (valuePieces d) = valueText d := by
  unfold valuePieces valueText
  cases d.initializer with
  | none => rfl
  | some init => exact spell_trimmedPieces init

theorem spell_operandPieces (d : Declaration) : spell (operandPieces d) = operandText d := by
  unfold operandPieces operandText
  split_ifs
  · rw [List.cons_append, spell_cons, spell_append, spell_valuePieces]
    rfl
  · exact spell_valuePieces d

theorem spell_layerNotePieces (style : Style) :
    spell (layerNotePieces style) = layerNote style := by
  unfold layerNotePieces layerNote
  split_ifs <;> rfl

theorem spell_valueNotePieces (style : Style) (d : Declaration) :
    spell (valueNotePieces style d) = valueNote style d := by
  unfold valueNotePieces valueNote
  split_ifs
  · rw [spell_cons, spell_nil, List.append_nil, comment,
      show utf8 "/* = " = utf8 "/*" ++ utf8 " = " from rfl,
      show utf8 " */" = utf8 " " ++ utf8 "*/" from rfl]
    simp only [List.append_assoc]
  · rfl

theorem spell_layerPieces (style : Style) (d : Declaration) :
    spell (layerPieces style d) = layerText style d := by
  have hcatch : spell [word "catch", mark "(", d.name.toPiece] =
      utf8 "catch(" ++ d.name.lexeme := by
    simp only [spell_cons, spell_nil, List.append_nil, ← List.append_assoc]
    rfl
  rw [layerPieces, layerText, spell_append, spell_append, spell_append, spell_append,
    spell_append, spell_append, spell_operandPieces, spell_layerNotePieces,
    spell_valueNotePieces, hcatch]
  simp only [List.append_assoc]
  rfl

theorem spell_intercalate (separator : List Piece) (runs : List (List Piece)) :
    spell (separator.intercalate runs) = (spell separator).intercalate (runs.map spell) := by
  induction runs with
  | nil => rfl
  | cons run runs ih =>
      cases runs with
      | nil => simp
      | cons run' runs =>
          rw [List.intercalate_cons_cons, spell_append, spell_append, ih]
          rw [List.map_cons, List.map_cons, List.map_cons, List.intercalate_cons_cons]

theorem spell_nativePieces (declarations : List Declaration) :
    spell (nativePieces declarations) = nativeText declarations := by
  have hruns : (declarations.map fun d => trimmedPieces d.tokens).map spell =
      declarations.map fun d => trimmedText d.tokens := by
    simp [spell_trimmedPieces]
  rw [nativePieces, nativeText, spell_append, spell_append, spell_intercalate, hruns]
  rfl

theorem spell_openingPieces (style : Style) (header : Header) :
    spell (openingPieces style header) = openingText style header := by
  unfold openingPieces openingText
  split_ifs
  · exact spell_copied _
  · induction header.declarations with
    | nil => rfl
    | cons d ds ih =>
        rw [List.flatMap_cons, List.flatMap_cons, spell_append, ih, spell_layerPieces]
  · exact spell_nativePieces _

theorem spell_closingPieces (style : Style) (header : Header) (closing : Option Token) :
    spell (closingPieces style header closing) = closingText style header closing := by
  unfold closingPieces closingText
  split_ifs
  · cases closing with
    | none => rfl
    | some t => simp
  · induction header.declarations.length with
    | zero => rfl
    | succ n ih =>
        rw [List.replicate_succ, List.replicate_succ, spell_cons, ih]
        rfl
  · rfl

mutual

theorem spell_writtenNode (style : Style) (trim first last : Bool) :
    ∀ node, spell (writtenNode style trim first last node) =
      writeNode style trim first last node
  | .plain tokens => by
      rw [writtenNode, writeNode, spell_plainPieces]
  | .letBlock header body closing span => by
      rw [writtenNode, writeNode, spell_append, spell_append, spell_openingPieces,
        spell_closingPieces, spell_writtenFrom style _ _ body]

theorem spell_writtenFrom (style : Style) (trim first : Bool) :
    ∀ nodes, spell (writtenFrom style trim first nodes) = writeFrom style trim first nodes
  | [] => by
      rw [writtenFrom, writeFrom, spell_nil]
  | node :: nodes => by
      rw [writtenFrom, writeFrom, spell_append, spell_writtenNode style trim first _ node,
        spell_writtenFrom style trim false nodes]

end

theorem spell_written (style : Style) (nodes : List Node) :
    spell (written style nodes) = write style nodes :=
  spell_writtenFrom style false true nodes

end LetBlocks.Output
