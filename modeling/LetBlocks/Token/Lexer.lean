import LetBlocks.Diagnostic
import LetBlocks.Region.Scan

/-!
The lexer is given a source and regions of it. A literal region becomes one token. Code, and
whatever no region claims, is cut into words, numbers, punctuators and blanks. The regions need
not be in order, disjoint or inside the text: each is cut down to what lies beyond the regions
before it and inside the text. So the lexemes always tile the text, whoever found the regions.

Cutting comes first (`cut`), and only then is every piece given its place (`locate`). A region
is cut without looking beyond its end, so a piece never depends on the literal after it.
-/

namespace LetBlocks

/-- A lexeme with its kind. It is not `closed` if it is a literal without its closing mark. -/
structure Piece where
  kind : Token.Kind
  lexeme : Text
  closed : Bool := true
  deriving DecidableEq, Repr, Inhabited

namespace Piece

/-- The punctuators of more than one byte, the longest first. -/
def operators : List Text :=
  [">>>=",
    "...", "===", "!==", "**=", "<<=", ">>=", ">>>", "&&=", "||=", "??=",
    "=>", "==", "!=", "<=", ">=", "&&", "||", "??", "?.", "++", "--",
    "+=", "-=", "*=", "/=", "%=", "&=", "|=", "^=", "**", "<<", ">>"].map utf8

/-- The length of the longest punctuator that a text starts with. In `a?.5:b` the `?` stands
alone. -/
def operatorLength (text : Text) : Nat :=
  match operators.find? (·.isPrefixOf text) with
  | some operator =>
    if operator = utf8 "?." ∧ (text[2]?.any Byte.isDigit) = true then 1 else operator.length
  | none => 1

/-- The kind of the first token of code that starts with `b`, and how many bytes of `rest`
belong to it. A number takes letters and points with it; the sign of its exponent does not. -/
def leading (b : Byte) (rest : Text) : Token.Kind × Nat :=
  let run (p : Byte → Bool) := (rest.takeWhile p).length
  if b.isLineBreak then (.newline, if b = Byte.cr ∧ rest.head? = some Byte.lf then 1 else 0)
  else if b.isInlineBlank then (.whitespace, run Byte.isInlineBlank)
  else if b.isDigit ∨ (b = Byte.dot ∧ (rest.head?.any Byte.isDigit) = true) then
    (.number, run fun x => x.isWord || x == Byte.dot)
  else if b.isWordStart then
    (if b :: rest.takeWhile Byte.isWord = utf8 "let" then .kwLet else .identifier,
      run Byte.isWord)
  else (.punct, operatorLength (b :: rest) - 1)

def cutCode (done : Array Piece) : Text → Array Piece
  | [] => done
  | b :: rest =>
    let lead := leading b rest
    cutCode (done.push { kind := lead.1, lexeme := b :: rest.take lead.2 }) (rest.drop lead.2)
termination_by text => text.length
decreasing_by
  simp only [List.length_cons, List.length_drop]
  omega

def cutFrom (length pos : Nat) (rest : Text) (done : Array Piece) : List Region → Array Piece
  | [] => cutCode done rest
  | region :: regions =>
    let start := max region.start pos
    let stop := min region.stop length
    if stop ≤ start then cutFrom length pos rest done regions
    else
      let done := cutCode done (rest.take (start - pos))
      let rest := rest.drop (start - pos)
      let lexeme := rest.take (stop - start)
      let done :=
        match Token.Kind.ofRegion? region.kind with
        | none => cutCode done lexeme
        | some kind => done.push { kind, lexeme, closed := region.closed }
      cutFrom length stop (rest.drop (stop - start)) done regions

def cut (text : Text) (regions : List Region) : List Piece :=
  (cutFrom text.length 0 text #[] regions).toList

/-- Does a piece that is not closed call for a warning? A line comment needs no closing
mark. -/
def isOpen (piece : Piece) : Bool := !piece.closed && piece.kind != .lineComment

end Piece

structure Lexed where
  tokens : List Token
  diagnostics : List Diagnostic

namespace Token

def locate (source : Source) (pos : Nat) (done : Array Token) (journal : Journal) :
    List Piece → Array Token × Journal
  | [] => (done, journal)
  | piece :: pieces =>
    let stop := pos + piece.lexeme.length
    let token : Token :=
      { kind := piece.kind, lexeme := piece.lexeme, span := source.span pos stop }
    let journal :=
      if piece.isOpen then
        journal.warn (.openLiteral token.kind token.span.start.line) token.span
      else journal
    locate source stop (done.push token) journal pieces

def endOf (source : Source) : Token :=
  { kind := .eof, lexeme := [], span := source.span source.length source.length }

end Token

def Journal.lexAlong (journal : Journal) (source : Source) (regions : List Region) :
    List Token × Journal :=
  let pieces := Piece.cut source.content regions
  let (tokens, journal) := Token.locate source 0 #[] journal pieces
  (tokens.toList ++ [Token.endOf source], journal)

namespace Token

def lexAlong (source : Source) (regions : List Region) : Lexed :=
  let (tokens, journal) := ({} : Journal).lexAlong source regions
  { tokens, diagnostics := journal.toList }

def lex (source : Source) : Lexed := lexAlong source (Region.scan source.content)

end Token

end LetBlocks
