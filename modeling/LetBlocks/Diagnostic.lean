import LetBlocks.Token

/-!
What the library has to say about a script. A `Problem` is a cause; `code` and `message` word
it, and nothing else in the library writes these texts. A `Diagnostic` is what is reported:
worded, and located in a file.
-/

namespace LetBlocks

inductive Severity
  | warning
  | error
  deriving DecidableEq, Repr, Inhabited

def Severity.name : Severity → String
  | warning => "warning"
  | error => "error"

structure Diagnostic where
  severity : Severity := .warning
  code : Text := []
  message : Text := []
  file : Text := []
  span : Span := {}
  deriving DecidableEq, Repr, Inhabited

/-- What can be wrong with a script. None of it stops a compilation. -/
inductive Problem
  /-- A literal that starts at `line` is not closed. -/
  | openLiteral (kind : Token.Kind) (line : UInt32)
  /-- A let header with nothing between its parentheses. -/
  | noNames
  /-- Something else where a let header should declare a name. -/
  | nameExpected (found : Token)
  /-- Nothing between the `=` after `name` and the end of its declaration. -/
  | initializerExpected (name : Token)
  /-- Something else where the declaration of `name` should go on or end. -/
  | separatorExpected (name found : Token)
  /-- A let header whose parentheses are closed, but no body follows. -/
  | bodyExpected (found : Option Token)
  /-- The script ends inside a let header. -/
  | openHeader
  /-- A bracket closes inside an initializer that did not open there. -/
  | unbalancedHeader (found : Token)
  /-- The script ends inside the let-block that starts at `line`. -/
  | openBlock (line : UInt32)
  /-- A bracket closes inside the body of a let-block that is not open there. -/
  | unopened (closer : Token)
  /-- A bracket closes around `inner`, which is still open. -/
  | crossed (closer : Token) (inner : Bracket)
  /-- A let-block is closed while `inner` is still open in it. -/
  | closedEarly (inner : Bracket)
  deriving DecidableEq, Repr

namespace Problem

def code : Problem → String
  | openLiteral .regex _ => "L003"
  | openLiteral .blockComment _ => "L004"
  | openLiteral _ _ => "L002"
  | noNames | nameExpected _ => "P001"
  | initializerExpected _ | separatorExpected _ _ => "P002"
  | bodyExpected _ => "P003"
  | openHeader | unbalancedHeader _ => "P004"
  | openBlock _ => "P005"
  | unopened _ | crossed _ _ | closedEarly _ => "P006"

def quoted (bracket : Bracket) : Text := [Byte.singleQuote, bracket.opener, Byte.singleQuote]

def literalName : Token.Kind → String
  | .template => "template literal"
  | .regex => "regular expression literal"
  | .blockComment => "block comment"
  | _ => "string literal"

def message : Problem → Text
  | openLiteral kind line =>
    utf8 "unterminated " ++ utf8 (literalName kind) ++ utf8 " starting at line " ++
      Text.ofNat line.toNat
  | noNames => utf8 "let header declares no names"
  | nameExpected found =>
    utf8 "expected a declaration name in let header, found " ++ found.describe
  | initializerExpected name =>
    utf8 "expected an initializer after '=' for '" ++ name.lexeme ++ utf8 "'"
  | separatorExpected name found =>
    utf8 "expected ',', '=' or ')' after '" ++ name.lexeme ++ utf8 "' in let header, found " ++
      found.describe
  | bodyExpected found =>
    utf8 "let header not followed by '\x7b', found " ++
      found.elim (utf8 "end of input") Token.describe
  | openHeader => utf8 "unterminated let header"
  | unbalancedHeader found => utf8 "unbalanced " ++ found.describe ++ utf8 " in let header"
  | openBlock line =>
    utf8 "unterminated let-block: no '\x7d' for the block opened at line " ++
      Text.ofNat line.toNat
  | unopened closer => utf8 "mismatched " ++ closer.describe ++ utf8 " in let-block body"
  | crossed closer inner =>
    utf8 "mismatched " ++ closer.describe ++ utf8 " in let-block body: " ++ quoted inner ++
      utf8 " is still open"
  | closedEarly inner =>
    utf8 "let-block closed while " ++ quoted inner ++ utf8 " is still open"

def diagnostic (problem : Problem) (span : Span) : Diagnostic :=
  { severity := .warning
    code := utf8 problem.code
    message := problem.message
    file := span.start.file
    span }

end Problem

/-! ### Journals -/

/-- A diagnostic as it is kept: one without a file is filed under the file of its span. -/
def Diagnostic.filed (d : Diagnostic) : Diagnostic :=
  if d.file = [] then { d with file := d.span.start.file } else d

/-- Diagnostics in the order in which they were recorded, with a running count of each
severity. -/
structure Journal where
  entries : Array Diagnostic := #[]
  warnings : Nat := 0
  errors : Nat := 0
  deriving Inhabited

namespace Journal

def record (journal : Journal) (d : Diagnostic) : Journal :=
  match d.severity with
  | .warning =>
    { journal with entries := journal.entries.push d.filed, warnings := journal.warnings + 1 }
  | .error =>
    { journal with entries := journal.entries.push d.filed, errors := journal.errors + 1 }

def note (journal : Journal) (severity : Severity) (code message : Text) (span : Span) :
    Journal :=
  journal.record { severity, code, message, file := span.start.file, span }

def warn (journal : Journal) (problem : Problem) (span : Span) : Journal :=
  journal.note .warning (utf8 problem.code) problem.message span

def recordAll (journal : Journal) (ds : List Diagnostic) : Journal := ds.foldl record journal

def reset (_ : Journal) : Journal := {}

def size (journal : Journal) : Nat := journal.entries.size

def toList (journal : Journal) : List Diagnostic := journal.entries.toList

/-- What was recorded once `first` diagnostics were there. -/
def since (journal : Journal) (first : Nat) : List Diagnostic := journal.toList.drop first

end Journal

end LetBlocks
