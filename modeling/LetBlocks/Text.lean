/-!
Scripts arrive as bytes and leave as bytes. Nothing guarantees that they are well-formed UTF-8,
and every offset and column is counted in bytes, so a text is a list of bytes and not a
`String`. A list rather than an array, because every reader of the library recurses on what is
left to read.

The classes of bytes below are those of a script's words and blanks. A byte of 0x80 or above is
part of some non-ASCII character and counts as a letter.
-/

namespace LetBlocks

abbrev Byte := UInt8

abbrev Text := List Byte

/-- The UTF-8 encoding of a string; the library's own wording enters its texts through here. -/
def utf8 (s : String) : Text := s.toUTF8.data.toList

namespace Byte

abbrev tab : Byte := 0x09
abbrev lf : Byte := 0x0a
abbrev vt : Byte := 0x0b
abbrev ff : Byte := 0x0c
abbrev cr : Byte := 0x0d
abbrev space : Byte := 0x20
abbrev bang : Byte := 0x21
abbrev doubleQuote : Byte := 0x22
abbrev hash : Byte := 0x23
abbrev dollar : Byte := 0x24
abbrev singleQuote : Byte := 0x27
abbrev openParen : Byte := 0x28
abbrev closeParen : Byte := 0x29
abbrev star : Byte := 0x2a
abbrev comma : Byte := 0x2c
abbrev dash : Byte := 0x2d
abbrev dot : Byte := 0x2e
abbrev slash : Byte := 0x2f
abbrev equals : Byte := 0x3d
abbrev openSquare : Byte := 0x5b
abbrev backslash : Byte := 0x5c
abbrev closeSquare : Byte := 0x5d
abbrev underscore : Byte := 0x5f
abbrev backtick : Byte := 0x60
abbrev openCurly : Byte := 0x7b
abbrev closeCurly : Byte := 0x7d

def isDigit (b : Byte) : Bool := 0x30 ≤ b && b ≤ 0x39

def isUpper (b : Byte) : Bool := 0x41 ≤ b && b ≤ 0x5a

def isLower (b : Byte) : Bool := 0x61 ≤ b && b ≤ 0x7a

/-- A byte that can start an identifier: a letter, `_`, `$`, the `\` of an escape, or part of a
non-ASCII character. -/
def isWordStart (b : Byte) : Bool :=
  b.isLower || b.isUpper || b == underscore || b == dollar || b == backslash || 0x80 ≤ b

def isWord (b : Byte) : Bool := b.isWordStart || b.isDigit

def isLineBreak (b : Byte) : Bool := b == lf || b == cr

/-- A blank that does not break the line. -/
def isInlineBlank (b : Byte) : Bool := b == space || b == tab || b == vt || b == ff

def isBlank (b : Byte) : Bool := b.isInlineBlank || b.isLineBreak

def toLower (b : Byte) : Byte := if b.isUpper then b + 0x20 else b

def ofDigit (n : Nat) : Byte := 0x30 + n.toUInt8

end Byte

namespace Text

def ofNat (n : Nat) : Text :=
  if n < 10 then [Byte.ofDigit n] else ofNat (n / 10) ++ [Byte.ofDigit (n % 10)]

def ofInt : Int → Text
  | .ofNat n => ofNat n
  | .negSucc n => Byte.dash :: ofNat (n + 1)

def isIdentifier : Text → Bool
  | [] => false
  | b :: rest => b.isWordStart && rest.all Byte.isWord

/-- The text up to its first zero byte, where the system takes a path, an argument or a value
of its environment to end. -/
def beforeZero (text : Text) : Text := text.takeWhile (· ≠ 0)

def after? (start : String) (text : Text) : Option Text :=
  if (utf8 start).isPrefixOf text then some (text.drop (utf8 start).length) else none

end Text

end LetBlocks
