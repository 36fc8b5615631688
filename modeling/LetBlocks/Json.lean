import LetBlocks.Text

/-!
Diagnostics and log records can be written as JSON, one object a line. Texts are bytes, so the
escaping is one of bytes: quotes, backslashes and control characters are escaped, and
everything else stands for itself.
-/

namespace LetBlocks.Json

def hexDigit (n : UInt8) : Byte := if n < 10 then 0x30 + n else 0x57 + n

def shortEscape? (b : Byte) : Option Text :=
  if b = Byte.doubleQuote then some (utf8 "\\\"")
  else if b = Byte.backslash then some (utf8 "\\\\")
  else if b = Byte.lf then some (utf8 "\\n")
  else if b = Byte.cr then some (utf8 "\\r")
  else if b = Byte.tab then some (utf8 "\\t")
  else none

def escapeByte (b : Byte) : Text :=
  match shortEscape? b with
  | some text => text
  | none =>
    if b = 0x08 then utf8 "\\b"
    else if b = Byte.ff then utf8 "\\f"
    else if b < 0x20 then utf8 "\\u00" ++ [hexDigit (b / 16), hexDigit (b % 16)]
    else [b]

def escape (text : Text) : Text := text.flatMap escapeByte

/-- A member of an object whose value is a string, given as it stands between its quotes. -/
def stringMember (key : String) (inside : Text) : Text :=
  utf8 "\"" ++ utf8 key ++ utf8 "\":\"" ++ inside ++ utf8 "\""

def member (key : String) (value : Text) : Text := utf8 "\"" ++ utf8 key ++ utf8 "\":" ++ value

def object (members : List Text) : Text :=
  utf8 "\x7b" ++ (utf8 ",").intercalate members ++ utf8 "\x7d"

end LetBlocks.Json
