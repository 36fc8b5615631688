import LetBlocks.Text

/-!
What diagnostics and log records have in common when they are written: they are text for people
or JSON for programs, and text may be coloured if the terminal can show it.
-/

namespace LetBlocks

inductive Format
  | text
  | json
  deriving DecidableEq, Repr, Inhabited

/-- What is known about the standard error stream: whether it is a terminal, and the terminal's
type. -/
structure Terminal where
  interactive : Bool := false
  type : Option Text := none
  deriving DecidableEq, Repr, Inhabited

/-- Colours need a terminal whose type is known and is not `dumb`. -/
def Terminal.supportsColors (terminal : Terminal) : Bool :=
  terminal.interactive && terminal.type.any (· ≠ utf8 "dumb")

namespace Ansi

def reset : Text := utf8 "\x1b[0m"
def bold : Text := utf8 "\x1b[1m"
def brightRed : Text := utf8 "\x1b[91m"
def brightYellow : Text := utf8 "\x1b[93m"
def brightBlue : Text := utf8 "\x1b[94m"

def paint (colors : Bool) (code : Text) : Text := if colors then code else []

end Ansi

def Text.padLeft (width : Nat) (text : Text) : Text :=
  List.replicate (width - text.length) Byte.space ++ text

def Text.padRight (width : Nat) (text : Text) : Text :=
  text ++ List.replicate (width - text.length) Byte.space

end LetBlocks
