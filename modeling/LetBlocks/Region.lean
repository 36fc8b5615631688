import LetBlocks.Text

/-!
Before anything else a script is divided into regions: stretches of code, and literals whose
contents must not be looked into (strings, templates, regular expressions and comments). A
region is given by its bounds in the text, so that any way of finding regions can feed the
lexer, not only the one of `LetBlocks.Region.Scan`.
-/

namespace LetBlocks

inductive Region.Kind
  | code
  | string
  | template
  | regex
  | lineComment
  | blockComment
  deriving DecidableEq, Repr, Inhabited

/-- The bytes from `start` up to `stop`. A literal that ran into the end of the text or of its
line before its closing mark is not `closed`. -/
structure Region where
  kind : Region.Kind
  start : Nat
  stop : Nat
  closed : Bool := true
  deriving DecidableEq, Repr, Inhabited

namespace Region.Kind

def all : List Kind := [code, string, template, regex, lineComment, blockComment]

def name : Kind → String
  | code => "code"
  | string => "string"
  | template => "template"
  | regex => "regex"
  | lineComment => "line comment"
  | blockComment => "block comment"

def nameAt (i : Nat) : String := (all[i]?).elim "unknown" name

def isComment : Kind → Bool
  | lineComment | blockComment => true
  | _ => false

end Region.Kind

end LetBlocks
