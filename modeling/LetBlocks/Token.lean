import LetBlocks.Region
import LetBlocks.Source

/-!
A token is a stretch of a script with its kind and its place. Blanks and comments are tokens
too, so that the lexemes of a script's tokens, one after another, are the script.
-/

namespace LetBlocks

inductive Token.Kind
  | eof
  | identifier
  | kwLet
  | number
  | punct
  | whitespace
  | newline
  | string
  | template
  | regex
  | lineComment
  | blockComment
  deriving DecidableEq, Repr, Inhabited

structure Token where
  kind : Token.Kind
  lexeme : Text
  span : Span := {}
  deriving DecidableEq, Repr, Inhabited

namespace Token

namespace Kind

def all : List Kind :=
  [eof, identifier, kwLet, number, punct, whitespace, newline, string, template, regex,
    lineComment, blockComment]

def name : Kind → String
  | eof => "EOF"
  | identifier => "identifier"
  | kwLet => "let"
  | number => "number"
  | punct => "punctuator"
  | whitespace => "whitespace"
  | newline => "newline"
  | string => "string"
  | template => "template"
  | regex => "regex"
  | lineComment => "line comment"
  | blockComment => "block comment"

def nameAt (i : Nat) : String := (all[i]?).elim "unknown" name

def isBlank : Kind → Bool
  | whitespace | newline => true
  | _ => false

def isComment : Kind → Bool
  | lineComment | blockComment => true
  | _ => false

/-- Kinds of tokens that mean nothing to the structure of a script. -/
def isTrivia (kind : Kind) : Bool := kind.isBlank || kind.isComment

/-- Kinds of tokens whose contents are never looked into. -/
def isLiteral : Kind → Bool
  | string | template | regex | lineComment | blockComment => true
  | _ => false

def isWord : Kind → Bool
  | identifier | kwLet | number => true
  | _ => false

/-- The kind of the single token that a literal region becomes; code is cut further. -/
def ofRegion? : Region.Kind → Option Kind
  | .code => none
  | .string => some string
  | .template => some template
  | .regex => some regex
  | .lineComment => some lineComment
  | .blockComment => some blockComment

end Kind

def isEof (t : Token) : Bool := t.kind == .eof

def isBlank (t : Token) : Bool := t.kind.isBlank

def isTrivia (t : Token) : Bool := t.kind.isTrivia

def isPunct (t : Token) (text : Text) : Bool := t.kind == .punct && t.lexeme == text

def describe (t : Token) : Text :=
  match t.kind with
  | .eof => utf8 "end of input"
  | .newline => utf8 "line break"
  | _ => [Byte.singleQuote] ++ t.lexeme ++ [Byte.singleQuote]

def join (tokens : List Token) : Text := tokens.flatMap lexeme

end Token

/-! ### Brackets -/

inductive Bracket
  | round
  | square
  | curly
  deriving DecidableEq, Repr, Inhabited

namespace Bracket

def opener : Bracket → Byte
  | round => Byte.openParen
  | square => Byte.openSquare
  | curly => Byte.openCurly

def closer : Bracket → Byte
  | round => Byte.closeParen
  | square => Byte.closeSquare
  | curly => Byte.closeCurly

def opened? : Text → Option Bracket
  | [b] =>
    if b = Byte.openParen then some round
    else if b = Byte.openSquare then some square
    else if b = Byte.openCurly then some curly
    else none
  | _ => none

def closed? : Text → Option Bracket
  | [b] =>
    if b = Byte.closeParen then some round
    else if b = Byte.closeSquare then some square
    else if b = Byte.closeCurly then some curly
    else none
  | _ => none

end Bracket

namespace Token

def opens? (t : Token) : Option Bracket :=
  if t.kind = .punct then Bracket.opened? t.lexeme else none

def closes? (t : Token) : Option Bracket :=
  if t.kind = .punct then Bracket.closed? t.lexeme else none

end Token

end LetBlocks
