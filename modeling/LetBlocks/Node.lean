import LetBlocks.Token

/-!
A script is a sequence of nodes: runs of tokens that mean nothing here, and let-blocks `let (a
= 1, b) { … }`, whose bodies are sequences of nodes again. A node keeps every token it was read
from, so its source text can be read back from it (`Node.raw`).

The functions of this module say what is meant, by recursion on the tree. A tree can be nested
deeper than a call stack allows; `LetBlocks.Node.Walk` computes the same values from an
explicit list of what is left to visit.
-/

namespace LetBlocks

/-- One `name` or `name = initializer` of a let header, with its tokens from the name to the
end of the initializer. -/
structure Declaration where
  name : Token
  initializer : Option (List Token) := none
  tokens : List Token
  deriving DecidableEq, Repr, Inhabited

/-- What precedes the body of a let-block: its tokens from `let` through the opening brace, and
what they declare, in order. -/
structure Header where
  declarations : List Declaration := []
  tokens : List Token := []
  deriving DecidableEq, Repr, Inhabited

/-- A run of tokens, or a let-block. A block without a `closing` brace ran into the end of the
script. -/
inductive Node
  | plain (tokens : List Token)
  | letBlock (header : Header) (body : List Node) (closing : Option Token) (span : Span)
  deriving Repr, Inhabited

namespace Node

def closingText (closing : Option Token) : Text := closing.elim [] Token.lexeme

mutual

def raw : Node → Text
  | plain tokens => Token.join tokens
  | letBlock header body closing _ =>
    Token.join header.tokens ++ rawAll body ++ closingText closing

def rawAll : List Node → Text
  | [] => []
  | node :: nodes => node.raw ++ rawAll nodes

end

mutual

def count : Node → Nat
  | plain _ => 0
  | letBlock _ body _ _ => 1 + countAll body

def countAll : List Node → Nat
  | [] => 0
  | node :: nodes => node.count + countAll nodes

end

mutual

def depth : Node → Nat
  | plain _ => 0
  | letBlock _ body _ _ => 1 + depthAll body

def depthAll : List Node → Nat
  | [] => 0
  | node :: nodes => max node.depth (depthAll nodes)

end

mutual

/-- How much of a walk a node takes: one step, and one more to leave the body of a block. -/
def weight : Node → Nat
  | plain _ => 1
  | letBlock _ body _ _ => 2 + weightAll body

def weightAll : List Node → Nat
  | [] => 0
  | node :: nodes => node.weight + weightAll nodes

end

end Node

end LetBlocks
