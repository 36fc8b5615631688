import LetBlocks.Node

/-!
The walks below keep the sequences of nodes that are left to visit in a list, so the nesting of
let-blocks costs memory and not call stack. Each sequence comes with whatever the walk has to
remember about it.
-/

namespace LetBlocks.Node

/-- The steps left in a walk: those of each sequence, and one to leave it. -/
def pendingWeight {α : Type} : List (List Node × α) → Nat
  | [] => 0
  | entry :: pending => 1 + weightAll entry.1 + pendingWeight pending

/-- Collects source text. Each sequence of nodes comes with the closing brace of the block it
is the body of. -/
def collectRaw (out : Array Text) : List (List Node × Option Token) → Array Text
  | [] => out
  | ([], closing) :: pending => collectRaw (out.push (closingText closing)) pending
  | (plain tokens :: nodes, closing) :: pending =>
    collectRaw (out.push (Token.join tokens)) ((nodes, closing) :: pending)
  | (letBlock header body inner _ :: nodes, closing) :: pending =>
    collectRaw (out.push (Token.join header.tokens))
      ((body, inner) :: (nodes, closing) :: pending)
termination_by pending => pendingWeight pending
decreasing_by all_goals simp [pendingWeight, weightAll, weight] <;> omega

def rawText (nodes : List Node) : Text := (collectRaw #[] [(nodes, none)]).toList.flatten

def rawTextOf : Node → Text
  | plain tokens => Token.join tokens
  | letBlock header body closing _ =>
    Token.join header.tokens ++ rawText body ++ closingText closing

/-- Folds over the headers of all let-blocks and the depths at which they stand. The blocks of
a sequence come before those of its bodies, and the bodies are taken from the last to the
first. -/
def foldBlocks {σ : Type} (visit : σ → Header → Nat → σ) (s : σ) : List (List Node × Nat) → σ
  | [] => s
  | ([], _) :: pending => foldBlocks visit s pending
  | (plain _ :: nodes, depth) :: pending => foldBlocks visit s ((nodes, depth) :: pending)
  | (letBlock header body _ _ :: nodes, depth) :: pending =>
    foldBlocks visit (visit s header (depth + 1))
      ((nodes, depth) :: (body, depth + 1) :: pending)
termination_by pending => pendingWeight pending
decreasing_by all_goals simp [pendingWeight, weightAll, weight] <;> omega

def blockCount (nodes : List Node) : Nat := foldBlocks (fun n _ _ => n + 1) 0 [(nodes, 0)]

def nestingDepth (nodes : List Node) : Nat :=
  foldBlocks (fun deepest _ depth => max deepest depth) 0 [(nodes, 0)]

def declaringCount (nodes : List Node) : Nat :=
  foldBlocks (fun n header _ => if header.declarations = [] then n else n + 1) 0 [(nodes, 0)]

end LetBlocks.Node
