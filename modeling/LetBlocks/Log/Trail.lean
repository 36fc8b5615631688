import LetBlocks.Compile
import LetBlocks.Log.Record

/-!
Each stage of a compilation says what it did. All of it can be told from the results of the
stages, so no stage needs a logger: the entries are read off a finished compilation, in the
order in which the stages worked.
-/

namespace LetBlocks.Log

def number (n : Nat) : Text := Text.ofNat n

namespace Trail

def cut (c : Compilation) : Entry :=
  { level := Level.debug
    module := utf8 "lexer"
    message := utf8 "lexed " ++ number c.tokens.length ++ utf8 " tokens (" ++
      number (c.tokens.countP (·.kind.isLiteral)) ++ utf8 " literals) from " ++ c.source.name }

def blockFound (header : Header) (span : Span) (depth : Nat) : Entry :=
  { level := Level.trace
    module := utf8 "parser"
    message := utf8 "let-block at " ++ number span.start.line.toNat ++ utf8 ":" ++
      number span.start.column.toNat ++
      utf8 " with " ++ number header.declarations.length ++ utf8 " declaration(s), depth " ++
      number depth }

/-- The let-blocks of a tree in the order in which they open. Each sequence of nodes comes with
its depth. -/
def blocksFound (done : Array Entry) : List (List Node × Nat) → Array Entry
  | [] => done
  | ([], _) :: pending => blocksFound done pending
  | (.plain _ :: nodes, depth) :: pending => blocksFound done ((nodes, depth) :: pending)
  | (.letBlock header body _ span :: nodes, depth) :: pending =>
    blocksFound (done.push (blockFound header span (depth + 1)))
      ((body, depth + 1) :: (nodes, depth) :: pending)
termination_by pending => Node.pendingWeight pending
decreasing_by all_goals simp [Node.pendingWeight, Node.weightAll, Node.weight] <;> omega

def parsed (c : Compilation) : Entry :=
  { level := Level.debug
    module := utf8 "parser"
    message := utf8 "parsed " ++ number (Node.blockCount c.nodes) ++
      utf8 " let-block(s) from " ++ number c.tokens.length ++ utf8 " tokens" }

def written (style : Style) (c : Compilation) : Entry :=
  { level := Level.debug
    module := utf8 "codegen"
    message := utf8 "generated " ++ number c.output.length ++ utf8 " bytes, rewrote " ++
      number (Node.declaringCount c.nodes) ++ utf8 " let-block(s) as " ++
      utf8 (if style.es3 then "ES3" else "native") }

def finished (c : Compilation) : Entry :=
  { level := Level.debug
    module := utf8 "driver"
    message := utf8 "compiled " ++ c.source.name ++ utf8 ": " ++ number c.source.length ++
      utf8 " -> " ++
      number c.output.length ++ utf8 " bytes, " ++ number c.diagnostics.length ++
      utf8 " diagnostic(s)" }

def stages (style : Style) (c : Compilation) : List Entry :=
  [cut c] ++ (blocksFound #[] [(c.nodes, 0)]).toList ++ [parsed c, written style c]

def whole (style : Style) (c : Compilation) : List Entry := stages style c ++ [finished c]

end Trail

end LetBlocks.Log
