import LetBlocks.Node.Parse
import LetBlocks.Output
import LetBlocks.Token.Lexer

/-!
The stages one after another: cut the script into tokens, build its tree, write the tree out.
No stage can fail; what is wrong with a script goes into a journal on the way.
-/

namespace LetBlocks

structure Compilation where
  source : Source
  tokens : List Token
  nodes : List Node
  output : Text
  diagnostics : List Diagnostic

/-- Compiles a source whose regions are known. The journal goes from stage to stage, and the
diagnostics of the source are what it has gained by the end. -/
def Journal.compilation (journal : Journal) (style : Style) (source : Source)
    (regions : List Region) : Compilation × Journal :=
  let first := journal.size
  let (tokens, journal) := journal.lexAlong source regions
  let (nodes, journal) := journal.parse tokens
  let output := Output.render style nodes
  ({ source, tokens, nodes, output, diagnostics := journal.since first }, journal)

namespace Compilation

def along (style : Style) (source : Source) (regions : List Region) : Compilation :=
  (({} : Journal).compilation style source regions).1

def of (style : Style) (source : Source) : Compilation :=
  along style source (Region.scan source.content)

end Compilation

def compile (style : Style) (text : Text) : Text :=
  (Compilation.of style (Source.ofText text)).output

def Journal.compileAlong (journal : Journal) (style : Style) (source : Source)
    (regions : List Region) : Text × Journal :=
  let (c, journal) := journal.compilation style source regions
  (c.output, journal)

def Journal.compile (journal : Journal) (style : Style) (source : Source) : Text × Journal :=
  journal.compileAlong style source (Region.scan source.content)

end LetBlocks
