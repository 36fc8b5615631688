import LetBlocks.Header

/-!
The tokens of a script are taken one by one. What has been read but not finished is a stack:
the scope being filled, and around it the let-blocks whose bodies are still open. Each scope
has its own list of open brackets, because a closing bracket never reaches past the body it
stands in.

Only a closing brace that no bracket of its scope matches ends a let-block. Brackets that do
not match are passed through; inside a let-block they are reported. At the end of the script
the blocks that are still open are reported and closed, innermost first.
-/

namespace LetBlocks

namespace Node

/-- A sequence of nodes being filled: the nodes so far and the plain run after them, both
latest first, and the brackets that are open, innermost first. -/
structure Scope where
  nodes : List Node := []
  run : List Token := []
  brackets : List Bracket := []
  deriving Inhabited

/-- A let-block whose body is being read, and the scope that it will be part of. -/
structure OpenBlock where
  letToken : Token
  header : Header
  outer : Scope
  deriving Inhabited

/-- What has been read of a script: the innermost scope, the let-blocks around it, innermost
first, the last token that was not trivia, and the journal for what is wrong. -/
structure Progress where
  scope : Scope := {}
  around : List OpenBlock := []
  last : Option Token := none
  journal : Journal := {}
  deriving Inhabited

namespace Scope

def flushed (scope : Scope) : List Node :=
  if scope.run = [] then scope.nodes else .plain scope.run.reverse :: scope.nodes

def toNodes (scope : Scope) : List Node := scope.flushed.reverse

end Scope

namespace Progress

def warn (p : Progress) (problem : Problem) (span : Span) : Progress :=
  { p with journal := p.journal.warn problem span }

def append (p : Progress) (t : Token) : Progress :=
  { p with
    scope := { p.scope with run := t :: p.scope.run }
    last := if t.isTrivia then p.last else some t }

def openBlock (p : Progress) (letToken : Token) (header : Header) : Progress :=
  { p with
    scope := {}
    around :=
      { letToken, header, outer := { p.scope with nodes := p.scope.flushed, run := [] } } ::
        p.around
    last := header.tokens.getLast? }

/-- Closes the innermost let-block, which ends at `stop`; does nothing outside all blocks. -/
def closeBlock (p : Progress) (closing : Option Token) (stop : Location) : Progress :=
  match p.around with
  | [] => p
  | block :: around =>
    let node :=
      Node.letBlock block.header p.scope.toNodes closing ⟨block.letToken.span.start, stop⟩
    { p with scope := { block.outer with nodes := node :: block.outer.nodes }, around }

/-- Takes a token that closes `bracket`. It matches the nearest such bracket that is open in
its scope, whatever is open inside that. -/
def takeCloser (p : Progress) (t : Token) (bracket : Bracket) : Progress :=
  let inBlock := p.around ≠ []
  match p.scope.brackets.dropWhile (· ≠ bracket), p.scope.brackets with
  | _ :: outer, inner :: _ =>
    let p := if inner ≠ bracket ∧ inBlock then p.warn (.crossed t inner) t.span else p
    { p with scope := { p.scope with brackets := outer } }.append t
  | _, brackets =>
    if inBlock then
      if bracket = .curly then
        let p :=
          match brackets with
          | [] => p
          | inner :: _ => p.warn (.closedEarly inner) t.span
        { p.closeBlock (some t) t.span.stop with last := some t }
      else (p.warn (.unopened t) t.span).append t
    else p.append t

def take (p : Progress) (t : Token) : Progress :=
  match t.opens?, t.closes? with
  | some bracket, _ =>
    { p with scope := { p.scope with brackets := bracket :: p.scope.brackets } }.append t
  | none, some bracket => p.takeCloser t bracket
  | none, none => p.append t

/-- After a `.` or a `?.` the word `let` is the name of a member. -/
def afterDot (p : Progress) : Bool :=
  p.last.any fun t => t.isPunct (utf8 ".") || t.isPunct (utf8 "?.")

def run (p : Progress) : List Token → Progress
  | [] => p
  | t :: rest =>
    if t.kind = .kwLet ∧ p.afterDot = false then
      match _h : Header.read t rest with
      | .found header rest' => run (p.openBlock t header) rest'
      | .faulty d => run ({ p with journal := p.journal.record d }.take t) rest
      | .absent => run (p.take t) rest
    else run (p.take t) rest
termination_by ts => ts.length
decreasing_by
  · exact Nat.lt_succ_of_le (Header.length_read_le _h)
  · exact Nat.lt_succ_self _
  · exact Nat.lt_succ_self _
  · exact Nat.lt_succ_self _

def abandon (stop : Location) (p : Progress) (block : OpenBlock) : Progress :=
  (p.warn (.openBlock block.letToken.span.start.line) block.letToken.span).closeBlock none stop

/-- Ends the script: every let-block that is still open ends at `stop`. -/
def finish (p : Progress) (stop : Location) : Progress := p.around.foldl (abandon stop) p

end Progress

end Node

/-- Builds the tree of a list of tokens. The script ends before the first end-of-input token,
if there is one; let-blocks that are still open then are taken to end with the last token of
the list. -/
def Journal.parse (journal : Journal) (tokens : List Token) : List Node × Journal :=
  let stop := tokens.getLast?.elim {} (·.span.stop)
  let start : Node.Progress := { journal }
  let p := (start.run (tokens.takeWhile (!·.isEof))).finish stop
  (p.scope.toNodes, p.journal)

structure Parsed where
  nodes : List Node
  diagnostics : List Diagnostic

namespace Node

def parse (tokens : List Token) : Parsed :=
  let (nodes, journal) := ({} : Journal).parse tokens
  { nodes, diagnostics := journal.toList }

end Node

end LetBlocks
