import LetBlocks.Node.Parse
import Mathlib.Tactic.Common

/-!
The tree can also be built with one stack for the brackets of all scopes. Each body that is
being read then remembers how high the stack was when it was opened, and a closing bracket
looks for its partner above that height only. A scope's own list of open brackets is the part
of the stack above the height of its frame, and the two ways give the same tree and the same
journal.
-/

namespace LetBlocks

namespace Node

/-- The sequence of nodes of the script, which has no block, or of the body of a let-block. -/
structure Frame where
  block : Option (Token × Header) := none
  nodes : List Node := []
  run : List Token := []
  base : Nat := 0

def Frame.flushed (frame : Frame) : List Node :=
  if frame.run = [] then frame.nodes else .plain frame.run.reverse :: frame.nodes

structure Stacked where
  frame : Frame := {}
  outer : List Frame := []
  brackets : List Bracket := []
  last : Option Token := none
  journal : Journal := {}

namespace Stacked

def inBody (s : Stacked) : Bool := !s.outer.isEmpty

def warn (s : Stacked) (problem : Problem) (span : Span) : Stacked :=
  { s with journal := s.journal.warn problem span }

def append (s : Stacked) (t : Token) : Stacked :=
  { s with
    frame := { s.frame with run := t :: s.frame.run }
    last := if t.isTrivia then s.last else some t }

def openBlock (s : Stacked) (letToken : Token) (header : Header) : Stacked :=
  { s with
    frame := { block := some (letToken, header), base := s.brackets.length }
    outer := { s.frame with nodes := s.frame.flushed, run := [] } :: s.outer
    last := header.tokens.getLast? }

def closeBlock (s : Stacked) (closing : Option Token) (stop : Location) : Stacked :=
  match s.frame.block, s.outer with
  | some (letToken, header), parent :: outer =>
    let node :=
      Node.letBlock header s.frame.flushed.reverse closing ⟨letToken.span.start, stop⟩
    { s with frame := { parent with nodes := node :: parent.nodes }, outer }
  | _, _ => s

/-- Looks for a bracket from the top of a stack down to the height `base`; what is below it. -/
def seek? (bracket : Bracket) (base : Nat) : List Bracket → Option (List Bracket)
  | [] => none
  | top :: below =>
    if base < (top :: below).length then
      if top = bracket then some below else seek? bracket base below
    else none

/-- A let-block is about to end: what its body has left open is reported. -/
def warnOpen (s : Stacked) (t : Token) : Stacked :=
  match s.brackets with
  | [] => s
  | top :: below =>
    if s.frame.base < (top :: below).length then s.warn (.closedEarly top) t.span else s

/-- Takes from the stack what the body has left open. -/
def lower (s : Stacked) : Stacked :=
  { s with brackets := s.brackets.drop (s.brackets.length - s.frame.base) }

/-- Takes a token that closes `bracket`, and says whether it ends a let-block. -/
def handleCloser (s : Stacked) (t : Token) (bracket : Bracket) : Bool × Stacked :=
  match seek? bracket s.frame.base s.brackets, s.brackets with
  | some below, top :: rest =>
    let s :=
      if below.length ≠ rest.length ∧ s.inBody then s.warn (.crossed t top) t.span else s
    (false, { s with brackets := below })
  | _, _ =>
    if s.inBody then
      if bracket = .curly then (true, (s.warnOpen t).lower.closeBlock (some t) t.span.stop)
      else (false, s.warn (.unopened t) t.span)
    else (false, s)

def takeCloser (s : Stacked) (t : Token) (bracket : Bracket) : Stacked :=
  match s.handleCloser t bracket with
  | (true, s) => { s with last := some t }
  | (false, s) => s.append t

def take (s : Stacked) (t : Token) : Stacked :=
  match t.opens?, t.closes? with
  | some bracket, _ => { s with brackets := bracket :: s.brackets }.append t
  | none, some bracket => s.takeCloser t bracket
  | none, none => s.append t

def afterDot (s : Stacked) : Bool :=
  s.last.any fun t => t.isPunct (utf8 ".") || t.isPunct (utf8 "?.")

def run (s : Stacked) : List Token → Stacked
  | [] => s
  | t :: rest =>
    if t.kind = .kwLet ∧ s.afterDot = false then
      match _h : Header.read t rest with
      | .found header rest' => run (s.openBlock t header) rest'
      | .faulty d => run ({ s with journal := s.journal.record d }.take t) rest
      | .absent => run (s.take t) rest
    else run (s.take t) rest
termination_by ts => ts.length
decreasing_by
  · exact Nat.lt_succ_of_le (Header.length_read_le _h)
  · exact Nat.lt_succ_self _
  · exact Nat.lt_succ_self _
  · exact Nat.lt_succ_self _

def abandon (stop : Location) (s : Stacked) : Stacked :=
  match s.frame.block with
  | none => s
  | some (letToken, _) =>
    (s.warn (.openBlock letToken.span.start.line) letToken.span).closeBlock none stop

/-- The brackets that are still on the stack at the end of the script are left there. -/
def finish (s : Stacked) (stop : Location) : Stacked :=
  s.outer.foldl (fun s _ => s.abandon stop) s

def parse (journal : Journal) (tokens : List Token) : List Node × Journal :=
  let stop := tokens.getLast?.elim {} (·.span.stop)
  let start : Stacked := { journal }
  let s := (start.run (tokens.takeWhile (!·.isEof))).finish stop
  (s.frame.flushed.reverse, s.journal)

end Stacked

/-! ### The stack of the scopes -/

/-- The brackets that are open outside the innermost scope. -/
def outerBrackets (around : List OpenBlock) : List Bracket := around.flatMap (·.outer.brackets)

def Scope.frame (scope : Scope) (around : List OpenBlock) : Frame where
  block := around.head?.map fun block => (block.letToken, block.header)
  nodes := scope.nodes
  run := scope.run
  base := (outerBrackets around).length

def outerFrames : List OpenBlock → List Frame
  | [] => []
  | block :: around => block.outer.frame around :: outerFrames around

namespace Progress

/-- The same with all brackets on one stack. -/
def stacked (p : Progress) : Stacked where
  frame := p.scope.frame p.around
  outer := outerFrames p.around
  brackets := p.scope.brackets ++ outerBrackets p.around
  last := p.last
  journal := p.journal

theorem inBody_stacked (p : Progress) : p.stacked.inBody = decide (p.around ≠ []) := by
  unfold Stacked.inBody stacked
  cases p.around <;> rfl

theorem stacked_openBlock (p : Progress) (letToken : Token) (header : Header) :
    (p.openBlock letToken header).stacked = p.stacked.openBlock letToken header := rfl

theorem stacked_closeBlock (p : Progress) (closing : Option Token) (stop : Location)
    (brackets : List Bracket) :
    { (p.closeBlock closing stop).stacked with brackets } =
      { p.stacked with brackets }.closeBlock closing stop := by
  unfold closeBlock
  cases haround : p.around with
  | nil => simp [Stacked.closeBlock, stacked, haround, outerFrames]
  | cons block around =>
      simp [Stacked.closeBlock, stacked, haround, outerFrames, Scope.frame, Frame.flushed,
        Scope.toNodes, Scope.flushed]

/-- A body that ends leaves the stack as high as it was when the body was opened. -/
theorem brackets_closeBlock {p : Progress} (h : p.around ≠ []) (closing : Option Token)
    (stop : Location) :
    (p.closeBlock closing stop).stacked.brackets = outerBrackets p.around := by
  unfold closeBlock
  cases haround : p.around with
  | nil => exact absurd haround h
  | cons block around => rfl

theorem lower_stacked (p : Progress) :
    p.stacked.lower = { p.stacked with brackets := outerBrackets p.around } := by
  have hbrackets : p.stacked.brackets = p.scope.brackets ++ outerBrackets p.around := rfl
  have hbase : p.stacked.frame.base = (outerBrackets p.around).length := rfl
  rw [Stacked.lower, hbrackets, hbase, List.length_append, Nat.add_sub_cancel, List.drop_left]

theorem stacked_closeBlock_lower {p : Progress} (h : p.around ≠ []) (closing : Option Token)
    (stop : Location) :
    (p.closeBlock closing stop).stacked = p.stacked.lower.closeBlock closing stop := by
  rw [lower_stacked, ← stacked_closeBlock, ← brackets_closeBlock h closing stop]

end Progress

/-! ### Closing brackets -/

/-- Above the height of a frame stand the brackets of its scope. -/
theorem Stacked.seek?_append (bracket : Bracket) (brackets below : List Bracket) :
    seek? bracket below.length (brackets ++ below) =
      match brackets.dropWhile (· ≠ bracket) with
      | [] => none
      | _ :: outer => some (outer ++ below) := by
  induction brackets with
  | nil =>
      cases below with
      | nil => rfl
      | cons top below => simp [seek?]
  | cons top brackets ih =>
      have hheight : below.length < (top :: (brackets ++ below)).length := by
        simp only [List.length_cons, List.length_append]
        omega
      rw [List.cons_append, seek?, if_pos hheight]
      by_cases htop : top = bracket
      · simp [htop]
      · rw [if_neg htop, ih]
        simp [htop]

namespace Progress

/-- The partner of a closing bracket is not on top exactly if the top is another bracket. -/
theorem length_ne_iff_of_dropWhile {top bracket partner : Bracket} {rest outer : List Bracket}
    (h : (top :: rest).dropWhile (· ≠ bracket) = partner :: outer) :
    outer.length ≠ rest.length ↔ top ≠ bracket := by
  by_cases htop : top = bracket
  · obtain ⟨-, rfl⟩ : top = partner ∧ rest = outer := by simpa [htop] using h
    simp [htop]
  · have hrest : rest.dropWhile (· ≠ bracket) = partner :: outer := by simpa [htop] using h
    have hlength := (List.dropWhile_sublist (· ≠ bracket) (l := rest)).length_le
    rw [hrest, List.length_cons] at hlength
    simp only [ne_eq, htop, not_false_eq_true, iff_true]
    omega

theorem warnOpen_stacked (p : Progress) (t : Token) :
    p.stacked.warnOpen t =
      (match p.scope.brackets with
        | [] => p
        | inner :: _ => p.warn (.closedEarly inner) t.span).stacked := by
  have hbase : p.stacked.frame.base = (outerBrackets p.around).length := rfl
  unfold Stacked.warnOpen
  rw [show p.stacked.brackets = p.scope.brackets ++ outerBrackets p.around from rfl, hbase]
  cases p.scope.brackets with
  | nil =>
      cases outerBrackets p.around with
      | nil => rfl
      | cons top below => simp
  | cons inner rest =>
      have hheight : (outerBrackets p.around).length <
          (inner :: (rest ++ outerBrackets p.around)).length := by
        simp only [List.length_cons, List.length_append]
        omega
      exact if_pos hheight

theorem stacked_takeCloser (p : Progress) (t : Token) (bracket : Bracket) :
    (p.takeCloser t bracket).stacked = p.stacked.takeCloser t bracket := by
  have hseek := Stacked.seek?_append bracket p.scope.brackets (outerBrackets p.around)
  have hbrackets : p.stacked.brackets = p.scope.brackets ++ outerBrackets p.around := rfl
  have hbase : p.stacked.frame.base = (outerBrackets p.around).length := rfl
  unfold takeCloser Stacked.takeCloser Stacked.handleCloser
  rw [hbrackets, hbase, hseek, inBody_stacked]
  cases hpartner : p.scope.brackets.dropWhile (· ≠ bracket) with
  | nil =>
      by_cases hbody : p.around = []
      · simp only [hbody, ne_eq, not_true_eq_false, decide_false, if_false, Bool.false_eq_true]
        rfl
      · simp only [hbody, ne_eq, not_false_eq_true, decide_true, if_true]
        by_cases hcurly : bracket = .curly
        · simp only [if_pos hcurly]
          rw [warnOpen_stacked, ← stacked_closeBlock_lower]
          · rfl
          · cases p.scope.brackets <;> exact hbody
        · simp only [if_neg hcurly]
          rfl
  | cons partner outer =>
      cases hopen : p.scope.brackets with
      | nil => simp [hopen] at hpartner
      | cons top rest =>
          rw [hopen] at hpartner
          have htop := length_ne_iff_of_dropWhile hpartner
          simp only [List.cons_append, List.length_append, ne_eq, Nat.add_right_cancel_iff,
            htop, decide_eq_true_eq]
          split_ifs
          · rfl
          · rfl

theorem stacked_take (p : Progress) (t : Token) : (p.take t).stacked = p.stacked.take t := by
  unfold take Stacked.take
  cases t.opens? with
  | some bracket => rfl
  | none =>
      cases t.closes? with
      | some bracket => exact stacked_takeCloser p t bracket
      | none => rfl

/-- The run lemma: reading goes step by step in the same way. -/
theorem stacked_run (p : Progress) (ts : List Token) :
    (p.run ts).stacked = p.stacked.run ts := by
  fun_induction run p ts with
  | case1 p => rw [Stacked.run]
  | case2 p t rest hstart header rest' hread ih =>
      have hstart' : t.kind = .kwLet ∧ p.stacked.afterDot = false := hstart
      rw [ih, stacked_openBlock, Stacked.run, if_pos hstart']
      split <;> simp_all
  | case3 p t rest hstart d hread ih =>
      have hstart' : t.kind = .kwLet ∧ p.stacked.afterDot = false := hstart
      rw [ih, stacked_take, Stacked.run, if_pos hstart']
      split <;> simp_all
      rfl
  | case4 p t rest hstart hread ih =>
      have hstart' : t.kind = .kwLet ∧ p.stacked.afterDot = false := hstart
      rw [ih, stacked_take, Stacked.run, if_pos hstart']
      split <;> simp_all
  | case5 p t rest hstart ih =>
      have hstart' : ¬ (t.kind = .kwLet ∧ p.stacked.afterDot = false) := hstart
      rw [ih, stacked_take, Stacked.run, if_neg hstart']

theorem stacked_abandon {p : Progress} {block : OpenBlock} {around : List OpenBlock}
    (h : p.around = block :: around) (stop : Location) (brackets : List Bracket) :
    { (abandon stop p block).stacked with brackets } =
      { p.stacked with brackets }.abandon stop := by
  have hblock : p.stacked.frame.block = some (block.letToken, block.header) := by
    rw [stacked, h]
    rfl
  rw [abandon, stacked_closeBlock, Stacked.abandon, hblock]
  rfl

/-- At the end it no longer matters what is on the stack. -/
theorem stacked_finish (p : Progress) (stop : Location) (brackets : List Bracket) :
    { (p.finish stop).stacked with brackets } = { p.stacked with brackets }.finish stop := by
  unfold finish Stacked.finish
  induction haround : p.around generalizing p with
  | nil => simp [stacked, haround, outerFrames]
  | cons block around ih =>
      have hnext : (abandon stop p block).around = around := by
        rw [abandon, closeBlock, warn, haround]
      have houter : p.stacked.outer = block.outer.frame around :: outerFrames around := by
        rw [stacked, haround, outerFrames]
      have houter' : (abandon stop p block).stacked.outer = outerFrames around := by
        rw [stacked, hnext]
      rw [List.foldl_cons, ih _ hnext, houter, List.foldl_cons, ← stacked_abandon haround,
        houter']

end Progress

end Node

/-- One stack, with its height at each body, gives the tree and the journal that the scopes
give with a list of brackets each. -/
theorem Journal.parse_eq_stacked (journal : Journal) (tokens : List Token) :
    journal.parse tokens = Node.Stacked.parse journal tokens := by
  let start : Node.Progress := { journal }
  let stop : Location := tokens.getLast?.elim {} (·.span.stop)
  let ts := tokens.takeWhile (!·.isEof)
  have hrun : (start.run ts).stacked = ({ journal } : Node.Stacked).run ts :=
    start.stacked_run ts
  have hfinish := (start.run ts).stacked_finish stop (start.run ts).stacked.brackets
  have hsame : { (start.run ts).stacked with brackets := (start.run ts).stacked.brackets } =
      ({ journal } : Node.Stacked).run ts := hrun
  rw [hsame] at hfinish
  rw [Node.Stacked.parse, ← hfinish]
  rfl

end LetBlocks
