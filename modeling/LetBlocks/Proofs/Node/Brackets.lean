import LetBlocks.Proofs.Node.Lossless

/-!
The parser closes a block at the first closing brace that matches no bracket of the body. So in
the body of a block every closing brace of a plain run stands where a brace is open, and where
the body ends none is. The brackets are counted as the parser does it: each body has its own,
and a closing bracket closes the nearest one of its kind. The invariant is that the brackets of
each scope are those that its nodes and its run leave open.
-/

namespace LetBlocks.Node

open Token

/-- Each closing brace of a run stands where a brace is open. -/
def Held : List Bracket → List Token → Prop
  | _, [] => True
  | opened, t :: ts =>
    (t.closes? = some .curly → .curly ∈ opened) ∧ Held (t.bracketsAfter opened) ts

/-- The brackets that are open behind a sequence of nodes. What a block opens, it closes. -/
def openedBy : List Bracket → List Node → List Bracket
  | opened, [] => opened
  | opened, plain ts :: nodes => openedBy (ts.foldl bracketsAfter opened) nodes
  | opened, letBlock _ _ _ _ :: nodes => openedBy opened nodes

mutual

/-- A node of which the closing braces stand where they should; `inBlock` says whether it is in
the body of a block, and `opened` are the brackets that are open before it there. -/
def Braced : Bool → List Bracket → Node → Prop
  | inBlock, opened, plain ts => inBlock = true → Held opened ts
  | _, _, letBlock _ body closing _ =>
      BracedAll true [] body ∧ (closing.isSome = true → .curly ∉ openedBy [] body)

def BracedAll : Bool → List Bracket → List Node → Prop
  | _, _, [] => True
  | inBlock, opened, node :: nodes =>
    Braced inBlock opened node ∧ BracedAll inBlock (openedBy opened [node]) nodes

end

theorem held_append {opened : List Bracket} {ts us : List Token} :
    Held opened (ts ++ us) ↔ Held opened ts ∧ Held (ts.foldl bracketsAfter opened) us := by
  induction ts generalizing opened with
  | nil => simp [Held]
  | cons t ts ih => simp [Held, ih, and_assoc]

theorem openedBy_append (opened : List Bracket) (nodes nodes' : List Node) :
    openedBy opened (nodes ++ nodes') = openedBy (openedBy opened nodes) nodes' := by
  induction nodes generalizing opened with
  | nil => rfl
  | cons node nodes ih => cases node <;> simp [openedBy, ih]

theorem openedBy_cons (opened : List Bracket) (node : Node) (nodes : List Node) :
    openedBy opened (node :: nodes) = openedBy (openedBy opened [node]) nodes :=
  openedBy_append opened [node] nodes

theorem bracedAll_append {inBlock : Bool} {opened : List Bracket} {nodes nodes' : List Node} :
    BracedAll inBlock opened (nodes ++ nodes') ↔
      BracedAll inBlock opened nodes ∧ BracedAll inBlock (openedBy opened nodes) nodes' := by
  induction nodes generalizing opened with
  | nil => simp [BracedAll, openedBy]
  | cons node nodes ih => simp [BracedAll, ih, openedBy_cons opened node nodes, and_assoc]

/-! ### Scopes -/

structure Scope.Tracked (inBlock : Bool) (s : Scope) : Prop where
  nodes : BracedAll inBlock [] s.nodes.reverse
  run : inBlock = true → Held (openedBy [] s.nodes.reverse) s.run.reverse
  brackets : s.brackets = s.run.reverse.foldl bracketsAfter (openedBy [] s.nodes.reverse)

theorem Scope.Tracked.toNodes {inBlock : Bool} {s : Scope} (h : s.Tracked inBlock) :
    BracedAll inBlock [] s.toNodes ∧ openedBy [] s.toNodes = s.brackets := by
  obtain ⟨hnodes, hrun, hbrackets⟩ := h
  unfold Scope.toNodes Scope.flushed
  split_ifs with hnil
  · rw [hbrackets, hnil]
    exact ⟨hnodes, rfl⟩
  · rw [List.reverse_cons, bracedAll_append, openedBy_append, hbrackets]
    exact ⟨⟨hnodes, hrun, trivial⟩, rfl⟩

/-- A block can follow whatever precedes it. -/
theorem Scope.Tracked.cons_letBlock {inBlock : Bool} {s : Scope} (h : s.Tracked inBlock)
    (hrun : s.run = []) {header : Header} {body : List Node} {closing : Option Token}
    {span : Span} (hblock : Braced inBlock s.brackets (letBlock header body closing span)) :
    Scope.Tracked inBlock
      { s with nodes := letBlock header body closing span :: s.nodes } := by
  obtain ⟨hnodes, -, hbrackets⟩ := h
  refine ⟨?_, ?_, ?_⟩
  · rw [List.reverse_cons, bracedAll_append]
    exact ⟨hnodes, hblock, trivial⟩
  · simp [hrun, Held]
  · rw [List.reverse_cons, openedBy_append, hbrackets]
    rfl

def TrackedAround : List OpenBlock → Prop
  | [] => True
  | b :: around => b.outer.Tracked (around ≠ []) ∧ b.outer.run = [] ∧ TrackedAround around

namespace Progress

structure Tracked (p : Progress) : Prop where
  scope : p.scope.Tracked (p.around ≠ [])
  around : TrackedAround p.around

variable {p : Progress}

theorem Tracked.openBlock (hp : p.Tracked) (t : Token) (header : Header) :
    (p.openBlock t header).Tracked := by
  obtain ⟨hnodes, hbrackets⟩ := hp.scope.toNodes
  refine ⟨⟨trivial, fun _ => trivial, rfl⟩, ⟨hnodes, fun _ => trivial, ?_⟩, rfl, hp.around⟩
  exact hbrackets.symm

theorem Tracked.closeBlock (hp : p.Tracked) {b : OpenBlock} {around : List OpenBlock}
    (hcons : p.around = b :: around) (closing : Option Token)
    (hclosing : closing.isSome = true → .curly ∉ p.scope.brackets) (stop : Location) :
    (p.closeBlock closing stop).Tracked := by
  obtain ⟨hscope, haround⟩ := hp
  rw [hcons] at hscope haround
  obtain ⟨hnodes, hbrackets⟩ := hscope.toNodes
  obtain ⟨houter, hrun, hrest⟩ := haround
  rw [Progress.closeBlock, hcons]
  refine ⟨houter.cons_letBlock hrun ⟨hnodes, ?_⟩, hrest⟩
  rwa [hbrackets]

theorem Tracked.take (hp : p.Tracked) (t : Token) : (p.take t).Tracked := by
  obtain ⟨ds, -, ⟨h, hcurly⟩ | ⟨h, haround, -, hcurly⟩⟩ := take_inversion p t
  · obtain ⟨⟨hnodes, hrun, hbrackets⟩, hrest⟩ := hp
    rw [h]
    refine ⟨⟨hnodes, fun hin => ?_, ?_⟩, hrest⟩
    · have hin' : p.around ≠ [] := of_decide_eq_true hin
      rw [Progress.append, List.reverse_cons, held_append, ← hbrackets]
      exact ⟨hrun hin, hcurly hin', trivial⟩
    · rw [Progress.append, List.reverse_cons, List.foldl_append, ← hbrackets]
      rfl
  · obtain ⟨b, around, hcons⟩ := List.exists_cons_of_ne_nil haround
    have hp' : Tracked (p.noting ds) := ⟨hp.scope, hp.around⟩
    rw [h]
    have hclose := hp'.closeBlock hcons (some t) (fun _ => hcurly) t.span.stop
    exact ⟨hclose.scope, hclose.around⟩

theorem Tracked.run (hp : p.Tracked) {ts : List Token} (heof : ∀ t ∈ ts, t.isEof = false) :
    (p.run ts).Tracked := by
  refine run_induction (motive := fun p _ => p.Tracked) ?_ ?_ heof hp
  · intro p t header rest rest' _ _ hp
    exact hp.openBlock t header
  · intro p t rest ds _ _ hp
    have hp' : Tracked (p.noting ds) := ⟨hp.scope, hp.around⟩
    exact hp'.take t

theorem Tracked.finish (hp : p.Tracked) (stop : Location) :
    BracedAll false [] (p.finish stop).scope.toNodes := by
  have hstep : ∀ (q : Progress) (b : OpenBlock) (around : List OpenBlock),
      q.around = b :: around → q.Tracked → (abandon stop q b).Tracked := by
    intro q b around hq h
    have h' : Tracked (q.warn (.openBlock b.letToken.span.start.line) b.letToken.span) :=
      ⟨h.scope, h.around⟩
    exact h'.closeBlock hq none (by simp) stop
  obtain ⟨hend, hnil⟩ := finish_induction hstep p hp
  have hscope := hend.scope
  rw [hnil] at hscope
  exact hscope.toNodes.1

end Progress

/-- In the tree of any list of tokens the closing braces stand where they should. -/
theorem bracedAll_parse (tokens : List Token) : BracedAll false [] (parse tokens).nodes := by
  have hstart : Progress.Tracked {} := ⟨⟨trivial, fun _ => trivial, rfl⟩, trivial⟩
  exact (hstart.run isEof_of_mem_takeWhile).finish _

end LetBlocks.Node
