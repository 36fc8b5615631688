import LetBlocks.Proofs.Node.Brackets

/-!
What the parser reports of a bracket depends on the brackets that are open in its scope, and
the tree shows which these are. `judgedAll` lists the tokens of a tree in order, each with what
is to be reported of it. The invariant is that the parser has reported just that of the tokens
it has read, in the same order.
-/

namespace LetBlocks

def Token.clashes (inBlock : Bool) (opened : List Bracket) (t : Token) : List Diagnostic :=
  (t.mismatches inBlock opened).map (·.diagnostic t.span)

namespace Node

open Token

/-- Does a diagnostic say that a bracket does not match? -/
def isMismatch (d : Diagnostic) : Bool := d.code == utf8 "P006"

def judgedRun (inBlock : Bool) : List Bracket → List Token → List (Token × List Diagnostic)
  | _, [] => []
  | opened, t :: ts =>
    (t, t.clashes inBlock opened) :: judgedRun inBlock (t.bracketsAfter opened) ts

mutual

/-- The tokens of a node, each with what is reported of it as a bracket; `opened` are the
brackets that are open before the node in its sequence. Nothing is reported of the tokens of a
header. -/
def judged : Bool → List Bracket → Node → List (Token × List Diagnostic)
  | inBlock, opened, plain ts => judgedRun inBlock opened ts
  | _, _, letBlock header body closing _ =>
      header.tokens.map (·, []) ++ judgedAll true [] body ++
        closing.toList.map fun t => (t, t.clashes true (openedBy [] body))

def judgedAll : Bool → List Bracket → List Node → List (Token × List Diagnostic)
  | _, _, [] => []
  | inBlock, opened, node :: nodes =>
    node.judged inBlock opened ++ judgedAll inBlock (openedBy opened [node]) nodes

end

theorem judgedRun_append (inBlock : Bool) (opened : List Bracket) (ts us : List Token) :
    judgedRun inBlock opened (ts ++ us) =
      judgedRun inBlock opened ts ++ judgedRun inBlock (ts.foldl bracketsAfter opened) us := by
  induction ts generalizing opened with
  | nil => rfl
  | cons t ts ih => simp [judgedRun, ih]

theorem judgedAll_append (inBlock : Bool) (opened : List Bracket) (nodes nodes' : List Node) :
    judgedAll inBlock opened (nodes ++ nodes') =
      judgedAll inBlock opened nodes ++ judgedAll inBlock (openedBy opened nodes) nodes' := by
  induction nodes generalizing opened with
  | nil => rfl
  | cons node nodes ih => simp [judgedAll, ih, openedBy_cons opened node nodes]

theorem map_fst_judgedRun (inBlock : Bool) (opened : List Bracket) (ts : List Token) :
    (judgedRun inBlock opened ts).map Prod.fst = ts := by
  induction ts generalizing opened with
  | nil => rfl
  | cons t ts ih => simp [judgedRun, ih]

mutual

theorem map_fst_judged (inBlock : Bool) (opened : List Bracket) :
    ∀ node : Node, (node.judged inBlock opened).map Prod.fst = node.tokens
  | plain ts => by rw [judged, map_fst_judgedRun, tokens]
  | letBlock header body closing _ => by
      rw [judged, tokens, List.map_append, List.map_append, map_fst_judgedAll true [] body]
      simp [Function.comp_def]

theorem map_fst_judgedAll (inBlock : Bool) (opened : List Bracket) :
    ∀ nodes : List Node, (judgedAll inBlock opened nodes).map Prod.fst = tokensAll nodes
  | [] => rfl
  | node :: nodes => by
      rw [judgedAll, tokensAll, List.map_append, map_fst_judged inBlock opened node,
        map_fst_judgedAll]

end

/-! ### Where reports stand -/

theorem span_of_mem_clashes {inBlock : Bool} {opened : List Bracket} {t : Token}
    {d : Diagnostic} (h : d ∈ t.clashes inBlock opened) : d.span = t.span := by
  obtain ⟨problem, -, rfl⟩ := List.mem_map.1 h
  rfl

theorem span_judgedRun (inBlock : Bool) (opened : List Bracket) (ts : List Token) :
    ∀ x ∈ judgedRun inBlock opened ts, ∀ d ∈ x.2, d.span = x.1.span := by
  induction ts generalizing opened with
  | nil => simp [judgedRun]
  | cons t ts ih =>
      rw [judgedRun, List.forall_mem_cons]
      exact ⟨fun d hd => span_of_mem_clashes hd, ih (t.bracketsAfter opened)⟩

mutual

theorem span_judged (inBlock : Bool) (opened : List Bracket) :
    ∀ node : Node, ∀ x ∈ node.judged inBlock opened, ∀ d ∈ x.2, d.span = x.1.span
  | plain ts => span_judgedRun inBlock opened ts
  | letBlock header body closing _ => by
      rw [judged, List.forall_mem_append, List.forall_mem_append]
      refine ⟨⟨fun x hx => ?_, span_judgedAll true [] body⟩, fun x hx => ?_⟩
      · obtain ⟨t, -, rfl⟩ := List.mem_map.1 hx
        simp
      · obtain ⟨t, -, rfl⟩ := List.mem_map.1 hx
        exact fun d hd => span_of_mem_clashes hd

/-- A report stands at the token that it is about. -/
theorem span_judgedAll (inBlock : Bool) (opened : List Bracket) :
    ∀ nodes : List Node, ∀ x ∈ judgedAll inBlock opened nodes, ∀ d ∈ x.2, d.span = x.1.span
  | [] => by simp [judgedAll]
  | node :: nodes => by
      rw [judgedAll, List.forall_mem_append]
      exact ⟨span_judged inBlock opened node,
        span_judgedAll inBlock (openedBy opened [node]) nodes⟩

end

/-! ### Scopes -/

def Scope.judged (inBlock : Bool) (s : Scope) : List (Token × List Diagnostic) :=
  judgedAll inBlock [] s.toNodes

theorem Scope.judged_eq (inBlock : Bool) (s : Scope) :
    s.judged inBlock =
      judgedAll inBlock [] s.nodes.reverse ++
        judgedRun inBlock (openedBy [] s.nodes.reverse) s.run.reverse := by
  unfold Scope.judged Scope.toNodes Scope.flushed
  split
  · next h => simp [h, judgedRun]
  · rw [List.reverse_cons, judgedAll_append, judgedAll, judgedAll, Node.judged,
      List.append_nil]

/-- A token that joins the run is judged by the brackets of the scope. -/
theorem Scope.Tracked.judged_run {inBlock : Bool} {s : Scope} (h : s.Tracked inBlock)
    (t : Token) (brackets : List Bracket) :
    Scope.judged inBlock { s with run := t :: s.run, brackets } =
      s.judged inBlock ++ [(t, t.clashes inBlock s.brackets)] := by
  rw [Scope.judged_eq, Scope.judged_eq, List.reverse_cons, judgedRun_append, ← h.brackets,
    List.append_assoc]
  rfl

theorem Scope.judged_cons {inBlock : Bool} {s : Scope} (hrun : s.run = []) (node : Node) :
    Scope.judged inBlock { s with nodes := node :: s.nodes } =
      s.judged inBlock ++ node.judged inBlock (openedBy [] s.nodes.reverse) := by
  rw [Scope.judged_eq, Scope.judged_eq, hrun, List.reverse_cons, judgedAll_append]
  simp [judgedRun, judgedAll]

def judgedAround : List OpenBlock → List (Token × List Diagnostic)
  | [] => []
  | b :: around =>
      judgedAround around ++ b.outer.judged (around ≠ []) ++ b.header.tokens.map (·, [])

namespace Progress

def judged (p : Progress) : List (Token × List Diagnostic) :=
  judgedAround p.around ++ p.scope.judged (p.around ≠ [])

variable {p : Progress}

theorem complaints_eq (p : Progress) (t : Token) :
    p.complaints t = t.clashes (p.around ≠ []) p.scope.brackets := by
  unfold complaints Token.clashes
  cases p.around <;> rfl

theorem judged_openBlock (p : Progress) (t : Token) (header : Header) :
    (p.openBlock t header).judged = p.judged ++ header.tokens.map (·, []) := by
  have houter : Scope.judged (p.around ≠ [])
      { p.scope with nodes := p.scope.flushed, run := [] } =
      p.scope.judged (p.around ≠ []) := rfl
  rw [judged, judged, openBlock, judgedAround, houter]
  simp [Scope.judged, Scope.toNodes, Scope.flushed, judgedAll]

theorem judged_closeBlock (hp : p.Tracked) {b : OpenBlock} {around : List OpenBlock}
    (hcons : p.around = b :: around) (closing : Option Token) (stop : Location) :
    (p.closeBlock closing stop).judged =
      p.judged ++ closing.toList.map fun t => (t, t.clashes true p.scope.brackets) := by
  obtain ⟨hscope, haround⟩ := hp
  rw [hcons] at haround
  have hbrackets := hscope.toNodes.2
  rw [judged, closeBlock, hcons, Scope.judged_cons haround.2.1, Node.judged, hbrackets, judged,
    hcons, judgedAround]
  simp [Scope.judged]

/-- What the parser has reported of brackets is what is to be reported of the tokens it has
read. -/
structure Complained (p : Progress) : Prop where
  tracked : p.Tracked
  diagnostics : p.diagnostics.reverse.filter isMismatch = p.judged.flatMap Prod.snd

/-- At most one thing is wrong with a bracket. -/
theorem reverse_mismatches (inBlock : Bool) (opened : List Bracket) (t : Token) :
    (t.mismatches inBlock opened).reverse = t.mismatches inBlock opened := by
  unfold Token.mismatches
  split
  · split_ifs <;> rfl
  · split_ifs <;> rfl
  · rfl

theorem filter_isMismatch_complaints (p : Progress) (t : Token) :
    (p.complaints t).reverse.filter isMismatch = p.complaints t := by
  have hreverse : (p.complaints t).reverse = p.complaints t := by
    rw [complaints, ← List.map_reverse, reverse_mismatches]
  rw [hreverse, List.filter_eq_self]
  intro d hd
  rw [isMismatch, mismatches_complaints p t d hd]
  exact beq_self_eq_true _

theorem Complained.take (hp : p.Complained) (t : Token) : (p.take t).Complained := by
  obtain ⟨htracked, hdiagnostics⟩ := hp
  refine ⟨htracked.take t, ?_⟩
  rw [diagnostics_take, List.reverse_append, List.filter_append, hdiagnostics,
    filter_isMismatch_complaints]
  rcases take_spelled_out p t with ⟨h, -⟩ | ⟨h, haround, -⟩
  · have hjudged : (p.take t).judged = p.judged ++ [(t, p.complaints t)] := by
      rw [h, complaints_eq, judged, judged, append, List.append_assoc,
        ← htracked.scope.judged_run t]
    rw [hjudged, List.flatMap_append, List.flatMap_singleton]
  · obtain ⟨b, around, hcons⟩ := List.exists_cons_of_ne_nil haround
    have hjudged : (p.take t).judged = p.judged ++ [(t, p.complaints t)] := by
      have hp' : Tracked (p.noting (p.complaints t)) := ⟨htracked.scope, htracked.around⟩
      have hclose := judged_closeBlock hp' hcons (some t) t.span.stop
      rw [complaints_eq, decide_eq_true haround, h]
      exact hclose
    rw [hjudged, List.flatMap_append, List.flatMap_singleton]

theorem Complained.openBlock (hp : p.Complained) (t : Token) (header : Header) :
    (p.openBlock t header).Complained := by
  refine ⟨hp.tracked.openBlock t header, ?_⟩
  rw [judged_openBlock, List.flatMap_append, ← hp.diagnostics]
  simp [List.flatMap_map]

/-- Reports of other kinds do not count. -/
theorem Complained.report (hp : p.Complained) {ds : List Diagnostic} (hfiled : Filed ds)
    (h : ∀ d ∈ ds, isMismatch d = false) : Complained (p.noting ds) := by
  refine ⟨⟨hp.tracked.scope, hp.tracked.around⟩, ?_⟩
  have hnone : ds.reverse.filter isMismatch = [] := by
    rw [List.filter_eq_nil_iff]
    intro d hd
    simp [h d (List.mem_reverse.1 hd)]
  rw [diagnostics_noting hfiled, List.reverse_append, List.filter_append, hnone,
    List.append_nil]
  exact hp.diagnostics

theorem Complained.run (hp : p.Complained) {ts : List Token}
    (heof : ∀ t ∈ ts, t.isEof = false) : (p.run ts).Complained := by
  refine run_induction (motive := fun p _ => p.Complained) ?_ ?_ heof hp
  · intro p t header rest rest' _ _ hp
    exact hp.openBlock t header
  · intro p t rest ds hds hfiled hp
    refine (hp.report hfiled fun d hd => ?_).take t
    have hcodes : ∀ code ∈ Header.faultCodes, (code == utf8 "P006") = false := by decide
    exact hcodes d.code (hds d hd)

theorem Complained.finish (hp : p.Complained) (stop : Location) :
    (p.finish stop).diagnostics.reverse.filter isMismatch =
      (judgedAll false [] (p.finish stop).scope.toNodes).flatMap Prod.snd := by
  have hstep : ∀ (q : Progress) (b : OpenBlock) (around : List OpenBlock),
      q.around = b :: around → q.Complained → (abandon stop q b).Complained := by
    intro q b around hq h
    have hcode : isMismatch b.report = false :=
      (by decide : (utf8 "P005" == utf8 "P006") = false)
    have hreport : Complained
        (q.warn (.openBlock b.letToken.span.start.line) b.letToken.span) :=
      h.report (filed_singleton (Problem.filed_diagnostic _ _))
        (List.forall_mem_singleton.2 hcode)
    refine ⟨hreport.tracked.closeBlock hq none (by simp) stop, ?_⟩
    rw [abandon, diagnostics_closeBlock, hreport.diagnostics,
      judged_closeBlock hreport.tracked hq none stop]
    simp
  obtain ⟨hend, hnil⟩ := finish_induction hstep p hp
  rw [hend.diagnostics, judged, hnil]
  rfl

end Progress

/-- The parser's reports on brackets are what is to be reported of the tokens of its tree, in
order. -/
theorem filter_isMismatch_parse (tokens : List Token) :
    (parse tokens).diagnostics.filter isMismatch =
      (judgedAll false [] (parse tokens).nodes).flatMap Prod.snd := by
  have hstart : Progress.Complained {} := ⟨⟨⟨trivial, fun _ => trivial, rfl⟩, trivial⟩, rfl⟩
  rw [parse_eq]
  exact (hstart.run isEof_of_mem_takeWhile).finish _

end Node

end LetBlocks
