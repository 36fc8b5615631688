import LetBlocks.Proofs.Header.Twins
import LetBlocks.Proofs.Node.Run

/-!
The parser is followed on two lists of tokens that are paired by a relation `R` between tokens
that are alike. What it has read so far of the one is at all times the twin of what it has read
of the other: the same runs, blocks and open brackets, with paired tokens in the same places.
So the two trees are twins, and so are the diagnostics.
-/

namespace LetBlocks.Node

/-- Two nodes of the same form, with paired tokens in the same places. -/
inductive Twin (R : Token → Token → Prop) : Node → Node → Prop
  | plain {ts us : List Token} (h : List.Forall₂ R ts us) : Twin R (.plain ts) (.plain us)
  | letBlock {header header' : Header} {body body' : List Node}
      {closing closing' : Option Token} {span span' : Span}
      (hheader : header.Twin R header') (hbody : List.Forall₂ (Twin R) body body')
      (hclosing : Option.Rel R closing closing') :
      Twin R (.letBlock header body closing span) (.letBlock header' body' closing' span')

structure Scope.Twin (R : Token → Token → Prop) (s s' : Scope) : Prop where
  nodes : List.Forall₂ (Node.Twin R) s.nodes s'.nodes
  run : List.Forall₂ R s.run s'.run
  brackets : s.brackets = s'.brackets

structure OpenBlock.Twin (R : Token → Token → Prop) (b b' : OpenBlock) : Prop where
  letToken : R b.letToken b'.letToken
  header : b.header.Twin R b'.header
  outer : b.outer.Twin R b'.outer

structure Progress.Twin (R : Token → Token → Prop) (p q : Progress) : Prop where
  scope : p.scope.Twin R q.scope
  around : List.Forall₂ (OpenBlock.Twin R) p.around q.around
  last : Option.Rel R p.last q.last
  diagnostics : List.Forall₂ (Diagnostic.Twin R) p.diagnostics q.diagnostics

variable {R : Token → Token → Prop}

theorem eq_nil_iff_of_forall₂ {α β : Type} {S : α → β → Prop} {xs : List α} {ys : List β}
    (h : List.Forall₂ S xs ys) : xs = [] ↔ ys = [] := by
  cases h with
  | nil => simp
  | cons _ _ => simp

theorem Scope.Twin.flushed {s s' : Scope} (h : s.Twin R s') :
    List.Forall₂ (Node.Twin R) s.flushed s'.flushed := by
  unfold Scope.flushed
  simp only [eq_nil_iff_of_forall₂ h.run]
  split
  · exact h.nodes
  · exact .cons (.plain (List.rel_reverse h.run)) h.nodes

theorem Scope.Twin.toNodes {s s' : Scope} (h : s.Twin R s') :
    List.Forall₂ (Node.Twin R) s.toNodes s'.toNodes :=
  List.rel_reverse h.flushed

theorem getLast?_twin {ts us : List Token} (h : List.Forall₂ R ts us) :
    Option.Rel R ts.getLast? us.getLast? := by
  have hreverse := List.rel_reverse h
  rw [← List.head?_reverse, ← List.head?_reverse]
  generalize ts.reverse = ts' at hreverse ⊢
  generalize us.reverse = us' at hreverse ⊢
  cases hreverse with
  | nil => exact .none
  | cons htu _ => exact .some htu

/-- Brackets that do not match are reported with the same codes. -/
theorem mismatches_twin {t u : Token} (h : t.Alike u) (inBlock : Bool)
    (opened : List Bracket) :
    List.Forall₂ (fun a b => a.code = b.code) (t.mismatches inBlock opened)
      (u.mismatches inBlock opened) := by
  unfold Token.mismatches
  rw [h.closes?]
  split
  · split_ifs <;> simp [Problem.code]
  · split_ifs <;> simp [Problem.code]
  · exact .nil

theorem filed_of_twin {d e : Diagnostic} (h : d.Twin R e) : d.filed = d ∧ e.filed = e := by
  cases h with
  | intro => exact ⟨Problem.filed_diagnostic _ _, Problem.filed_diagnostic _ _⟩

namespace Progress

variable (hR : ∀ t u, R t u → t.Alike u) {p q : Progress} {t u : Token}

theorem twin_start : Twin R {} {} := ⟨⟨.nil, .nil, rfl⟩, .nil, .none, .nil⟩

theorem Twin.report (h : p.Twin R q) {d e : Diagnostic} (hd : d.Twin R e) :
    Twin R (p.noting [d]) (q.noting [e]) := by
  refine ⟨h.scope, h.around, h.last, ?_⟩
  rw [diagnostics_noting (filed_singleton (filed_of_twin hd).1),
    diagnostics_noting (filed_singleton (filed_of_twin hd).2)]
  exact .cons hd h.diagnostics

theorem Twin.openBlock (h : p.Twin R q) (htu : R t u) {header header' : Header}
    (hheader : header.Twin R header') :
    (p.openBlock t header).Twin R (q.openBlock u header') where
  scope := ⟨.nil, .nil, rfl⟩
  around := .cons ⟨htu, hheader, h.scope.flushed, .nil, h.scope.brackets⟩ h.around
  last := getLast?_twin hheader.tokens
  diagnostics := h.diagnostics

theorem Twin.closeBlock (h : p.Twin R q) {closing closing' : Option Token}
    (hclosing : Option.Rel R closing closing') (stop stop' : Location) :
    (p.closeBlock closing stop).Twin R (q.closeBlock closing' stop') := by
  unfold Progress.closeBlock
  have haround := h.around
  generalize p.around = around at haround ⊢
  generalize q.around = around' at haround ⊢
  cases haround with
  | nil => exact h
  | cons hb haround =>
      exact ⟨⟨.cons (.letBlock hb.header h.scope.toNodes hclosing) hb.outer.nodes,
        hb.outer.run, hb.outer.brackets⟩,
        haround, h.last, h.diagnostics⟩

include hR

theorem Twin.append (h : p.Twin R q) (htu : R t u) : (p.append t).Twin R (q.append u) where
  scope := ⟨h.scope.nodes, .cons htu h.scope.run, h.scope.brackets⟩
  around := h.around
  last := by
    unfold Progress.append
    dsimp only
    rw [(hR t u htu).isTrivia]
    split
    · exact h.last
    · exact .some htu
  diagnostics := h.diagnostics

theorem Twin.afterDot (h : p.Twin R q) : p.afterDot = q.afterDot := by
  unfold Progress.afterDot
  have hlast := h.last
  generalize p.last = last at hlast ⊢
  generalize q.last = last' at hlast ⊢
  cases hlast with
  | none => rfl
  | some htu => simp only [Option.any_some, (hR _ _ htu).isPunct]

theorem Twin.complaints (h : p.Twin R q) (htu : R t u) :
    List.Forall₂ (Diagnostic.Twin R) (p.complaints t) (q.complaints u) := by
  have hempty : p.around.isEmpty = q.around.isEmpty := by
    rw [Bool.eq_iff_iff, List.isEmpty_iff, List.isEmpty_iff]
    exact eq_nil_iff_of_forall₂ h.around
  unfold Progress.complaints
  rw [hempty, h.scope.brackets]
  exact List.rel_map (fun _ _ hcode => .intro hcode htu) (mismatches_twin (hR t u htu) _ _)

theorem bracketsAfter_twin (htu : R t u) (opened : List Bracket) :
    t.bracketsAfter opened = u.bracketsAfter opened := by
  rw [Token.bracketsAfter, Token.bracketsAfter, (hR t u htu).opens?, (hR t u htu).closes?]

theorem Twin.take (h : p.Twin R q) (htu : R t u) : (p.take t).Twin R (q.take u) := by
  have halike := hR t u htu
  have hreported := List.rel_append (h.complaints hR htu) h.diagnostics
  have hdiagnostics : List.Forall₂ (Diagnostic.Twin R) (p.noting (p.complaints t)).diagnostics
      (q.noting (q.complaints u)).diagnostics := by
    rw [diagnostics_noting (filed_complaints p t), diagnostics_noting (filed_complaints q u)]
    exact hreported
  -- what decides whether a token ends a block is the same on both sides
  have hsame : (p.around ≠ [] → t.closes? = some .curly → .curly ∈ p.scope.brackets) ↔
      (q.around ≠ [] → u.closes? = some .curly → .curly ∈ q.scope.brackets) := by
    rw [ne_eq, ne_eq, eq_nil_iff_of_forall₂ h.around, halike.closes?, h.scope.brackets]
  obtain ⟨⟨hp, -⟩, ⟨hq, -⟩⟩ | ⟨⟨hp, -⟩, ⟨hq, -⟩⟩ := take_spelled_out_both hsame
  · rw [hp, hq]
    refine Twin.append hR ⟨⟨h.scope.nodes, h.scope.run, ?_⟩, h.around, h.last, hdiagnostics⟩
      htu
    rw [bracketsAfter_twin hR htu, h.scope.brackets]
  · have hclose :=
      Twin.closeBlock (p := p.noting (p.complaints t)) (q := q.noting (q.complaints u))
        ⟨h.scope, h.around, h.last, hdiagnostics⟩ (.some htu) t.span.stop u.span.stop
    rw [hp, hq]
    exact ⟨hclose.scope, hclose.around, .some htu, hclose.diagnostics⟩

theorem Twin.run (h : p.Twin R q) {ts us : List Token} (hts : List.Forall₂ R ts us) :
    (p.run ts).Twin R (q.run us) := by
  fun_induction Progress.run p ts generalizing q us with
  | case1 p =>
      rw [List.forall₂_nil_left_iff.1 hts, Progress.run]
      exact h
  | case2 p t rest hstart header rest' hread ih =>
      obtain ⟨u, us, htu, hrest, rfl⟩ := List.forall₂_cons_left_iff.1 hts
      have hread' := Header.read_twin hR htu hrest
      rw [hread] at hread'
      generalize hu : Header.read u us = reading at hread'
      cases hread' with
      | found hheader hrest' =>
          rw [run_of_found ((hR t u htu).1 ▸ hstart.1) (h.afterDot hR ▸ hstart.2) hu]
          exact ih (h.openBlock htu hheader) hrest'
  | case3 p t rest hstart d hread ih =>
      obtain ⟨u, us, htu, hrest, rfl⟩ := List.forall₂_cons_left_iff.1 hts
      have hread' := Header.read_twin hR htu hrest
      rw [hread] at hread'
      generalize hu : Header.read u us = reading at hread'
      cases hread' with
      | faulty hd =>
          rw [run_of_faulty ((hR t u htu).1 ▸ hstart.1) (h.afterDot hR ▸ hstart.2) hu]
          exact ih ((h.report hd).take hR htu) hrest
  | case4 p t rest hstart hread ih =>
      obtain ⟨u, us, htu, hrest, rfl⟩ := List.forall₂_cons_left_iff.1 hts
      have hread' := Header.read_twin hR htu hrest
      rw [hread] at hread'
      generalize hu : Header.read u us = reading at hread'
      cases hread' with
      | absent =>
          rw [run_of_absent ((hR t u htu).1 ▸ hstart.1) (h.afterDot hR ▸ hstart.2) hu]
          exact ih (h.take hR htu) hrest
  | case5 p t rest hstart ih =>
      obtain ⟨u, us, htu, hrest, rfl⟩ := List.forall₂_cons_left_iff.1 hts
      rw [(hR t u htu).1, h.afterDot hR] at hstart
      rw [run_of_plain hstart]
      exact ih (h.take hR htu) hrest

omit hR in
theorem Twin.finish (h : p.Twin R q) (stop stop' : Location) :
    (p.finish stop).Twin R (q.finish stop') := by
  refine List.rel_foldl (P := Progress.Twin R) ?_ h h.around
  intro p q hpq b b' hb
  have hreport : b.report.Twin R b'.report := .intro rfl hb.letToken
  exact (hpq.report hreport).closeBlock .none stop stop'

end Progress

/-- The trees of two lists of tokens that are paired and look alike have the same form, with
paired tokens in the same places, and what is reported has the same codes, in the same order
and at paired tokens. -/
theorem parse_twin (hR : ∀ t u, R t u → t.Alike u) {ts us : List Token}
    (h : List.Forall₂ R ts us) :
    List.Forall₂ (Twin R) (parse ts).nodes (parse us).nodes ∧
      List.Forall₂ (Diagnostic.Twin R) (parse ts).diagnostics (parse us).diagnostics := by
  have hvisible : List.Forall₂ R (ts.takeWhile (!·.isEof)) (us.takeWhile (!·.isEof)) :=
    forall₂_takeWhile (fun t u htu => by rw [(hR t u htu).isEof]) h
  have hrun := Progress.twin_start.run hR hvisible
  have hfinish :=
    hrun.finish (ts.getLast?.elim {} (·.span.stop)) (us.getLast?.elim {} (·.span.stop))
  rw [parse_eq, parse_eq]
  exact ⟨hfinish.scope.toNodes, List.rel_reverse hfinish.diagnostics⟩

end LetBlocks.Node
