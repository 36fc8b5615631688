import LetBlocks.Node.Parse
import LetBlocks.Proofs.Report.Recording
import LetBlocks.Proofs.Token.Basic

/-!
At a `let` the loop that builds the tree reads a header. If there is one, it goes on inside the
body; if there is only an attempt at one, it reports it and takes the `let` as any other word.
Any other token joins the plain run of its scope or closes a let-block, and `take_inversion`
says when it does which. At the end of the script the open blocks are closed one by one;
`finish_induction` is the induction over them.
-/

namespace LetBlocks

namespace Token

/-- The brackets that are open behind a token of a scope, if `opened` are open before it. A
closing bracket closes the nearest one of its kind, with all that are open inside that one. -/
def bracketsAfter (opened : List Bracket) (t : Token) : List Bracket :=
  match t.opens?, t.closes? with
  | some bracket, _ => bracket :: opened
  | none, some bracket =>
    if bracket ∈ opened then (opened.dropWhile (· ≠ bracket)).tail else opened
  | none, none => opened

variable {t : Token} {opened : List Bracket} {bracket : Bracket}

theorem bracketsAfter_of_opens? (h : t.opens? = some bracket) :
    t.bracketsAfter opened = bracket :: opened := by
  rw [bracketsAfter, h]

theorem bracketsAfter_of_closes? (h : t.closes? = some bracket) :
    t.bracketsAfter opened =
      if bracket ∈ opened then (opened.dropWhile (· ≠ bracket)).tail else opened := by
  rw [bracketsAfter, opens?_eq_none_of_closes? h, h]

theorem bracketsAfter_cons (h : t.closes? = some bracket) (opened : List Bracket) :
    t.bracketsAfter (bracket :: opened) = opened := by
  rw [bracketsAfter_of_closes? h]
  simp

theorem bracketsAfter_of_plain (hopens : t.opens? = none) (hcloses : t.closes? = none) :
    t.bracketsAfter opened = opened := by
  rw [bracketsAfter, hopens, hcloses]

/-- What is wrong with a token in a scope where `opened` are open. Nothing is wrong with a
closing bracket outside of all blocks. -/
def mismatches (inBlock : Bool) (opened : List Bracket) (t : Token) : List Problem :=
  match inBlock, t.closes?, opened with
  | true, some bracket, inner :: _ =>
    if bracket ∈ opened then if inner = bracket then [] else [.crossed t inner]
    else if bracket = .curly then [.closedEarly inner] else [.unopened t]
  | true, some bracket, [] => if bracket = .curly then [] else [.unopened t]
  | _, _, _ => []

theorem mismatches_of_closes?_eq_none (inBlock : Bool) (opened : List Bracket)
    (h : t.closes? = none) : t.mismatches inBlock opened = [] := by
  simp [mismatches, h]

theorem code_of_mem_mismatches (inBlock : Bool) (opened : List Bracket) (t : Token) :
    ∀ problem ∈ t.mismatches inBlock opened, problem.code = "P006" := by
  unfold mismatches
  split
  · split_ifs <;> simp [Problem.code]
  · split_ifs <;> simp [Problem.code]
  · simp

end Token

namespace Node

def OpenBlock.report (b : OpenBlock) : Diagnostic :=
  (Problem.openBlock b.letToken.span.start.line).diagnostic b.letToken.span

namespace Progress

variable {p : Progress} {t : Token} {rest rest' : List Token} {header : Header}
    {d : Diagnostic}

def diagnostics (p : Progress) : List Diagnostic := p.journal.toList.reverse

/-- The same progress with `ds` recorded, the first of them last. -/
def noting (p : Progress) (ds : List Diagnostic) : Progress :=
  { p with journal := p.journal.recordAll ds.reverse }

@[simp] theorem noting_nil (p : Progress) : p.noting [] = p := rfl

def Filed (ds : List Diagnostic) : Prop := ds.map Diagnostic.filed = ds

theorem diagnostics_noting {ds : List Diagnostic} (h : Filed ds) (p : Progress) :
    (p.noting ds).diagnostics = ds ++ p.diagnostics := by
  rw [diagnostics, noting, Journal.toList_recordAll, List.reverse_append, List.map_reverse, h,
    List.reverse_reverse]
  rfl

theorem filed_singleton {d : Diagnostic} (h : d.filed = d) : Filed [d] := by
  rw [Filed, List.map_singleton, h]

theorem run_of_found (hlet : t.kind = .kwLet) (hdot : p.afterDot = false)
    (h : Header.read t rest = .found header rest') :
    p.run (t :: rest) = (p.openBlock t header).run rest' := by
  rw [run, if_pos ⟨hlet, hdot⟩]
  split <;> simp_all

theorem run_of_faulty (hlet : t.kind = .kwLet) (hdot : p.afterDot = false)
    (h : Header.read t rest = .faulty d) :
    p.run (t :: rest) = ((p.noting [d]).take t).run rest := by
  rw [run, if_pos ⟨hlet, hdot⟩]
  split <;> simp_all [noting, Journal.recordAll]

theorem run_of_absent (hlet : t.kind = .kwLet) (hdot : p.afterDot = false)
    (h : Header.read t rest = .absent) : p.run (t :: rest) = (p.take t).run rest := by
  rw [run, if_pos ⟨hlet, hdot⟩]
  split <;> simp_all

theorem run_of_plain (h : ¬ (t.kind = .kwLet ∧ p.afterDot = false)) :
    p.run (t :: rest) = (p.take t).run rest := by
  rw [run, if_neg h]

theorem take_of_kind_ne_punct (h : t.kind ≠ .punct) : p.take t = p.append t := by
  rw [take, Token.opens?_eq_none_of_kind h, Token.closes?_eq_none_of_kind h]

theorem diagnostics_closeBlock (p : Progress) (closing : Option Token) (stop : Location) :
    (p.closeBlock closing stop).diagnostics = p.diagnostics := by
  unfold closeBlock
  split <;> rfl

@[simp] theorem diagnostics_openBlock (p : Progress) (t : Token) (header : Header) :
    (p.openBlock t header).diagnostics = p.diagnostics := rfl

def Mismatches (ds : List Diagnostic) : Prop := ∀ d ∈ ds, d.code = utf8 "P006"

def complaints (p : Progress) (t : Token) : List Diagnostic :=
  (t.mismatches (!p.around.isEmpty) p.scope.brackets).map (·.diagnostic t.span)

theorem mismatches_complaints (p : Progress) (t : Token) : Mismatches (p.complaints t) := by
  intro d hd
  obtain ⟨problem, hproblem, rfl⟩ := List.mem_map.1 hd
  rw [Problem.diagnostic, Token.code_of_mem_mismatches _ _ t problem hproblem]

theorem filed_complaints (p : Progress) (t : Token) : Filed (p.complaints t) := by
  simp [Filed, complaints, Function.comp_def]

/-- The token joins the plain run, with `ds` reported. A closing brace in a block then matches
an open one. -/
def Joins (p : Progress) (t : Token) (ds : List Diagnostic) (next : Progress) : Prop :=
  next = Progress.append { p with
      scope := { p.scope with brackets := t.bracketsAfter p.scope.brackets }
      journal := (p.noting ds).journal } t ∧
    (p.around ≠ [] → t.closes? = some .curly → .curly ∈ p.scope.brackets)

/-- The token is a closing brace that matches none, and it closes the innermost block, with
`ds` reported. -/
def Ends (p : Progress) (t : Token) (ds : List Diagnostic) (next : Progress) : Prop :=
  next =
      { Progress.closeBlock (p.noting ds) (some t) t.span.stop with last := some t } ∧
    p.around ≠ [] ∧ t.closes? = some .curly ∧ .curly ∉ p.scope.brackets

theorem takeCloser_of_mem {bracket : Bracket} (hcloses : t.closes? = some bracket)
    (hmem : bracket ∈ p.scope.brackets) :
    Joins p t (p.complaints t) (p.takeCloser t bracket) := by
  obtain ⟨⟨nodes, run, brackets⟩, around, last, journal⟩ := p
  obtain ⟨inner, inners, rfl⟩ := List.exists_cons_of_ne_nil (List.ne_nil_of_mem hmem)
  obtain ⟨matching, outer, hdrop⟩ :
      ∃ matching outer, (inner :: inners).dropWhile (· ≠ bracket) = matching :: outer := by
    apply List.exists_cons_of_ne_nil
    rw [ne_eq, List.dropWhile_eq_nil_iff]
    intro hall
    simpa using hall bracket hmem
  have hafter : t.bracketsAfter (inner :: inners) = outer := by
    rw [Token.bracketsAfter_of_closes? hcloses, if_pos hmem, hdrop, List.tail_cons]
  refine ⟨?_, fun _ hcurly => ?_⟩
  · unfold takeCloser complaints
    rw [hdrop, hafter]
    cases around with
    | nil => simp [Token.mismatches, noting]
    | cons b around =>
        by_cases hinner : inner = bracket
        · simp [Token.mismatches, hcloses, hinner, noting]
        · simp [Token.mismatches, hcloses, hmem, hinner, warn, noting, Journal.recordAll,
            Journal.warn_eq_record]
  · rw [hcloses, Option.some.injEq] at hcurly
    exact hcurly ▸ hmem

theorem takeCloser_of_not_mem {bracket : Bracket} (hcloses : t.closes? = some bracket)
    (hmem : bracket ∉ p.scope.brackets) :
    Joins p t (p.complaints t) (p.takeCloser t bracket) ∨
      Ends p t (p.complaints t) (p.takeCloser t bracket) := by
  obtain ⟨⟨nodes, run, brackets⟩, around, last, journal⟩ := p
  have hdrop : brackets.dropWhile (· ≠ bracket) = [] := by
    rw [List.dropWhile_eq_nil_iff]
    intro inner hinner
    simpa using ne_of_mem_of_not_mem hinner hmem
  have hafter : t.bracketsAfter brackets = brackets := by
    rw [Token.bracketsAfter_of_closes? hcloses, if_neg hmem]
  unfold takeCloser complaints Joins Ends
  rw [hdrop, hafter]
  cases around with
  | nil => exact .inl ⟨by simp [Token.mismatches, noting], by simp⟩
  | cons b around =>
      by_cases hcurly : bracket = .curly
      · subst hcurly
        refine .inr ⟨?_, by simp, hcloses, hmem⟩
        cases brackets with
        | nil => simp [Token.mismatches, hcloses, noting]
        | cons inner inners =>
            simp only [List.mem_cons] at hmem
            simp [Token.mismatches, hcloses, hmem, warn, noting, Journal.recordAll,
              Journal.warn_eq_record]
      · refine .inl ⟨?_, fun _ h => ?_⟩
        · cases brackets with
          | nil =>
              simp [Token.mismatches, hcloses, hcurly, warn, noting, Journal.recordAll,
                Journal.warn_eq_record]
          | cons inner inners =>
              simp only [List.mem_cons] at hmem
              simp [Token.mismatches, hcloses, hmem, hcurly, warn, noting, Journal.recordAll,
                Journal.warn_eq_record]
        · rw [hcloses, Option.some.injEq] at h
          exact absurd h hcurly

/-- What happens to a token that opens no block: it joins the plain run of its scope, or it
ends the block. -/
theorem take_spelled_out (p : Progress) (t : Token) :
    Joins p t (p.complaints t) (p.take t) ∨ Ends p t (p.complaints t) (p.take t) := by
  unfold take
  split
  · next bracket hopens =>
    have hcloses := Token.closes?_eq_none_of_opens? hopens
    left
    rw [complaints, Token.mismatches_of_closes?_eq_none _ _ hcloses, Joins,
      Token.bracketsAfter_of_opens? hopens]
    exact ⟨rfl, by simp [hcloses]⟩
  · next bracket hopens hcloses =>
    by_cases hmem : bracket ∈ p.scope.brackets
    · exact .inl (takeCloser_of_mem hcloses hmem)
    · exact takeCloser_of_not_mem hcloses hmem
  · next hopens hcloses =>
    left
    rw [complaints, Token.mismatches_of_closes?_eq_none _ _ hcloses, Joins,
      Token.bracketsAfter_of_plain hopens hcloses]
    exact ⟨rfl, by simp [hcloses]⟩

/-- Two tokens that end a block under the same condition both join their runs or both end a
block. -/
theorem take_spelled_out_both {q : Progress} {u : Token}
    (h : (p.around ≠ [] → t.closes? = some .curly → .curly ∈ p.scope.brackets) ↔
      (q.around ≠ [] → u.closes? = some .curly → .curly ∈ q.scope.brackets)) :
    (Joins p t (p.complaints t) (p.take t) ∧ Joins q u (q.complaints u) (q.take u)) ∨
      (Ends p t (p.complaints t) (p.take t) ∧ Ends q u (q.complaints u) (q.take u)) := by
  rcases take_spelled_out p t with hp | hp
  · rcases take_spelled_out q u with hq | ⟨-, haround, hcloses, hcurly⟩
    · exact .inl ⟨hp, hq⟩
    · exact absurd (h.1 hp.2 haround hcloses) hcurly
  · rcases take_spelled_out q u with ⟨-, hjoins⟩ | hq
    · exact absurd (h.2 hjoins hp.2.1 hp.2.2.1) hp.2.2.2
    · exact .inr ⟨hp, hq⟩

/-- What can happen to a token that opens no block. -/
theorem take_inversion (p : Progress) (t : Token) :
    ∃ ds, Mismatches ds ∧ (Joins p t ds (p.take t) ∨ Ends p t ds (p.take t)) :=
  ⟨p.complaints t, mismatches_complaints p t, take_spelled_out p t⟩

theorem diagnostics_take (p : Progress) (t : Token) :
    (p.take t).diagnostics = p.complaints t ++ p.diagnostics := by
  have hnoting := diagnostics_noting (filed_complaints p t) p
  rcases take_spelled_out p t with ⟨h, -⟩ | ⟨h, -⟩
  · rw [h]
    exact hnoting
  · rw [h]
    exact (diagnostics_closeBlock ..).trans hnoting

theorem around_take_subset (p : Progress) (t : Token) : (p.take t).around ⊆ p.around := by
  obtain ⟨ds, -, ⟨h, -⟩ | ⟨h, haround, -⟩⟩ := take_inversion p t
  · rw [h]
    exact List.Subset.refl _
  · obtain ⟨b, around, hp⟩ := List.exists_cons_of_ne_nil haround
    rw [h, closeBlock, noting, hp]
    exact List.subset_cons_self b around

/-- What holds at the end of the script and is kept by closing the innermost block holds of the
tree. -/
theorem finish_induction {motive : Progress → Prop} {stop : Location}
    (hstep : ∀ (p : Progress) (b : OpenBlock) (around : List OpenBlock),
      p.around = b :: around → motive p → motive (abandon stop p b))
    (p : Progress) (hp : motive p) : motive (p.finish stop) ∧ (p.finish stop).around = [] := by
  -- the fold runs over the list of open blocks and pops the same list at each step
  have hfold : ∀ (around : List OpenBlock) (p : Progress), p.around = around → motive p →
      motive (around.foldl (abandon stop) p) ∧
        (around.foldl (abandon stop) p).around = [] := by
    intro around
    induction around with
    | nil => exact fun p hp hmotive => ⟨hmotive, hp⟩
    | cons b around ih =>
        intro p hp hmotive
        exact ih _ (by simp [abandon, warn, closeBlock, hp]) (hstep p b around hp hmotive)
  exact hfold p.around p rfl hp

theorem around_finish (p : Progress) (stop : Location) : (p.finish stop).around = [] :=
  (finish_induction (motive := fun _ => True) (fun _ _ _ _ _ => trivial) p trivial).2

/-- The blocks that the script ended in are reported last, the innermost first. -/
theorem diagnostics_finish (p : Progress) (stop : Location) :
    (p.finish stop).diagnostics =
      (p.around.map OpenBlock.report).reverse ++ p.diagnostics := by
  have hstep : ∀ (q : Progress) (b : OpenBlock) (around : List OpenBlock),
      q.around = b :: around →
      (q.around.map OpenBlock.report).reverse ++ q.diagnostics =
        ((abandon stop q b).around.map OpenBlock.report).reverse ++
          (abandon stop q b).diagnostics := by
    intro q b around hq
    have hreport : (abandon stop q b).diagnostics = b.report :: q.diagnostics :=
      (diagnostics_closeBlock ..).trans
        (diagnostics_noting (filed_singleton (Problem.filed_diagnostic _ _)) q)
    have haround : (abandon stop q b).around = around := by
      simp [abandon, warn, closeBlock, hq]
    rw [hreport, haround, hq]
    simp
  obtain ⟨hall, hnil⟩ := finish_induction
    (motive := fun q => (q.around.map OpenBlock.report).reverse ++ q.diagnostics =
      (p.around.map OpenBlock.report).reverse ++ p.diagnostics)
    (fun q b around hq h => (hstep q b around hq).symm.trans h) p rfl
  rwa [hnil, List.map_nil, List.reverse_nil, List.nil_append] at hall

end Progress

/-- The tree of a list of tokens is told by the progress at its end. -/
theorem parse_eq (tokens : List Token) :
    parse tokens =
      { nodes := ((({} : Progress).run (tokens.takeWhile (!·.isEof))).finish
          (tokens.getLast?.elim {} (·.span.stop))).scope.toNodes
        diagnostics := ((({} : Progress).run (tokens.takeWhile (!·.isEof))).finish
          (tokens.getLast?.elim {} (·.span.stop))).diagnostics.reverse } := by
  simp [parse, Journal.parse, Progress.diagnostics]

theorem parse_nil : parse [] = { nodes := [], diagnostics := [] } := by
  simp [parse, Journal.parse, Progress.run, Progress.finish, Scope.toNodes, Scope.flushed]

end Node

end LetBlocks
