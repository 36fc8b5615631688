import LetBlocks.Proofs.Node.Reports
import LetBlocks.Proofs.Node.Spans

/-!
Tokens without a `let` can be put before a script, and all that comes of it is that they stand
before the tree. They may leave brackets open or close brackets that were never opened: at the
outermost level nothing is reported of brackets, and within a block only the brackets of its
own body count.

The parser is followed on the script with and without the tokens. The two runs differ in the
outermost scope alone, by the tokens and by the brackets that are open in it. That scope is at
the bottom: it is the current scope as long as no block is open, and else it waits in the
outermost block. Only a final `.` would matter, since a `let` behind it is a name.
-/

namespace LetBlocks.Node

def precede (before : List Token) : List Node → List Node
  | plain tokens :: nodes => plain (before ++ tokens) :: nodes
  | nodes => if before = [] then nodes else plain before :: nodes

variable {before : List Token}

theorem precede_append {nodes : List Node} (h : nodes ≠ []) (more : List Node) :
    precede before (nodes ++ more) = precede before nodes ++ more := by
  obtain ⟨node, nodes, rfl⟩ := List.exists_cons_of_ne_nil h
  cases node with
  | plain tokens => rfl
  | letBlock header body closing span =>
      simp only [List.cons_append, precede]
      split <;> rfl

/-- A block takes up nothing of what is put before it. -/
theorem precede_concat_letBlock (nodes : List Node) (header : Header) (body : List Node)
    (closing : Option Token) (span : Span) :
    precede before (nodes ++ [letBlock header body closing span]) =
      precede before nodes ++ [letBlock header body closing span] := by
  by_cases h : nodes = []
  · subst h
    simp only [List.nil_append, precede]
    split <;> rfl
  · exact precede_append h _

/-! ### Scopes -/

/-- The second scope is the first with tokens before all else. As long as the first has no
nodes they belong to its plain run. The open brackets are of no concern. -/
inductive Scope.Behind (before : List Token) : Scope → Scope → Prop
  | first (run : List Token) (brackets brackets' : List Bracket) :
      Behind before ⟨[], run, brackets⟩ ⟨[], run ++ before.reverse, brackets'⟩
  | later {nodes : List Node} (h : nodes ≠ []) (run : List Token)
      (brackets brackets' : List Bracket) :
      Behind before ⟨nodes, run, brackets⟩
        ⟨(precede before nodes.reverse).reverse, run, brackets'⟩

theorem Scope.Behind.toNodes {s s' : Scope} (h : s.Behind before s') :
    s'.toNodes = precede before s.toNodes := by
  cases h with
  | first run brackets brackets' =>
      by_cases hrun : run = []
      · by_cases hbefore : before = [] <;>
          simp [Scope.toNodes, Scope.flushed, precede, hrun, hbefore]
      · simp [Scope.toNodes, Scope.flushed, precede, hrun]
  | later hne run brackets brackets' =>
      unfold Scope.toNodes Scope.flushed
      split
      · rw [List.reverse_reverse]
      · rw [List.reverse_cons, List.reverse_reverse, List.reverse_cons,
          precede_append (by simpa using hne)]

def OpenBlock.behind (before : List Token) (brackets : List Bracket) (b : OpenBlock) :
    OpenBlock :=
  { b with
    outer :=
      { b.outer with nodes := (precede before b.outer.nodes.reverse).reverse, brackets } }

/-! ### Steps -/

namespace Progress

/-- The second has read the same script as the first, but with tokens before it. -/
inductive Behind (before : List Token) : Progress → Progress → Prop
  | outside {s s' : Scope} {last last' : Option Token} {journal : Journal}
      (h : s.Behind before s') :
      Behind before ⟨s, [], last, journal⟩ ⟨s', [], last', journal⟩
  | inside (s : Scope) (inner : List OpenBlock) (b : OpenBlock) (brackets : List Bracket)
      (last last' : Option Token) (journal : Journal) :
      Behind before ⟨s, inner ++ [b], last, journal⟩
        ⟨s, inner ++ [b.behind before brackets], last', journal⟩

variable {p q : Progress}

theorem Behind.report (h : p.Behind before q) (ds : List Diagnostic) :
    Behind before (p.noting ds) (q.noting ds) := by
  cases h with
  | outside h => exact .outside h
  | inside s inner b brackets last last' journal =>
      exact .inside s inner b brackets last last' _

theorem Behind.openBlock (h : p.Behind before q) (t : Token) (header : Header) :
    (p.openBlock t header).Behind before (q.openBlock t header) := by
  cases h with
  | @outside s s' last last' journal h =>
      have hflushed : s'.flushed = (precede before s.flushed.reverse).reverse := by
        have htoNodes := h.toNodes
        rw [Scope.toNodes, List.reverse_eq_iff] at htoNodes
        exact htoNodes
      have hb : OpenBlock.behind before s'.brackets
          ⟨t, header, { s with nodes := s.flushed, run := [] }⟩ =
          ⟨t, header, { s' with nodes := s'.flushed, run := [] }⟩ := by
        rw [OpenBlock.behind, ← hflushed]
      unfold Progress.openBlock
      rw [← hb]
      exact .inside {} [] _ _ _ _ journal
  | inside s inner b brackets last last' journal =>
      exact .inside {} (⟨t, header, { s with nodes := s.flushed, run := [] }⟩ :: inner) b
        brackets _ _ journal

theorem Behind.closeBlock (h : p.Behind before q) (closing : Option Token) (stop : Location) :
    (p.closeBlock closing stop).Behind before (q.closeBlock closing stop) := by
  cases h with
  | outside h => exact .outside h
  | inside s inner b brackets last last' journal =>
      cases inner with
      | nil =>
          let node := letBlock b.header s.toNodes closing ⟨b.letToken.span.start, stop⟩
          have hnodes : node :: (precede before b.outer.nodes.reverse).reverse =
              (precede before (node :: b.outer.nodes).reverse).reverse := by
            rw [List.reverse_cons, precede_concat_letBlock, List.reverse_concat]
          simp only [Progress.closeBlock, List.nil_append, OpenBlock.behind]
          rw [hnodes]
          exact .outside (.later (List.cons_ne_nil _ _) _ _ _)
      | cons c inner => exact .inside _ inner b brackets _ _ journal

theorem Behind.append (h : p.Behind before q) (t : Token) :
    (p.append t).Behind before (q.append t) := by
  cases h with
  | outside h =>
      cases h with
      | first run brackets brackets' => exact .outside (.first (t :: run) brackets brackets')
      | later hne run brackets brackets' =>
          exact .outside (.later hne (t :: run) brackets brackets')
  | inside s inner b brackets last last' journal =>
      exact .inside _ inner b brackets _ _ journal

theorem Behind.last (h : p.Behind before q) (last last' : Option Token) :
    Behind before { p with last := last } { q with last := last' } := by
  cases h with
  | outside h => exact .outside h
  | inside s inner b brackets _ _ journal =>
      exact .inside s inner b brackets last last' journal

theorem Behind.brackets (h : p.Behind before q) (f : List Bracket → List Bracket) :
    Behind before { p with scope := { p.scope with brackets := f p.scope.brackets } }
      { q with scope := { q.scope with brackets := f q.scope.brackets } } := by
  cases h with
  | outside h =>
      cases h with
      | first run brackets brackets' => exact .outside (.first run (f brackets) (f brackets'))
      | later hne run brackets brackets' =>
          exact .outside (.later hne run (f brackets) (f brackets'))
  | inside s inner b brackets last last' journal =>
      exact .inside _ inner b brackets _ _ journal

/-- A token of the script meets the same brackets in both runs, or it stands outside of all
blocks. -/
theorem Behind.complaints (h : p.Behind before q) (t : Token) :
    q.complaints t = p.complaints t := by
  cases h with
  | outside h => rfl
  | inside s inner b brackets last last' journal =>
      have hne (c : OpenBlock) : (inner ++ [c]).isEmpty = false := by simp
      rw [Progress.complaints, Progress.complaints, hne, hne]

theorem Behind.take (h : p.Behind before q) (t : Token) :
    (p.take t).Behind before (q.take t) := by
  have hsame : (p.around ≠ [] → t.closes? = some .curly → .curly ∈ p.scope.brackets) ↔
      (q.around ≠ [] → t.closes? = some .curly → .curly ∈ q.scope.brackets) := by
    cases h with
    | outside h => simp
    | inside s inner b brackets last last' journal => simp
  have hreport := h.report (p.complaints t)
  obtain ⟨⟨hp, -⟩, ⟨hq, -⟩⟩ | ⟨⟨hp, -⟩, ⟨hq, -⟩⟩ := take_spelled_out_both hsame
  · rw [hp, hq, h.complaints]
    exact (hreport.brackets t.bracketsAfter).append t
  · rw [hp, hq, h.complaints]
    exact (hreport.closeBlock (some t) t.span.stop).last (some t) (some t)

/-! ### Runs -/

theorem afterDot_take_both (h : q.afterDot = p.afterDot) (t : Token) :
    (q.take t).afterDot = (p.take t).afterDot := by
  rw [afterDot_take, afterDot_take, h]

theorem Behind.run (h : p.Behind before q) (hdot : q.afterDot = p.afterDot) (ts : List Token) :
    (p.run ts).Behind before (q.run ts) := by
  fun_induction Progress.run p ts generalizing q with
  | case1 p =>
      rw [Progress.run]
      exact h
  | case2 p t rest hstart header rest' hread ih =>
      rw [run_of_found hstart.1 (hdot ▸ hstart.2) hread]
      exact ih (h.openBlock t header) rfl
  | case3 p t rest hstart d hread ih =>
      rw [run_of_faulty hstart.1 (hdot ▸ hstart.2) hread]
      exact ih ((h.report [d]).take t) (afterDot_take_both (by exact hdot) t)
  | case4 p t rest hstart hread ih =>
      rw [run_of_absent hstart.1 (hdot ▸ hstart.2) hread]
      exact ih (h.take t) (afterDot_take_both hdot t)
  | case5 p t rest hstart ih =>
      rw [← hdot] at hstart
      rw [run_of_plain hstart]
      exact ih (h.take t) (afterDot_take_both hdot t)

theorem Behind.finish (h : p.Behind before q) (stop : Location) :
    (p.finish stop).Behind before (q.finish stop) := by
  have hlets : List.Forall₂ (fun b b' : OpenBlock => b'.letToken = b.letToken) p.around
      q.around := by
    cases h with
    | outside h => exact .nil
    | inside s inner b brackets last last' journal =>
        have hinner : List.Forall₂ (fun b b' : OpenBlock => b'.letToken = b.letToken) inner
            inner :=
          List.forall₂_same.2 fun _ _ => rfl
        exact List.rel_append hinner (.cons rfl .nil)
  refine List.rel_foldl ?_ h hlets
  intro p q hpq b b' hb
  rw [abandon, abandon, hb]
  exact (hpq.report [_]).closeBlock none stop

/-- The parser takes tokens without a `let` one by one. -/
theorem run_append_of_kinds (hlet : ∀ t ∈ before, t.kind ≠ .kwLet) (p : Progress)
    (ts : List Token) : p.run (before ++ ts) = (before.foldl take p).run ts := by
  induction before generalizing p with
  | nil => rfl
  | cons t before ih =>
      obtain ⟨ht, hbefore⟩ := List.forall_mem_cons.1 hlet
      rw [List.cons_append, run_of_plain (fun h => ht h.1), List.foldl_cons]
      exact ih hbefore (p.take t)

/-- Outside of all blocks tokens join the plain run, and nothing is reported. -/
theorem foldl_take_start (before : List Token) :
    ∃ brackets last, before.foldl take {} =
      ⟨⟨[], before.reverse, brackets⟩, [], last, {}⟩ := by
  induction before using List.reverseRecOn with
  | nil => exact ⟨[], none, rfl⟩
  | append_singleton before t ih =>
      obtain ⟨brackets, last, hbefore⟩ := ih
      rw [List.foldl_concat, hbefore]
      obtain ⟨htake, -⟩ | ⟨-, haround, -⟩ :=
        take_spelled_out ⟨⟨[], before.reverse, brackets⟩, [], last, {}⟩ t
      · rw [htake, List.reverse_concat]
        exact ⟨_, _, rfl⟩
      · exact absurd rfl haround

theorem afterDot_foldl_take (before : List Token) (p : Progress) :
    (before.foldl take p).afterDot = Piece.dotsAll p.afterDot (before.map Token.toPiece) := by
  induction before generalizing p with
  | nil => rfl
  | cons t before ih => rw [List.foldl_cons, ih, afterDot_take]; rfl

/-- When no block is open any more, the one tree is the other behind the tokens. -/
theorem Behind.toNodes (h : p.Behind before q) (haround : p.around = []) :
    q.scope.toNodes = precede before p.scope.toNodes ∧ q.diagnostics = p.diagnostics := by
  cases h with
  | outside h => exact ⟨h.toNodes, rfl⟩
  | inside s inner b brackets last last' journal => exact absurd haround (by simp)

end Progress

/-- Tokens without a `let`, the last of which is no dot, change nothing but the beginning of
the tree. -/
theorem parse_append_of_plain (before ts : List Token)
    (hkinds : ∀ t ∈ before, t.kind ≠ .kwLet ∧ t.kind ≠ .eof)
    (hdot : ∀ t ∈ Token.nearest? before, t.isPunct (utf8 ".") = false ∧
      t.isPunct (utf8 "?.") = false) :
    (parse (before ++ ts)).diagnostics = (parse ts).diagnostics ∧
      (parse (before ++ ts)).nodes = precede before (parse ts).nodes := by
  let visible := ts.takeWhile (!·.isEof)
  have hvisible : (before ++ ts).takeWhile (!·.isEof) = before ++ visible :=
    List.takeWhile_append_of_pos fun t ht => by simpa [Token.isEof] using (hkinds t ht).2
  have hrun : Progress.run {} (before ++ visible) =
      (before.foldl Progress.take {}).run visible :=
    Progress.run_append_of_kinds (fun t ht => (hkinds t ht).1) {} visible
  -- an empty script leaves no block open, so it does not matter where such blocks would end
  have hstop : (Progress.run {} visible).finish (scriptStop (before ++ ts)) =
      (Progress.run {} visible).finish (scriptStop ts) := by
    cases ts with
    | nil => simp [visible, Progress.run, Progress.finish]
    | cons t ts => rw [scriptStop_append before (List.cons_ne_nil t ts)]
  have hafter : (before.foldl Progress.take {}).afterDot = false := by
    rw [Progress.afterDot_foldl_take, Progress.afterDot, Option.any_none, dotsAll_eq_nearest?,
      Option.any_eq_false]
    intro t ht
    simp [hdot t ht]
  have hstart : Progress.Behind before {} (before.foldl Progress.take {}) := by
    obtain ⟨brackets, last, hbefore⟩ := Progress.foldl_take_start before
    rw [hbefore]
    exact .outside (.first [] [] brackets)
  have hfinish := (hstart.run hafter visible).finish (scriptStop (before ++ ts))
  rw [← hrun, hstop] at hfinish
  obtain ⟨hnodes, hdiagnostics⟩ := hfinish.toNodes (Progress.around_finish _ _)
  rw [← hvisible] at hnodes hdiagnostics
  rw [parse_eq, parse_eq]
  exact ⟨congrArg List.reverse hdiagnostics, hnodes⟩

/-- The tokens close two brackets that are not open and open two that are not closed; the
script closes one of these two in a block and does not end its last block. -/
theorem parse_append_of_plain_unbalanced :
    let before := (Token.lex (Source.ofText (utf8 ") \x7d a?.b([ "))).tokens.dropLast
    let ts := (Token.lex (Source.ofText (utf8 "let (x) \x7b ] \x7d; let (y) \x7b"))).tokens
    (∀ t ∈ before, t.kind ≠ .kwLet ∧ t.kind ≠ .eof) ∧
      (∀ t ∈ Token.nearest? before, t.isPunct (utf8 ".") = false ∧
        t.isPunct (utf8 "?.") = false) ∧
      (parse ts).diagnostics.map (·.code) = [utf8 "P006", utf8 "P005"] ∧
      (parse (before ++ ts)).diagnostics = (parse ts).diagnostics ∧
      (parse (before ++ ts)).nodes = precede before (parse ts).nodes := by
  intro before ts
  have hkinds : ∀ t ∈ before, t.kind ≠ .kwLet ∧ t.kind ≠ .eof := by decide +kernel
  have hdot : ∀ t ∈ Token.nearest? before, t.isPunct (utf8 ".") = false ∧
      t.isPunct (utf8 "?.") = false := by
    decide +kernel
  exact ⟨hkinds, hdot, by decide +kernel, parse_append_of_plain before ts hkinds hdot⟩

end LetBlocks.Node
