import LetBlocks.Proofs.Header.Grammar
import LetBlocks.Proofs.Node.Run

/-!
Whatever the parser reports stands at a token of the script that is not trivia: at the `let`
that is in trouble, or at the token that gives the trouble away. The readers of a header look
for the next token behind the trivia, and what is reported of a body is reported of a closing
bracket.
-/

namespace LetBlocks

def Diagnostic.StandsAmong (ts : List Token) (d : Diagnostic) : Prop :=
  ∃ t ∈ ts, t.isTrivia = false ∧ ∃ problem : Problem, d = problem.diagnostic t.span

theorem Diagnostic.StandsAmong.mono {ts us : List Token} {d : Diagnostic}
    (h : d.StandsAmong ts) (hsubset : ts ⊆ us) : d.StandsAmong us := by
  obtain ⟨t, ht, hreport⟩ := h
  exact ⟨t, hsubset ht, hreport⟩

theorem Problem.standsAmong {ts : List Token} {t : Token} (ht : t ∈ ts)
    (htrivia : t.isTrivia = false) (problem : Problem) :
    (problem.diagnostic t.span).StandsAmong ts :=
  ⟨t, ht, htrivia, problem, rfl⟩

theorem Token.isTrivia_of_kind_kwLet {t : Token} (h : t.kind = .kwLet) :
    t.isTrivia = false := by
  simp [isTrivia, h, Kind.isTrivia, Kind.isBlank, Kind.isComment]

theorem Token.isTrivia_of_closes? {t : Token} {bracket : Bracket}
    (h : t.closes? = some bracket) : t.isTrivia = false :=
  isTrivia_of_kind_punct (closes?_eq_some_iff.1 h).1

namespace Header

/-! ### Headers -/

/-- What stands behind the trivia. -/
theorem subset_of_gap {ts rest : List Token} {t : Token}
    (h : ts.dropWhile Token.isTrivia = t :: rest) : t :: rest ⊆ ts ∧ t.isTrivia = false := by
  obtain ⟨gap, rfl, -, ht⟩ := exists_gap h
  exact ⟨List.subset_append_right _ _, ht⟩

/-- What is left behind a declaration. -/
theorem subset_of_readDeclaration {letToken name : Token} {ts rest : List Token}
    {read : DeclarationRead} (h : readDeclaration letToken name rest = .ok read)
    (hts : ts.dropWhile Token.isTrivia = name :: rest) (hname : name.kind = .identifier)
    (heof : ∀ t ∈ ts, t.isEof = false) : read.separator :: read.rest ⊆ ts := by
  obtain ⟨hsubset, -⟩ := subset_of_gap hts
  obtain ⟨hsplit, -⟩ :=
    readDeclaration_sound h hname fun u hu => heof u (hsubset (List.mem_cons_of_mem _ hu))
  rw [hsplit] at hsubset
  exact List.Subset.trans (List.subset_append_right _ _) hsubset

theorem closeParen_of_readDeclarations {letToken : Token} {declared : List Declaration}
    {seen ts : List Token} {list : ListRead}
    (h : readDeclarations letToken declared seen ts = .ok list)
    (heof : ∀ t ∈ ts, t.isEof = false) :
    list.closeParen ∈ ts ∧ list.closeParen.isTrivia = false := by
  fun_induction readDeclarations letToken declared seen ts with
  | case1 | case2 | case4 | case7 => cases h
  | case3 declared seen ts gap t rest hts =>
      cases h
      obtain ⟨hsubset, ht⟩ := subset_of_gap hts
      exact ⟨hsubset List.mem_cons_self, ht⟩
  | case5 declared seen ts gap t rest hts _ _ hname read hread _ _ hclose =>
      cases h
      exact ⟨subset_of_readDeclaration hread hts hname heof List.mem_cons_self,
        Token.isTrivia_of_isPunct hclose⟩
  | case6 declared seen ts gap t rest hts _ _ hname read hread _ _ _ ih =>
      have hrest := List.subset_of_cons_subset (subset_of_readDeclaration hread hts hname heof)
      obtain ⟨hmem, hparen⟩ := ih h fun u hu => heof u (hrest hu)
      exact ⟨hrest hmem, hparen⟩

section

variable {letToken : Token} (hlet : letToken.isTrivia = false) {ts : List Token}
    {d : Diagnostic}
include hlet

theorem standsAmong_readInitializer {opened : List Bracket} {seen : List Token}
    (h : readInitializer letToken opened seen ts = .error d) :
    d.StandsAmong (letToken :: ts) := by
  fun_induction readInitializer letToken opened seen ts with
  | case1 =>
      cases h
      exact Problem.standsAmong List.mem_cons_self hlet _
  | case2 => cases h
  | case5 opened seen t rest _ bracket hcloses =>
      cases h
      exact Problem.standsAmong (by simp) (Token.isTrivia_of_closes? hcloses) _
  | _ =>
      rename_i ih
      exact (ih h).mono (List.cons_subset_cons _ (List.subset_cons_self _ _))

theorem standsAmong_readDeclaration {name : Token}
    (h : readDeclaration letToken name ts = .error d) : d.StandsAmong (letToken :: ts) := by
  unfold readDeclaration at h
  split at h
  · cases h
    exact Problem.standsAmong List.mem_cons_self hlet _
  · next separator rest hts =>
    obtain ⟨hsubset, hseparator⟩ := subset_of_gap hts
    have hmem : separator ∈ letToken :: ts :=
      List.mem_cons_of_mem _ (hsubset List.mem_cons_self)
    split at h
    · split at h
      · next hread =>
        cases h
        exact (standsAmong_readInitializer hlet hread).mono
          (List.cons_subset_cons _ (List.subset_of_cons_subset hsubset))
      · split at h
        · cases h
          exact Problem.standsAmong hmem hseparator _
        · cases h
    · split at h
      · cases h
      · cases h
        exact Problem.standsAmong hmem hseparator _

theorem standsAmong_readDeclarations {declared : List Declaration} {seen : List Token}
    (h : readDeclarations letToken declared seen ts = .error d)
    (heof : ∀ t ∈ ts, t.isEof = false) : d.StandsAmong (letToken :: ts) := by
  fun_induction readDeclarations letToken declared seen ts with
  | case1 =>
      cases h
      exact Problem.standsAmong List.mem_cons_self hlet _
  | case2 seen ts t rest hts | case7 declared seen ts t rest hts =>
      cases h
      obtain ⟨hsubset, ht⟩ := subset_of_gap hts
      exact Problem.standsAmong (List.mem_cons_of_mem _ (hsubset List.mem_cons_self)) ht _
  | case3 | case5 => cases h
  | case4 declared seen ts t rest hts _ _ d' hread =>
      cases h
      obtain ⟨hsubset, -⟩ := subset_of_gap hts
      exact (standsAmong_readDeclaration hlet hread).mono
        (List.cons_subset_cons _ (List.subset_of_cons_subset hsubset))
  | case6 declared seen ts gap t rest hts _ _ hname read hread _ _ _ ih =>
      have hrest := List.subset_of_cons_subset (subset_of_readDeclaration hread hts hname heof)
      exact (ih h fun u hu => heof u (hrest hu)).mono (List.cons_subset_cons _ hrest)

theorem standsAmong_read (h : read letToken ts = .faulty d)
    (heof : ∀ t ∈ ts, t.isEof = false) : d.StandsAmong (letToken :: ts) := by
  unfold read at h
  split at h
  · cases h
  · next paren rest hts =>
    have hrest := List.subset_of_cons_subset (subset_of_gap hts).1
    have heof : ∀ t ∈ rest, t.isEof = false := fun t ht => heof t (hrest ht)
    refine Diagnostic.StandsAmong.mono ?_ (List.cons_subset_cons _ hrest)
    split at h
    · split at h
      · next hread =>
        cases h
        exact standsAmong_readDeclarations hlet hread heof
      · next list hlist =>
        split at h
        · cases h
          obtain ⟨hmem, hclose⟩ := closeParen_of_readDeclarations hlist heof
          exact Problem.standsAmong (List.mem_cons_of_mem _ hmem) hclose _
        · next brace rest' hbrace =>
          obtain ⟨used, -, rfl, -⟩ := readDeclarations_sound hlist heof
          obtain ⟨hsubset, hbrace⟩ := subset_of_gap hbrace
          split at h
          · cases h
          · cases h
            refine Problem.standsAmong (List.mem_cons_of_mem _ (List.mem_append_right _ ?_))
              hbrace _
            exact hsubset List.mem_cons_self
    · cases h

end

end Header

/-! ### Bodies -/

namespace Node

theorem closes?_of_mem_complaints {p : Progress} {t : Token} {d : Diagnostic}
    (h : d ∈ p.complaints t) :
    (∃ bracket, t.closes? = some bracket) ∧
      ∃ problem : Problem, d = problem.diagnostic t.span := by
  obtain ⟨problem, hproblem, rfl⟩ := List.mem_map.1 h
  refine ⟨?_, problem, rfl⟩
  cases hcloses : t.closes? with
  | none =>
      rw [Token.mismatches_of_closes?_eq_none _ _ hcloses] at hproblem
      cases hproblem
  | some bracket => exact ⟨bracket, rfl⟩

namespace Progress

/-- What has been reported, and what may still be reported at the end of the script, stands at
tokens that are not trivia. -/
structure Sited (tokens : List Token) (p : Progress) : Prop where
  lets : ∀ b ∈ p.around, b.letToken ∈ tokens ∧ b.letToken.isTrivia = false
  reports : ∀ d ∈ p.diagnostics, d.StandsAmong tokens

namespace Sited

variable {tokens : List Token} {p : Progress}

theorem take (hp : p.Sited tokens) {t : Token} (ht : t ∈ tokens) :
    (p.take t).Sited tokens := by
  refine ⟨fun b hb => hp.lets b (around_take_subset p t hb), ?_⟩
  rw [diagnostics_take, List.forall_mem_append]
  refine ⟨fun d hd => ?_, hp.reports⟩
  obtain ⟨⟨bracket, hcloses⟩, problem, rfl⟩ := closes?_of_mem_complaints hd
  exact problem.standsAmong ht (Token.isTrivia_of_closes? hcloses)

theorem openBlock (hp : p.Sited tokens) {t : Token} (ht : t ∈ tokens)
    (hlet : t.isTrivia = false) (header : Header) : (p.openBlock t header).Sited tokens :=
  ⟨List.forall_mem_cons.2 ⟨⟨ht, hlet⟩, hp.lets⟩, hp.reports⟩

theorem run (hp : p.Sited tokens) {ts : List Token} (hts : ts ⊆ tokens)
    (heof : ∀ t ∈ ts, t.isEof = false) : (p.run ts).Sited tokens := by
  fun_induction Progress.run p ts with
  | case1 p => exact hp
  | case2 p t rest hlet header rest' hread ih =>
      obtain ⟨hsplit, -⟩ := Header.read_sound hread hlet.1 (List.forall_mem_cons.1 heof).2
      have hrest : rest' ⊆ t :: rest := hsplit ▸ List.subset_append_right _ _
      have hopen :=
        hp.openBlock (hts List.mem_cons_self) (Token.isTrivia_of_kind_kwLet hlet.1) header
      exact ih hopen (List.Subset.trans hrest hts) fun u hu => heof u (hrest hu)
  | case3 p t rest hlet d hread ih =>
      obtain ⟨ht, hrest⟩ := List.cons_subset.1 hts
      obtain ⟨-, heof⟩ := List.forall_mem_cons.1 heof
      have hd :=
        (Header.standsAmong_read (Token.isTrivia_of_kind_kwLet hlet.1) hread heof).mono hts
      have hp' : Sited tokens (p.noting [d]) := by
        refine ⟨hp.lets, ?_⟩
        rw [diagnostics_noting (filed_singleton (Header.filed_of_read hread))]
        exact List.forall_mem_cons.2 ⟨hd, hp.reports⟩
      exact ih (hp'.take ht) hrest heof
  | case4 | case5 =>
      rename_i ih
      obtain ⟨ht, hrest⟩ := List.cons_subset.1 hts
      exact ih (hp.take ht) hrest (List.forall_mem_cons.1 heof).2

end Sited

end Progress

/-- Whatever the parser reports stands at a token in front of the end of the script that is not
trivia. -/
theorem standsAmong_parse {tokens : List Token} {d : Diagnostic}
    (hd : d ∈ (parse tokens).diagnostics) : d.StandsAmong (tokens.takeWhile (!·.isEof)) := by
  have hstart : Progress.Sited (tokens.takeWhile (!·.isEof)) {} :=
    ⟨by simp, by simp [Progress.diagnostics]⟩
  have hrun := hstart.run (List.Subset.refl _) Token.isEof_of_mem_takeWhile
  rw [parse_eq, List.mem_reverse, Progress.diagnostics_finish, List.mem_append,
    List.mem_reverse] at hd
  -- what is reported at the end stands at the `let`s of the blocks that are still open
  rcases hd with hopen | hreport
  · obtain ⟨b, hb, rfl⟩ := List.mem_map.1 hopen
    obtain ⟨hmem, hlet⟩ := hrun.lets b hb
    exact Problem.standsAmong hmem hlet _
  · exact hrun.reports d hreport

end Node

end LetBlocks
