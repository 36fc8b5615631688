import LetBlocks.Proofs.Report.Recording
import LetBlocks.Proofs.Token.Basic

/-!
The header readers are loops with many exits. This module says what a header is without them,
as a grammar over token lists, and shows that the readers accept exactly its sentences:

    header      = let T* ( declaration (, declaration)* [, T*] ) T* {
    declaration = T* name T*  |  T* name T* = initializer

`T` is trivia. An initializer is a run of tokens with matching brackets, no comma outside of
them and something else than trivia in it. Trivia between an initializer and the comma or
parenthesis after it are part of the initializer, so that a sentence has only one derivation.
-/

namespace LetBlocks.Header

/-! ### Sentences -/

def AllTrivia (ts : List Token) : Prop := ∀ t ∈ ts, t.isTrivia = true

/-- Runs of tokens whose brackets match pair by pair. Only where `commas` is true may commas
stand outside all of the brackets. -/
inductive Matched : Bool → List Token → Prop
  | nil {commas : Bool} : Matched commas []
  | plain {commas : Bool} {t : Token} {ts : List Token} (hopens : t.opens? = none)
      (hcloses : t.closes? = none) (hcomma : commas = true ∨ isComma t = false)
      (hrest : Matched commas ts) : Matched commas (t :: ts)
  | group {commas : Bool} {bracket : Bracket} {opener closer : Token} {inner ts : List Token}
      (hopens : opener.opens? = some bracket) (hcloses : closer.closes? = some bracket)
      (hinner : Matched true inner) (hrest : Matched commas ts) :
      Matched commas (opener :: inner ++ closer :: ts)

structure IsInitializer (ts : List Token) : Prop where
  matched : Matched false ts
  noEof : ∀ t ∈ ts, t.isEof = false
  significant : ∃ t ∈ ts, t.isTrivia = false

/-- A declaration with the trivia around it. -/
inductive IsDeclaration : List Token → Declaration → Prop
  | bare {before after : List Token} {name : Token} (hbefore : AllTrivia before)
      (hname : name.kind = .identifier) (hafter : AllTrivia after) :
      IsDeclaration (before ++ name :: after) { name, tokens := [name] }
  | valued {before gap init : List Token} {name equals : Token} (hbefore : AllTrivia before)
      (hname : name.kind = .identifier) (hgap : AllTrivia gap)
      (hequals : isEquals equals = true) (hinit : IsInitializer init) :
      IsDeclaration (before ++ name :: gap ++ equals :: init)
        { name, initializer := some init, tokens := name :: gap ++ equals :: init }

inductive IsList : List Token → List Declaration → Prop
  | last {used : List Token} {d : Declaration} {close : Token} (hd : IsDeclaration used d)
      (hclose : isCloseParen close = true) : IsList (used ++ [close]) [d]
  | trailing {used gap : List Token} {d : Declaration} {comma close : Token}
      (hd : IsDeclaration used d) (hcomma : isComma comma = true) (hgap : AllTrivia gap)
      (hclose : isCloseParen close = true) : IsList (used ++ comma :: (gap ++ [close])) [d]
  | cons {used more : List Token} {d : Declaration} {ds : List Declaration} {comma : Token}
      (hd : IsDeclaration used d) (hcomma : isComma comma = true) (hmore : IsList more ds) :
      IsList (used ++ comma :: more) (d :: ds)

/-- The tokens of a header from its `let` through its opening brace, and what they declare. -/
inductive IsHeader : List Token → List Declaration → Prop
  | intro {letToken paren brace : Token} {gap list after : List Token} {ds : List Declaration}
      (hlet : letToken.kind = .kwLet) (hgap : AllTrivia gap)
      (hparen : isOpenParen paren = true)
      (hlist : IsList list ds) (hafter : AllTrivia after) (hbrace : isOpenCurly brace = true) :
      IsHeader (letToken :: gap ++ paren :: list ++ after ++ [brace]) ds

theorem IsList.ne_nil {used : List Token} {ds : List Declaration} (h : IsList used ds) :
    ds ≠ [] := by
  cases h <;> simp

theorem IsHeader.ne_nil {ts : List Token} {ds : List Declaration} (h : IsHeader ts ds) :
    ds ≠ [] := by
  cases h with
  | intro _ _ _ hlist => exact hlist.ne_nil

theorem IsList.each {used : List Token} {ds : List Declaration} (h : IsList used ds) :
    ∀ d ∈ ds, ∃ us, IsDeclaration us d := by
  induction h with
  | last hd => exact List.forall_mem_singleton.2 ⟨_, hd⟩
  | trailing hd => exact List.forall_mem_singleton.2 ⟨_, hd⟩
  | cons hd _ _ ih => exact List.forall_mem_cons.2 ⟨⟨_, hd⟩, ih⟩

theorem IsHeader.each {ts : List Token} {ds : List Declaration} (h : IsHeader ts ds) :
    ∀ d ∈ ds, ∃ us, IsDeclaration us d := by
  cases h with
  | intro _ _ _ hlist => exact hlist.each

theorem IsDeclaration.tokens_subset {used : List Token} {d : Declaration}
    (h : IsDeclaration used d) : d.tokens ⊆ used := by
  cases h with
  | bare => simp
  | valued => simp

/-- The tokens of a declaration are tokens of the list it stands in. -/
theorem IsList.tokens_subset {used : List Token} {ds : List Declaration} (h : IsList used ds) :
    ∀ d ∈ ds, d.tokens ⊆ used := by
  induction h with
  | last hd _ =>
      exact List.forall_mem_singleton.2 (List.subset_append_of_subset_left _ hd.tokens_subset)
  | trailing hd _ _ _ =>
      exact List.forall_mem_singleton.2 (List.subset_append_of_subset_left _ hd.tokens_subset)
  | cons hd _ _ ih =>
      refine List.forall_mem_cons.2
        ⟨List.subset_append_of_subset_left _ hd.tokens_subset, fun d hmem => ?_⟩
      exact List.subset_append_of_subset_right _ (List.subset_cons_of_subset _ (ih d hmem))

theorem IsHeader.tokens_subset {ts : List Token} {ds : List Declaration} (h : IsHeader ts ds) :
    ∀ d ∈ ds, d.tokens ⊆ ts := by
  cases h with
  | intro _ _ _ hlist =>
      intro d hd t ht
      have hmem := hlist.tokens_subset d hd ht
      simp [hmem]

theorem IsDeclaration.kind_name {used : List Token} {d : Declaration}
    (h : IsDeclaration used d) : d.name.kind = .identifier := by
  cases h with
  | bare _ hname => exact hname
  | valued _ hname => exact hname

/-- A declaration is made of its name and, if it has one, its initializer. -/
theorem IsDeclaration.parts_subset {used : List Token} {d : Declaration}
    (h : IsDeclaration used d) :
    d.name ∈ d.tokens ∧ ∀ init ∈ d.initializer, init ⊆ d.tokens := by
  cases h with
  | bare => simp
  | valued =>
      refine ⟨by simp, ?_⟩
      rintro init ⟨⟩
      exact List.subset_append_of_subset_right _ (List.subset_cons_self _ _)

theorem IsHeader.exists_brace {ts : List Token} {ds : List Declaration} (h : IsHeader ts ds) :
    ∃ more brace, ts = more ++ [brace] ∧ isOpenCurly brace = true := by
  cases h with
  | intro _ _ _ _ _ hbrace => exact ⟨_, _, rfl, hbrace⟩

/-- Where a header begins a list, it begins with the first token of the list. -/
theorem IsHeader.head?_eq {tokens rest rest' : List Token} {ds : List Declaration} {t : Token}
    (h : IsHeader tokens ds) (hsplit : t :: rest = tokens ++ rest') :
    tokens.head? = some t := by
  cases h with
  | intro => exact congrArg some (List.cons.inj hsplit).1.symm

/-! ### Runs with matching brackets -/

namespace Matched

theorem append {commas : Bool} {ts us : List Token} (hts : Matched commas ts)
    (hus : Matched commas us) : Matched commas (ts ++ us) := by
  induction hts with
  | nil => exact hus
  | plain hopens hcloses hcomma _ ih => exact .plain hopens hcloses hcomma (ih hus)
  | @group _ _ opener closer inner ts hopens hcloses hinner _ _ ih =>
      rw [show opener :: inner ++ closer :: ts ++ us =
          opener :: inner ++ closer :: (ts ++ us) by simp]
      exact .group hopens hcloses hinner (ih hus)

theorem weaken {commas : Bool} {ts : List Token} (h : Matched commas ts) :
    Matched true ts := by
  induction h with
  | nil => exact .nil
  | plain hopens hcloses _ _ ih => exact .plain hopens hcloses (.inl rfl) ih
  | group hopens hcloses hinner _ _ ih => exact .group hopens hcloses hinner ih

theorem of_kind {t : Token} (h : t.kind ≠ .punct) : Matched false [t] :=
  .plain (Token.opens?_eq_none_of_kind h) (Token.closes?_eq_none_of_kind h)
    (.inr (by simp [isComma, Token.isPunct, h]))
    .nil

theorem of_isPunct {commas : Bool} {t : Token} {text : Text} (h : t.isPunct text = true)
    (hopened : Bracket.opened? text = none) (hclosed : Bracket.closed? text = none)
    (hcomma : commas = true ∨ text ≠ [Byte.comma]) : Matched commas [t] := by
  obtain ⟨hkind, hlexeme⟩ := Token.isPunct_iff.1 h
  refine .plain ?_ ?_ (hcomma.imp_right (Token.isPunct_eq_false h)) .nil
  · rw [Token.opens?, if_pos hkind, hlexeme, hopened]
  · rw [Token.closes?, if_pos hkind, hlexeme, hclosed]

end Matched

theorem AllTrivia.matched {ts : List Token} (h : AllTrivia ts) : Matched false ts := by
  induction ts with
  | nil => exact .nil
  | cons t ts ih =>
      rw [AllTrivia, List.forall_mem_cons] at h
      have hkind : t.kind ≠ .punct :=
        fun hpunct => by simp [Token.isTrivia_of_kind_punct hpunct] at h
      exact (Matched.of_kind hkind).append (ih h.2)

theorem IsDeclaration.matched {ts : List Token} {d : Declaration} (h : IsDeclaration ts d) :
    Matched false ts := by
  cases h with
  | @bare _ _ name hbefore hname hafter =>
      have hname' : Matched false [name] := .of_kind (by simp [hname])
      exact hbefore.matched.append (hname'.append hafter.matched)
  | @valued _ _ _ name _ hbefore hname hgap hequals hinit =>
      have hname' : Matched false [name] := .of_kind (by simp [hname])
      have hinit' :=
        (Matched.of_isPunct hequals rfl rfl (.inr (by decide))).append hinit.matched
      exact (hbefore.matched.append (hname'.append hgap.matched)).append hinit'

/-- What stands between the parentheses of a header has matching brackets. -/
theorem IsList.matched {ts : List Token} {ds : List Declaration} (h : IsList ts ds) :
    ∃ inner close, ts = inner ++ [close] ∧ isCloseParen close = true ∧ Matched true inner := by
  have hcomma' : ∀ {comma : Token}, isComma comma = true → Matched true [comma] :=
    fun hcomma => Matched.of_isPunct hcomma rfl rfl (.inl rfl)
  induction h with
  | last hd hclose => exact ⟨_, _, rfl, hclose, hd.matched.weaken⟩
  | @trailing used gap d comma close hd hcomma hgap hclose =>
      refine ⟨used ++ comma :: gap, close, by simp, hclose, ?_⟩
      exact hd.matched.weaken.append ((hcomma' hcomma).append hgap.matched.weaken)
  | @cons used more d ds comma hd hcomma _ ih =>
      obtain ⟨inner, close, rfl, hclose, hinner⟩ := ih
      refine ⟨used ++ comma :: inner, close, by simp, hclose, ?_⟩
      exact hd.matched.weaken.append ((hcomma' hcomma).append hinner)

/-- The rest of an initializer in which the brackets `opened` are open: each of them is closed
in turn, with a matching run before its closer. -/
def Closes : List Bracket → List Token → Prop
  | [], ts => Matched false ts
  | bracket :: opened, ts =>
      ∃ inner closer more, ts = inner ++ closer :: more ∧ Matched true inner ∧
        closer.closes? = some bracket ∧ Closes opened more

theorem Closes.append_left {commas : Bool} {opened : List Bracket} {ts us : List Token}
    (hts : Matched commas ts) (hcommas : opened ≠ [] ∨ commas = false)
    (hus : Closes opened us) : Closes opened (ts ++ us) := by
  cases opened with
  | nil =>
      obtain rfl : commas = false := hcommas.resolve_left (fun h => h rfl)
      exact hts.append hus
  | cons bracket opened =>
      obtain ⟨inner, closer, more, rfl, hinner, hcloses, hmore⟩ := hus
      exact ⟨ts ++ inner, closer, more, by simp, hts.weaken.append hinner, hcloses, hmore⟩

/-! ### Initializers -/

/-- The reader passes a run with matching brackets, whatever is open around it. -/
theorem readInitializer_append {commas : Bool} {letToken : Token} {ts : List Token}
    (hts : Matched commas ts) :
    ∀ {opened : List Bracket} {seen rest : List Token}, opened ≠ [] ∨ commas = false →
      readInitializer letToken opened seen (ts ++ rest) =
        readInitializer letToken opened (ts.reverse ++ seen) rest := by
  induction hts with
  | nil => intro opened seen rest _; rfl
  | @plain commas t ts hopens hcloses hcomma _ ih =>
      intro opened seen rest hcommas
      have hstop : ¬ (opened = [] ∧ (isComma t || isCloseParen t) = true) := by
        rintro ⟨hnil, hsep⟩
        have hfalse : commas = false := hcommas.resolve_left (fun h => h hnil)
        have hcomma' : isComma t = false := hcomma.resolve_left (by simp [hfalse])
        rw [isSeparator_eq_false_of_plain hcloses hcomma'] at hsep
        cases hsep
      rw [List.cons_append, readInitializer, if_neg hstop, hopens, hcloses]
      simpa using ih hcommas
  | @group commas bracket opener closer inner ts hopens hcloses _ _ ihinner ih =>
      intro opened seen rest hcommas
      have hnone := Token.closes?_eq_none_of_opens? hopens
      have hstop : ¬ (opened = [] ∧ (isComma opener || isCloseParen opener) = true) := by
        simp [isSeparator_eq_false_of_opens? hopens]
      rw [show opener :: inner ++ closer :: ts ++ rest =
          opener :: (inner ++ closer :: (ts ++ rest)) by simp,
        readInitializer, if_neg hstop, hopens, hnone]
      simp only
      rw [ihinner (.inl (by simp)), readInitializer, if_neg (by simp),
        Token.opens?_eq_none_of_closes? hcloses, hcloses]
      simp only [List.head?_cons, if_true, List.tail_cons]
      rw [ih hcommas]
      simp

theorem readInitializer_of_closes {letToken separator : Token} {opened : List Bracket}
    {used rest : List Token} (hused : Closes opened used)
    (hsep : (isComma separator || isCloseParen separator) = true) :
    ∀ {seen : List Token}, readInitializer letToken opened seen (used ++ separator :: rest) =
      .ok { tokens := seen.reverse ++ used, separator, rest } := by
  induction opened generalizing used with
  | nil =>
      intro seen
      rw [readInitializer_append hused (.inr rfl), readInitializer, if_pos ⟨rfl, hsep⟩]
      simp
  | cons bracket opened ih =>
      intro seen
      obtain ⟨inner, closer, more, rfl, hinner, hcloses, hmore⟩ := hused
      rw [show inner ++ closer :: more ++ separator :: rest =
          inner ++ closer :: (more ++ separator :: rest) by simp,
        readInitializer_append hinner (.inl (by simp)), readInitializer, if_neg (by simp),
        Token.opens?_eq_none_of_closes? hcloses, hcloses]
      simp only [List.head?_cons, if_true, List.tail_cons]
      rw [ih hmore]
      simp

theorem closes_of_readInitializer {letToken : Token} {opened : List Bracket}
    {seen ts : List Token} {read : InitializerRead}
    (h : readInitializer letToken opened seen ts = .ok read) :
    ∃ used, ts = used ++ read.separator :: read.rest ∧ read.tokens = seen.reverse ++ used ∧
      Closes opened used ∧ (isComma read.separator || isCloseParen read.separator) = true := by
  fun_induction readInitializer letToken opened seen ts with
  | case1 => cases h
  | case2 opened seen t rest hstop =>
      cases h
      obtain ⟨rfl, hsep⟩ := hstop
      exact ⟨[], rfl, by simp, .nil, hsep⟩
  | case3 opened seen t rest _ bracket hopens ih =>
      obtain ⟨used, rfl, htokens, ⟨inner, closer, more, rfl, hinner, hcloses, hmore⟩, hsep⟩ :=
        ih h
      refine ⟨t :: inner ++ closer :: more, by simp, by simp [htokens], ?_, hsep⟩
      have hgroup : Matched false (t :: inner ++ closer :: []) :=
        .group hopens hcloses hinner .nil
      simpa using hmore.append_left hgroup (.inr rfl)
  | case4 opened seen t rest _ bracket hcloses hopens hhead ih =>
      obtain ⟨used, rfl, htokens, hused, hsep⟩ := ih h
      obtain ⟨opened', rfl⟩ := List.head?_eq_some_iff.1 hhead
      exact ⟨t :: used, by simp, by simp [htokens], ⟨[], t, used, rfl, .nil, hcloses, hused⟩,
        hsep⟩
  | case5 => cases h
  | case6 opened seen t rest hstop hcloses hopens ih =>
      obtain ⟨used, rfl, htokens, hused, hsep⟩ := ih h
      refine ⟨t :: used, by simp, by simp [htokens], ?_, hsep⟩
      by_cases hnil : opened = []
      · have hcomma : isComma t = false := by
          rw [Bool.eq_false_iff]
          exact fun hc => hstop ⟨hnil, by simp [hc]⟩
        have hplain : Matched false [t] := .plain hopens hcloses (.inr hcomma) .nil
        exact hused.append_left hplain (.inr rfl)
      · have hplain : Matched true [t] := .plain hopens hcloses (.inl rfl) .nil
        exact hused.append_left hplain (.inl hnil)

def IsFault (codes : List String) (d : Diagnostic) : Prop :=
  ∃ (problem : Problem) (span : Span), d = problem.diagnostic span ∧ problem.code ∈ codes

theorem IsFault.mono {codes codes' : List String} {d : Diagnostic} (h : IsFault codes d)
    (hsubset : codes ⊆ codes') : IsFault codes' d := by
  obtain ⟨problem, span, rfl, hcode⟩ := h
  exact ⟨problem, span, rfl, hsubset hcode⟩

theorem isFault_diagnostic {codes : List String} {problem : Problem} (h : problem.code ∈ codes)
    (span : Span) : IsFault codes (problem.diagnostic span) :=
  ⟨problem, span, rfl, h⟩

theorem isFault_readInitializer {letToken : Token} {opened : List Bracket}
    {seen ts : List Token} {d : Diagnostic}
    (h : readInitializer letToken opened seen ts = .error d) : IsFault ["P004"] d := by
  fun_induction readInitializer letToken opened seen ts with
  | case1 => cases h; exact isFault_diagnostic (by simp [Problem.code]) _
  | case2 => cases h
  | case5 => cases h; exact isFault_diagnostic (by simp [Problem.code]) _
  | _ => rename_i ih; exact ih h

/-! ### Declarations -/

theorem takeWhile_gap {gap rest : List Token} {t : Token} (hgap : AllTrivia gap)
    (ht : t.isTrivia = false) : (gap ++ t :: rest).takeWhile Token.isTrivia = gap := by
  rw [List.takeWhile_append_of_pos hgap]
  simp [ht]

theorem dropWhile_gap {gap rest : List Token} {t : Token} (hgap : AllTrivia gap)
    (ht : t.isTrivia = false) : (gap ++ t :: rest).dropWhile Token.isTrivia = t :: rest := by
  rw [List.dropWhile_append_of_pos hgap]
  simp [ht]

/-- A list whose trivia end somewhere is a gap and what comes after it. -/
theorem exists_gap {ts rest : List Token} {t : Token}
    (h : ts.dropWhile Token.isTrivia = t :: rest) :
    ∃ gap, ts = gap ++ t :: rest ∧ AllTrivia gap ∧ t.isTrivia = false := by
  refine ⟨ts.takeWhile Token.isTrivia, ?_, fun u hu => List.mem_takeWhile_imp hu, ?_⟩
  · rw [← h, List.takeWhile_append_dropWhile]
  · have hhead := List.head?_dropWhile_not Token.isTrivia ts
    rw [h] at hhead
    simpa using hhead

theorem not_isTrivia_of_separator {t : Token} (h : (isComma t || isCloseParen t) = true) :
    t.isTrivia = false := by
  rcases Bool.or_eq_true_iff.1 h with h | h <;> exact Token.isTrivia_of_isPunct h

theorem isEquals_of_separator {t : Token} (h : (isComma t || isCloseParen t) = true) :
    isEquals t = false := by
  rcases Bool.or_eq_true_iff.1 h with h | h <;> exact Token.isPunct_eq_false h (by decide)

theorem all_isTrivia_eq_false {ts : List Token} (h : ∃ t ∈ ts, t.isTrivia = false) :
    ts.all Token.isTrivia = false := by
  obtain ⟨t, ht, htrivia⟩ := h
  rw [List.all_eq_false]
  exact ⟨t, ht, by simp [htrivia]⟩

theorem readDeclaration_sound {letToken name : Token} {ts : List Token}
    {read : DeclarationRead} (h : readDeclaration letToken name ts = .ok read)
    (hname : name.kind = .identifier) (heof : ∀ t ∈ ts, t.isEof = false) :
    name :: ts = read.used ++ read.separator :: read.rest ∧
      (∀ before, AllTrivia before → IsDeclaration (before ++ read.used) read.declaration) ∧
      (isComma read.separator || isCloseParen read.separator) = true := by
  unfold readDeclaration at h
  split at h
  · cases h
  · next separator rest hts =>
    obtain ⟨gap, rfl, hgap, hsep⟩ := exists_gap hts
    rw [takeWhile_gap hgap hsep] at h
    split at h
    · next hequals =>
      split at h
      · cases h
      · next read' hread =>
        obtain ⟨used, rfl, htokens, hused, hsep'⟩ := closes_of_readInitializer hread
        simp only [List.reverse_nil, List.nil_append] at htokens
        split at h
        · cases h
        · next hsome =>
          cases h
          have hinit : IsInitializer used := by
            refine ⟨hused, fun t ht => heof t (by simp [ht]), ?_⟩
            simpa [htokens] using hsome
          refine ⟨by simp [htokens], fun before hbefore => ?_, hsep'⟩
          simpa [htokens] using IsDeclaration.valued hbefore hname hgap hequals hinit
    · split at h
      · next hsep' =>
        cases h
        exact ⟨by simp, fun before hbefore => .bare hbefore hname hgap, hsep'⟩
      · cases h

theorem readDeclaration_complete (letToken : Token) (rest : List Token) {separator : Token}
    {used : List Token} {d : Declaration} (hd : IsDeclaration used d)
    (hsep : (isComma separator || isCloseParen separator) = true) :
    ∃ before name more, used = before ++ name :: more ∧ AllTrivia before ∧
      name.kind = .identifier ∧
      readDeclaration letToken name (more ++ separator :: rest) =
        .ok { declaration := d, used := name :: more, separator, rest } := by
  have hsep' := not_isTrivia_of_separator hsep
  cases hd with
  | @bare before after name hbefore hname hafter =>
      refine ⟨before, name, after, rfl, hbefore, hname, ?_⟩
      rw [readDeclaration, dropWhile_gap hafter hsep', takeWhile_gap hafter hsep']
      simp [isEquals_of_separator hsep, hsep]
  | @valued before gap init name equals hbefore hname hgap hequals hinit =>
      refine ⟨before, name, gap ++ equals :: init, by simp, hbefore, hname, ?_⟩
      have hequals' : equals.isTrivia = false := Token.isTrivia_of_isPunct hequals
      have hread : readInitializer letToken [] [] (init ++ separator :: rest) =
          .ok { tokens := init, separator, rest } :=
        readInitializer_of_closes (show Closes [] init from hinit.matched) hsep
      rw [show gap ++ equals :: init ++ separator :: rest =
          gap ++ equals :: (init ++ separator :: rest) by simp,
        readDeclaration, dropWhile_gap hgap hequals', takeWhile_gap hgap hequals']
      simp [hequals, hread, all_isTrivia_eq_false hinit.significant]

theorem isFault_readDeclaration {letToken name : Token} {ts : List Token} {d : Diagnostic}
    (h : readDeclaration letToken name ts = .error d) : IsFault ["P002", "P004"] d := by
  unfold readDeclaration at h
  split at h
  · cases h; exact isFault_diagnostic (by simp [Problem.code]) _
  · split at h
    · split at h
      · next hread => cases h; exact (isFault_readInitializer hread).mono (by simp)
      · split at h
        · cases h; exact isFault_diagnostic (by simp [Problem.code]) _
        · cases h
    · split at h
      · cases h
      · cases h; exact isFault_diagnostic (by simp [Problem.code]) _

/-! ### Lists of declarations -/

/-- One round of the loop over declarations, from the first token that is not trivia. -/
theorem readDeclarations_gap {letToken t : Token} {declared : List Declaration}
    {seen gap rest : List Token} (hgap : AllTrivia gap) (ht : t.isTrivia = false) :
    readDeclarations letToken declared seen (gap ++ t :: rest) =
      if isCloseParen t then
        if declared = [] then .error (Problem.noNames.diagnostic t.span)
        else
          .ok
            { declarations := declared.reverse
              used := seen.reverse ++ (gap ++ [t])
              closeParen := t
              rest }
      else if t.kind = .identifier then
        match readDeclaration letToken t rest with
        | .error d => .error d
        | .ok read =>
            if isCloseParen read.separator then
              .ok
                { declarations := (read.declaration :: declared).reverse
                  used := seen.reverse ++ (gap ++ read.used ++ [read.separator])
                  closeParen := read.separator
                  rest := read.rest }
            else
              readDeclarations letToken (read.declaration :: declared)
                (read.separator :: (read.used.reverse ++ (gap.reverse ++ seen))) read.rest
      else .error ((Problem.nameExpected t).diagnostic t.span) := by
  rw [readDeclarations]
  split
  · next h => simp [dropWhile_gap hgap ht] at h
  · next t' rest' h =>
    rw [dropWhile_gap hgap ht] at h
    cases h
    rw [takeWhile_gap hgap ht]
    simp only [List.reverse_cons, List.reverse_append, List.reverse_reverse, List.append_assoc]
    split
    · rfl
    · split
      · split
        · next hread => simp only [hread]
        · next hread => simp only [hread]
      · rfl

theorem readDeclarations_complete (letToken : Token) (rest : List Token) {used : List Token}
    {ds : List Declaration} (h : IsList used ds) :
    ∀ (declared : List Declaration) (seen : List Token),
      ∃ close, readDeclarations letToken declared seen (used ++ rest) =
        .ok
          { declarations := declared.reverse ++ ds
            used := seen.reverse ++ used
            closeParen := close
            rest } := by
  -- every production starts with a declaration, so the loop always enters its second branch
  -- first
  have hround : ∀ {used : List Token} {d : Declaration} {separator : Token}
      {rest seen : List Token}
      {declared : List Declaration}, IsDeclaration used d →
      (isComma separator || isCloseParen separator) = true →
      readDeclarations letToken declared seen (used ++ separator :: rest) =
        if isCloseParen separator then
          .ok
            { declarations := declared.reverse ++ [d]
              used := seen.reverse ++ (used ++ [separator])
              closeParen := separator
              rest }
        else
          readDeclarations letToken (d :: declared) (separator :: (used.reverse ++ seen))
            rest := by
    intro used d separator rest seen declared hd hsep
    obtain ⟨before, name, more, rfl, hbefore, hname, hread⟩ :=
      readDeclaration_complete letToken rest hd hsep
    have hclose : isCloseParen name = false := by simp [isCloseParen, Token.isPunct, hname]
    rw [show before ++ name :: more ++ separator :: rest =
        before ++ name :: (more ++ separator :: rest) by simp,
      readDeclarations_gap hbefore (Token.isTrivia_of_kind_identifier hname)]
    simp [hclose, hname, hread]
  induction h with
  | @last used d close hd hclose =>
      intro declared seen
      refine ⟨close, ?_⟩
      rw [show used ++ [close] ++ rest = used ++ close :: rest by simp,
        hround hd (by simp [hclose]), if_pos hclose]
  | @trailing used gap d comma close hd hcomma hgap hclose =>
      intro declared seen
      have hnot : isCloseParen comma = false := Token.isPunct_eq_false hcomma (by decide)
      refine ⟨close, ?_⟩
      rw [show used ++ comma :: (gap ++ [close]) ++ rest =
          used ++ comma :: (gap ++ close :: rest) by simp,
        hround hd (by simp [hcomma]), if_neg (by simp [hnot]),
        readDeclarations_gap hgap (Token.isTrivia_of_isPunct hclose), if_pos hclose]
      simp
  | @cons used more d ds comma hd hcomma _ ih =>
      intro declared seen
      have hnot : isCloseParen comma = false := Token.isPunct_eq_false hcomma (by decide)
      obtain ⟨close, hread⟩ := ih (d :: declared) (comma :: (used.reverse ++ seen))
      refine ⟨close, ?_⟩
      rw [show used ++ comma :: more ++ rest = used ++ comma :: (more ++ rest) by simp,
        hround hd (by simp [hcomma]), if_neg (by simp [hnot]), hread]
      simp

/-- What the loop over declarations has read when it ends well. A list with `declared` before
it may also consist of the closing parenthesis alone, which is how a comma comes to stand
last. -/
theorem readDeclarations_sound {letToken : Token} {declared : List Declaration}
    {seen ts : List Token} {list : ListRead}
    (h : readDeclarations letToken declared seen ts = .ok list)
    (heof : ∀ t ∈ ts, t.isEof = false) :
    ∃ used ds, ts = used ++ list.rest ∧ list.used = seen.reverse ++ used ∧
      list.declarations = declared.reverse ++ ds ∧
      (IsList used ds ∨ (declared ≠ [] ∧ ds = [] ∧
        ∃ gap close, AllTrivia gap ∧ isCloseParen close = true ∧ used = gap ++ [close])) := by
  fun_induction readDeclarations letToken declared seen ts with
  | case1 => cases h
  | case2 => cases h
  | case3 declared seen ts gap t rest hts seen' hclose hdeclared =>
      cases h
      obtain ⟨gap', rfl, hgap, ht⟩ := exists_gap hts
      refine ⟨gap' ++ [t], [], by simp, ?_, by simp,
        .inr ⟨hdeclared, rfl, gap', t, hgap, hclose, rfl⟩⟩
      simp [seen', gap, takeWhile_gap hgap ht]
  | case4 => cases h
  | case5 declared seen ts gap t rest hts seen' _ hname read hread declared' seen'' hclose =>
      cases h
      obtain ⟨gap', rfl, hgap, ht⟩ := exists_gap hts
      obtain ⟨hsplit, hd, -⟩ :=
        readDeclaration_sound hread hname (fun u hu => heof u (by simp [hu]))
      refine ⟨gap' ++ read.used ++ [read.separator], [read.declaration], ?_,
        ?_, by simp [declared'], .inl (.last (hd gap' hgap) hclose)⟩
      · rw [hsplit]
        simp
      · simp [seen'', seen', gap, takeWhile_gap hgap ht]
  | case6 declared seen ts gap t rest hts seen' _ hname read hread declared' seen'' hclose
      ih =>
      obtain ⟨gap', rfl, hgap, ht⟩ := exists_gap hts
      obtain ⟨hsplit, hd, hsep⟩ :=
        readDeclaration_sound hread hname (fun u hu => heof u (by simp [hu]))
      have hcomma : isComma read.separator = true := by simpa [hclose] using hsep
      have heof' : ∀ u ∈ read.rest, u.isEof = false := by
        intro u hu
        apply heof u
        rw [hsplit]
        simp [hu]
      obtain ⟨used, ds, hrest, hused, hds, hlist⟩ := ih h heof'
      refine ⟨gap' ++ read.used ++ read.separator :: used, read.declaration :: ds, ?_, ?_, ?_,
        .inl ?_⟩
      · rw [hsplit, hrest]
        simp
      · rw [hused]
        simp [seen'', seen', gap, takeWhile_gap hgap ht]
      · rw [hds]
        simp [declared']
      · rcases hlist with hlist | ⟨-, rfl, gap'', close, hgap'', hclose', rfl⟩
        · exact .cons (hd gap' hgap) hcomma hlist
        · exact .trailing (hd gap' hgap) hcomma hgap'' hclose'
  | case7 => cases h

theorem isFault_readDeclarations {letToken : Token} {declared : List Declaration}
    {seen ts : List Token} {d : Diagnostic}
    (h : readDeclarations letToken declared seen ts = .error d) :
    IsFault ["P001", "P002", "P004"] d := by
  fun_induction readDeclarations letToken declared seen ts with
  | case1 => cases h; exact isFault_diagnostic (by simp [Problem.code]) _
  | case2 => cases h; exact isFault_diagnostic (by simp [Problem.code]) _
  | case3 => cases h
  | case4 declared seen ts t rest _ _ _ d' hread =>
      cases h
      exact (isFault_readDeclaration hread).mono (by simp)
  | case5 => cases h
  | case6 _ _ _ _ _ _ _ _ _ _ _ _ _ _ _ ih => exact ih h
  | case7 => cases h; exact isFault_diagnostic (by simp [Problem.code]) _

/-! ### Headers -/

theorem read_sound {letToken : Token} {ts rest : List Token} {header : Header}
    (h : read letToken ts = .found header rest) (hlet : letToken.kind = .kwLet)
    (heof : ∀ t ∈ ts, t.isEof = false) :
    letToken :: ts = header.tokens ++ rest ∧ IsHeader header.tokens header.declarations := by
  unfold read at h
  split at h
  · cases h
  · next paren rest' hts =>
    obtain ⟨gap, rfl, hgap, hparen'⟩ := exists_gap hts
    rw [takeWhile_gap hgap hparen'] at h
    split at h
    · next hparen =>
      split at h
      · cases h
      · next list hlist =>
        obtain ⟨used, ds, rfl, hused, hds, hform⟩ :=
          readDeclarations_sound hlist (fun t ht => heof t (by simp [ht]))
        have hform' : IsList used ds := by
          rcases hform with hform | ⟨hdeclared, -⟩
          · exact hform
          · exact absurd rfl hdeclared
        simp only [List.reverse_nil, List.nil_append] at hused hds
        split at h
        · cases h
        · next brace rest'' hrest =>
          obtain ⟨after, hlist', hafter, hbrace'⟩ := exists_gap hrest
          split at h
          · next hbrace =>
            cases h
            rw [hlist', takeWhile_gap hafter hbrace', hused, hds]
            exact ⟨by simp, .intro hlet hgap hparen hform' hafter hbrace⟩
          · cases h
    · cases h

theorem read_complete {letToken : Token} {ts rest : List Token} {header : Header}
    (h : IsHeader header.tokens header.declarations)
    (hsplit : letToken :: ts = header.tokens ++ rest) :
    read letToken ts = .found header rest := by
  obtain ⟨declarations, tokens⟩ := header
  simp only at h hsplit
  cases h with
  | @intro letToken' paren brace gap list after ds hlet hgap hparen hlist hafter hbrace =>
      obtain ⟨rfl, rfl⟩ : letToken = letToken' ∧
          ts = gap ++ paren :: (list ++ (after ++ brace :: rest)) := by
        simpa using hsplit
      have hparen' : paren.isTrivia = false := Token.isTrivia_of_isPunct hparen
      have hbrace' : brace.isTrivia = false := Token.isTrivia_of_isPunct hbrace
      obtain ⟨close, hread⟩ :=
        readDeclarations_complete letToken (after ++ brace :: rest) hlist [] []
      rw [read, dropWhile_gap hgap hparen', takeWhile_gap hgap hparen']
      simp [hparen, hread, dropWhile_gap hafter hbrace', takeWhile_gap hafter hbrace', hbrace]

/-- A header is found exactly where a sentence of the grammar stands. -/
theorem read_eq_found_iff {letToken : Token} {ts rest : List Token} {header : Header}
    (hlet : letToken.kind = .kwLet) (heof : ∀ t ∈ ts, t.isEof = false) :
    read letToken ts = .found header rest ↔
      IsHeader header.tokens header.declarations ∧ letToken :: ts = header.tokens ++ rest :=
  ⟨fun h => (read_sound h hlet heof).symm, fun h => read_complete h.1 h.2⟩

def faultCodes : List Text := ["P001", "P002", "P003", "P004"].map utf8

theorem isFault_read {letToken : Token} {ts : List Token} {d : Diagnostic}
    (h : read letToken ts = .faulty d) : IsFault ["P001", "P002", "P003", "P004"] d := by
  unfold read at h
  split at h
  · cases h
  · split at h
    · split at h
      · next hread => cases h; exact (isFault_readDeclarations hread).mono (by simp)
      · split at h
        · cases h; exact isFault_diagnostic (by simp [Problem.code]) _
        · split at h
          · cases h
          · cases h; exact isFault_diagnostic (by simp [Problem.code]) _
    · cases h

theorem code_of_read {letToken : Token} {ts : List Token} {d : Diagnostic}
    (h : read letToken ts = .faulty d) : d.code ∈ faultCodes := by
  obtain ⟨problem, span, rfl, hcode⟩ := isFault_read h
  exact List.mem_map_of_mem hcode

theorem filed_of_read {letToken : Token} {ts : List Token} {d : Diagnostic}
    (h : read letToken ts = .faulty d) : d.filed = d := by
  obtain ⟨problem, span, rfl, -⟩ := isFault_read h
  exact problem.filed_diagnostic span

def next? (ts : List Token) : Option Token := (ts.dropWhile Token.isTrivia).head?

/-- Whether a `let` is meant to start a block is up to the first token after it that is not
trivia. -/
theorem read_eq_absent_iff {letToken : Token} {ts : List Token} :
    read letToken ts = .absent ↔ (next? ts).any isOpenParen = false := by
  unfold read next?
  cases ts.dropWhile Token.isTrivia with
  | nil => simp
  | cons paren rest =>
      cases hparen : isOpenParen paren with
      | false => simp [hparen]
      | true =>
          simp only [hparen, if_true, List.head?_cons, Option.any_some, reduceCtorEq,
            iff_false]
          split
          · simp
          · split
            · simp
            · split <;> simp

/-- A sentence of the grammar has only one header in front of it: where the header ends and
what it declares are determined by the tokens. -/
theorem IsHeader.unique {ts us rest rest' : List Token} {ds ds' : List Declaration}
    (h : IsHeader ts ds) (h' : IsHeader us ds') (heq : ts ++ rest = us ++ rest') :
    ts = us ∧ ds = ds' := by
  have hne : ∃ letToken more, ts = letToken :: more := by
    cases h with
    | intro => exact ⟨_, _, rfl⟩
  obtain ⟨letToken, more, rfl⟩ := hne
  have hfound : read letToken (more ++ rest) = .found ⟨ds, letToken :: more⟩ rest :=
    read_complete h rfl
  have hfound' : read letToken (more ++ rest) = .found ⟨ds', us⟩ rest' :=
    read_complete h' heq
  rw [hfound] at hfound'
  cases hfound'
  exact ⟨rfl, rfl⟩

/-! ### What a header is made of -/

theorem AllTrivia.noEof {ts : List Token} (h : AllTrivia ts) : ∀ t ∈ ts, t.isEof = false :=
  fun t ht => Token.isEof_of_isTrivia (h t ht)

theorem IsDeclaration.noEof {used : List Token} {d : Declaration} (h : IsDeclaration used d) :
    ∀ t ∈ used, t.isEof = false := by
  cases h with
  | bare hbefore hname hafter =>
      rw [List.forall_mem_append, List.forall_mem_cons]
      exact ⟨hbefore.noEof, by simp [Token.isEof, hname], hafter.noEof⟩
  | valued hbefore hname hgap hequals hinit =>
      rw [List.forall_mem_append, List.forall_mem_append, List.forall_mem_cons,
        List.forall_mem_cons]
      exact ⟨⟨hbefore.noEof, by simp [Token.isEof, hname], hgap.noEof⟩,
        Token.isEof_of_isPunct hequals, hinit.noEof⟩

theorem IsList.noEof {used : List Token} {ds : List Declaration} (h : IsList used ds) :
    ∀ t ∈ used, t.isEof = false := by
  induction h with
  | last hd hclose =>
      rw [List.forall_mem_append, List.forall_mem_singleton]
      exact ⟨hd.noEof, Token.isEof_of_isPunct hclose⟩
  | trailing hd hcomma hgap hclose =>
      rw [List.forall_mem_append, List.forall_mem_cons, List.forall_mem_append,
        List.forall_mem_singleton]
      exact ⟨hd.noEof, Token.isEof_of_isPunct hcomma, hgap.noEof,
        Token.isEof_of_isPunct hclose⟩
  | cons hd hcomma _ ih =>
      rw [List.forall_mem_append, List.forall_mem_cons]
      exact ⟨hd.noEof, Token.isEof_of_isPunct hcomma, ih⟩

theorem IsHeader.noEof {ts : List Token} {ds : List Declaration} (h : IsHeader ts ds) :
    ∀ t ∈ ts, t.isEof = false := by
  cases h with
  | intro hlet hgap hparen hlist hafter hbrace =>
      rw [List.forall_mem_append, List.forall_mem_append, List.forall_mem_append,
        List.forall_mem_cons, List.forall_mem_cons, List.forall_mem_singleton]
      exact ⟨⟨⟨⟨by simp [Token.isEof, hlet], hgap.noEof⟩, Token.isEof_of_isPunct hparen,
        hlist.noEof⟩,
        hafter.noEof⟩, Token.isEof_of_isPunct hbrace⟩

end LetBlocks.Header
