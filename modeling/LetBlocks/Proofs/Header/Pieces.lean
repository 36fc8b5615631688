import LetBlocks.Proofs.Header.Grammar
import LetBlocks.Proofs.Token.Tiling

/-!
Whether tokens make up a header does not depend on their places, so it can be asked of pieces:
`StartsBlock` says that a list of pieces begins with a header. A header does not end in the
middle of brackets. So one that begins in an initializer ends there too: behind the initializer
comes a comma or a semicolon, and no bracket that was opened inside is open any more.
-/

namespace LetBlocks

open Token

namespace Header

/-! ### Tokens at other places -/

section Alike

variable {ts us : List Token} {t u : Token}

theorem opens?_congr (h : t.toPiece = u.toPiece) : t.opens? = u.opens? := by
  have hkind : t.kind = u.kind := congrArg Piece.kind h
  have hlexeme : t.lexeme = u.lexeme := congrArg Piece.lexeme h
  rw [opens?, opens?, hkind, hlexeme]

theorem closes?_congr (h : t.toPiece = u.toPiece) : t.closes? = u.closes? := by
  have hkind : t.kind = u.kind := congrArg Piece.kind h
  have hlexeme : t.lexeme = u.lexeme := congrArg Piece.lexeme h
  rw [closes?, closes?, hkind, hlexeme]

theorem isPunct_congr (h : t.toPiece = u.toPiece) (text : Text) :
    t.isPunct text = u.isPunct text := by
  have hkind : t.kind = u.kind := congrArg Piece.kind h
  have hlexeme : t.lexeme = u.lexeme := congrArg Piece.lexeme h
  rw [isPunct, isPunct, hkind, hlexeme]

theorem AllTrivia.congr (h : AllTrivia ts) (hus : us.map toPiece = ts.map toPiece) :
    AllTrivia us := by
  intro u hu
  have hmem := List.mem_map_of_mem (f := toPiece) hu
  rw [hus, List.mem_map] at hmem
  obtain ⟨t, ht, htu⟩ := hmem
  have hkind : t.kind = u.kind := congrArg Piece.kind htu
  rw [isTrivia, ← hkind]
  exact h t ht

theorem Matched.congr {commas : Bool} (h : Matched commas ts)
    (hus : us.map toPiece = ts.map toPiece) : Matched commas us := by
  induction h generalizing us with
  | nil =>
      rw [List.map_nil, List.map_eq_nil_iff] at hus
      subst hus
      exact .nil
  | plain hopens hcloses hcomma _ ih =>
      obtain ⟨u, us, rfl, hu, hus⟩ := List.map_eq_cons_iff.1 hus
      exact .plain (by rw [opens?_congr hu, hopens]) (by rw [closes?_congr hu, hcloses])
        (by rwa [isComma, isPunct_congr hu]) (ih hus)
  | @group _ _ opener closer inner ts hopens hcloses _ _ ihinner ih =>
      rw [List.map_append, List.map_cons, List.map_cons] at hus
      obtain ⟨us₁, us₂, rfl, h₁, h₂⟩ := List.map_eq_append_iff.1 hus
      obtain ⟨u, inner', rfl, hu, hinner⟩ := List.map_eq_cons_iff.1 h₁
      obtain ⟨v, ts', rfl, hv, hts⟩ := List.map_eq_cons_iff.1 h₂
      exact .group (by rw [opens?_congr hu, hopens]) (by rw [closes?_congr hv, hcloses])
        (ihinner hinner) (ih hts)

theorem IsInitializer.congr (h : IsInitializer ts) (hus : us.map toPiece = ts.map toPiece) :
    IsInitializer us := by
  have hkinds : us.map Token.kind = ts.map Token.kind := by
    simpa [Function.comp_def] using congrArg (List.map Piece.kind) hus
  refine ⟨h.matched.congr hus, ?_, ?_⟩
  · intro u hu
    have hmem := List.mem_map_of_mem (f := kind) hu
    rw [hkinds, List.mem_map] at hmem
    obtain ⟨t, ht, htu⟩ := hmem
    rw [isEof, ← htu]
    exact h.noEof t ht
  · obtain ⟨t, ht, htrivia⟩ := h.significant
    have hmem := List.mem_map_of_mem (f := kind) ht
    rw [← hkinds, List.mem_map] at hmem
    obtain ⟨u, hu, hut⟩ := hmem
    exact ⟨u, hu, by rwa [isTrivia, hut]⟩

theorem IsDeclaration.congr {d : Declaration} (h : IsDeclaration ts d)
    (hus : us.map toPiece = ts.map toPiece) : ∃ d', IsDeclaration us d' := by
  cases h with
  | @bare before after name hbefore hname hafter =>
      rw [List.map_append, List.map_cons] at hus
      obtain ⟨before', us', rfl, h₁, h₂⟩ := List.map_eq_append_iff.1 hus
      obtain ⟨name', after', rfl, hname', h₃⟩ := List.map_eq_cons_iff.1 h₂
      have hkind : name'.kind = name.kind := congrArg Piece.kind hname'
      exact ⟨_, .bare (hbefore.congr h₁) (hkind.trans hname) (hafter.congr h₃)⟩
  | @valued before gap init name equals hbefore hname hgap hequals hinit =>
      rw [List.map_append, List.map_append, List.map_cons, List.map_cons] at hus
      obtain ⟨us', us₂, rfl, h₁, h₂⟩ := List.map_eq_append_iff.1 hus
      obtain ⟨before', us₃, rfl, h₃, h₄⟩ := List.map_eq_append_iff.1 h₁
      obtain ⟨name', gap', rfl, hname', h₅⟩ := List.map_eq_cons_iff.1 h₄
      obtain ⟨equals', init', rfl, hequals', h₆⟩ := List.map_eq_cons_iff.1 h₂
      have hkind : name'.kind = name.kind := congrArg Piece.kind hname'
      exact ⟨_, .valued (hbefore.congr h₃) (hkind.trans hname) (hgap.congr h₅)
        (by rwa [isEquals, isPunct_congr hequals']) (hinit.congr h₆)⟩

theorem IsList.congr {ds : List Declaration} (h : IsList ts ds)
    (hus : us.map toPiece = ts.map toPiece) : ∃ ds', IsList us ds' := by
  induction h generalizing us with
  | last hd hclose =>
      rw [List.map_append] at hus
      obtain ⟨used, us', rfl, h₁, h₂⟩ := List.map_eq_append_iff.1 hus
      obtain ⟨close, us', rfl, hclose', h₃⟩ := List.map_eq_cons_iff.1 h₂
      obtain rfl := List.map_eq_nil_iff.1 h₃
      obtain ⟨d', hd'⟩ := hd.congr h₁
      exact ⟨_, .last hd' (by rwa [isCloseParen, isPunct_congr hclose'])⟩
  | trailing hd hcomma hgap hclose =>
      rw [List.map_append, List.map_cons, List.map_append] at hus
      obtain ⟨used, us', rfl, h₁, h₂⟩ := List.map_eq_append_iff.1 hus
      obtain ⟨comma, us', rfl, hcomma', h₃⟩ := List.map_eq_cons_iff.1 h₂
      obtain ⟨gap, us', rfl, h₄, h₅⟩ := List.map_eq_append_iff.1 h₃
      obtain ⟨close, us', rfl, hclose', h₆⟩ := List.map_eq_cons_iff.1 h₅
      obtain rfl := List.map_eq_nil_iff.1 h₆
      obtain ⟨d', hd'⟩ := hd.congr h₁
      exact ⟨_, .trailing hd' (by rwa [isComma, isPunct_congr hcomma']) (hgap.congr h₄)
        (by rwa [isCloseParen, isPunct_congr hclose'])⟩
  | cons hd hcomma _ ih =>
      rw [List.map_append, List.map_cons] at hus
      obtain ⟨used, us', rfl, h₁, h₂⟩ := List.map_eq_append_iff.1 hus
      obtain ⟨comma, more, rfl, hcomma', h₃⟩ := List.map_eq_cons_iff.1 h₂
      obtain ⟨d', hd'⟩ := hd.congr h₁
      obtain ⟨ds', hds'⟩ := ih h₃
      exact ⟨_, .cons hd' (by rwa [isComma, isPunct_congr hcomma']) hds'⟩

/-- Tokens of the same kinds and with the same lexemes as those of a header make up a
header. -/
theorem IsHeader.congr {ds : List Declaration} (h : IsHeader ts ds)
    (hus : us.map toPiece = ts.map toPiece) : ∃ ds', IsHeader us ds' := by
  cases h with
  | @intro letToken paren brace gap list after _ hlet hgap hparen hlist hafter hbrace =>
      simp only [List.map_append, List.map_cons, List.map_nil] at hus
      obtain ⟨us₁, us', rfl, h₁, h₂⟩ := List.map_eq_append_iff.1 hus
      obtain ⟨brace', us', rfl, hbrace', h₃⟩ := List.map_eq_cons_iff.1 h₂
      obtain rfl := List.map_eq_nil_iff.1 h₃
      obtain ⟨us₂, after', rfl, h₄, h₅⟩ := List.map_eq_append_iff.1 h₁
      obtain ⟨us₃, us₄, rfl, h₆, h₇⟩ := List.map_eq_append_iff.1 h₄
      obtain ⟨letToken', gap', rfl, hlet', h₈⟩ := List.map_eq_cons_iff.1 h₆
      obtain ⟨paren', list', rfl, hparen', h₉⟩ := List.map_eq_cons_iff.1 h₇
      obtain ⟨ds', hlist'⟩ := hlist.congr h₉
      have hkind : letToken'.kind = letToken.kind := congrArg Piece.kind hlet'
      exact ⟨ds', .intro (hkind.trans hlet) (hgap.congr h₈)
        (by rwa [isOpenParen, isPunct_congr hparen']) hlist' (hafter.congr h₅)
        (by rwa [isOpenCurly, isPunct_congr hbrace'])⟩

end Alike

end Header

/-! ### The depth of brackets -/

namespace Piece

/-- How many brackets a piece opens, less how many it closes. -/
def rise (p : Piece) : Int :=
  if p.kind = .punct then
    if (Bracket.opened? p.lexeme).isSome then 1
    else if (Bracket.closed? p.lexeme).isSome then -1
    else 0
  else 0

def depth : List Piece → Int
  | [] => 0
  | p :: ps => p.rise + depth ps

@[simp] theorem depth_nil : depth [] = 0 := rfl

@[simp] theorem depth_cons (p : Piece) (ps : List Piece) :
    depth (p :: ps) = p.rise + depth ps := rfl

@[simp] theorem depth_append (ps qs : List Piece) :
    depth (ps ++ qs) = depth ps + depth qs := by
  induction ps with
  | nil => simp
  | cons p ps ih => simp [ih, Int.add_assoc]

theorem rise_of_kind {p : Piece} (h : p.kind ≠ .punct) : p.rise = 0 := by
  rw [rise, if_neg h]

theorem rise_of_opens? {t : Token} {bracket : Bracket} (h : t.opens? = some bracket) :
    t.toPiece.rise = 1 := by
  obtain ⟨hkind, hlexeme⟩ := opens?_eq_some_iff.1 h
  simp only [rise, toPiece_kind, toPiece_lexeme, hkind, hlexeme]
  cases bracket <;> rfl

theorem rise_of_closes? {t : Token} {bracket : Bracket} (h : t.closes? = some bracket) :
    t.toPiece.rise = -1 := by
  obtain ⟨hkind, hlexeme⟩ := closes?_eq_some_iff.1 h
  simp only [rise, toPiece_kind, toPiece_lexeme, hkind, hlexeme]
  cases bracket <;> rfl

theorem rise_of_plain {t : Token} (hopens : t.opens? = none) (hcloses : t.closes? = none) :
    t.toPiece.rise = 0 := by
  unfold opens? at hopens
  unfold closes? at hcloses
  unfold rise
  split_ifs at * <;> simp_all

theorem rise_of_isTrivia {p : Piece} (h : p.kind.isTrivia = true) : p.rise = 0 := by
  apply rise_of_kind
  intro hkind
  rw [hkind] at h
  cases h

theorem depth_of_isTrivia {ps : List Piece} (h : ∀ p ∈ ps, p.kind.isTrivia = true) :
    depth ps = 0 := by
  induction ps with
  | nil => rfl
  | cons p ps ih =>
      rw [List.forall_mem_cons] at h
      rw [depth_cons, rise_of_isTrivia h.1, ih h.2, Int.add_zero]

/-- Every bracket that is closed was opened before, and every one that is opened is closed. -/
structure Balanced (ps : List Piece) : Prop where
  total : depth ps = 0
  before : ∀ {qs rs}, ps = qs ++ rs → 0 ≤ depth qs

theorem Balanced.append {ps qs : List Piece} (hps : Balanced ps) (hqs : Balanced qs) :
    Balanced (ps ++ qs) where
  total := by rw [depth_append, hps.total, hqs.total, Int.add_zero]
  before := by
    intro us vs h
    rcases List.append_eq_append_iff.1 h with ⟨more, rfl, hmore⟩ | ⟨more, hmore, -⟩
    · have hdepth := hqs.before hmore
      rw [depth_append, hps.total]
      omega
    · exact hps.before hmore

theorem balanced_singleton {p : Piece} (h : p.rise = 0) : Balanced [p] where
  total := by simp [h]
  before := by
    intro us vs hsplit
    rcases List.cons_eq_append_iff.1 hsplit with ⟨rfl, -⟩ | ⟨us', rfl, hnil⟩
    · simp
    · obtain ⟨rfl, -⟩ := List.append_eq_nil_iff.1 hnil.symm
      simp [h]

theorem balanced_flat {ps : List Piece} (h : ∀ p ∈ ps, p.rise = 0) : Balanced ps := by
  induction ps with
  | nil => exact ⟨rfl, fun h => by simp [(List.append_eq_nil_iff.1 h.symm).1]⟩
  | cons p ps ih =>
      rw [List.forall_mem_cons] at h
      exact (balanced_singleton h.1).append (ih h.2)

/-- Between the two brackets of a pair the depth is at least one. -/
theorem Balanced.enclosed {ps qs rs : List Piece} {opener closer : Piece} (h : Balanced ps)
    (hopener : opener.rise = 1) (hsplit : opener :: (ps ++ [closer]) = qs ++ rs) :
    qs = [] ∨ rs = [] ∨ 1 ≤ depth qs := by
  rcases List.cons_eq_append_iff.1 hsplit with ⟨rfl, -⟩ | ⟨qs, rfl, heq⟩
  · exact .inl rfl
  · rw [depth_cons, hopener]
    rcases List.append_eq_append_iff.1 heq with ⟨more, rfl, hmore⟩ | ⟨more, hmore, -⟩
    · rcases List.cons_eq_append_iff.1 hmore with ⟨rfl, -⟩ | ⟨more, -, hnil⟩
      · rw [List.append_nil, h.total]
        exact .inr (.inr (by omega))
      · exact .inr (.inl (List.append_eq_nil_iff.1 hnil.symm).2)
    · have hdepth := h.before hmore
      exact .inr (.inr (by omega))

theorem Balanced.wrap {ps : List Piece} {opener closer : Piece} (h : Balanced ps)
    (hopener : opener.rise = 1) (hcloser : closer.rise = -1) :
    Balanced (opener :: (ps ++ [closer])) := by
  have htotal : depth (opener :: (ps ++ [closer])) = 0 := by
    rw [depth_cons, depth_append, h.total, hopener, depth_cons, hcloser, depth_nil]
    omega
  refine ⟨htotal, ?_⟩
  intro qs rs hsplit
  rcases h.enclosed hopener hsplit with rfl | rfl | hdepth
  · simp
  · rw [List.append_nil] at hsplit
    rw [hsplit] at htotal
    omega
  · omega

end Piece

namespace Header

open Piece

theorem Matched.balanced {commas : Bool} {ts : List Token} (h : Matched commas ts) :
    Balanced (ts.map toPiece) := by
  induction h with
  | nil => exact balanced_flat (by simp)
  | plain hopens hcloses _ _ ih =>
      exact (balanced_singleton (rise_of_plain hopens hcloses)).append ih
  | group hopens hcloses _ _ ihinner ih =>
      have hwrap := (ihinner.wrap (rise_of_opens? hopens) (rise_of_closes? hcloses)).append ih
      simpa using hwrap

/-- A punctuator in a header that is no bracket stands between its parentheses. -/
theorem IsHeader.one_le_depth {ts : List Token} {ds : List Declaration} (h : IsHeader ts ds)
    {qs rs : List Piece} {r : Piece} (hsplit : ts.map toPiece = qs ++ r :: rs)
    (hkind : r.kind = .punct) (hrise : r.rise = 0) : 1 ≤ depth qs := by
  cases h with
  | @intro letToken paren brace gap list after _ hlet hgap hparen hlist hafter hbrace =>
      obtain ⟨inner, close, rfl, hclose, hinner⟩ := hlist.matched
      have hopens : paren.toPiece.rise = 1 :=
        rise_of_opens? (opens?_eq_some_iff.2 (isPunct_iff.1 hparen) : paren.opens? =
          some .round)
      have hcurly : brace.toPiece.rise = 1 :=
        rise_of_opens? (opens?_eq_some_iff.2 (isPunct_iff.1 hbrace) : brace.opens? =
          some .curly)
      have htrivia : ∀ {us : List Token}, AllTrivia us → r ∉ us.map toPiece := by
        intro us hus hmem
        obtain ⟨u, hu, rfl⟩ := List.mem_map.1 hmem
        exact absurd (hus u hu) (by simp [isTrivia_of_kind_punct hkind])
      have hstart : r ∉ (letToken :: gap).map toPiece := by
        rw [List.map_cons, List.mem_cons, not_or]
        refine ⟨?_, htrivia hgap⟩
        rintro rfl
        cases hlet.symm.trans hkind
      have hend : r ∉ (after ++ [brace]).map toPiece := by
        rw [List.map_append, List.mem_append, not_or, List.map_singleton, List.mem_singleton]
        refine ⟨htrivia hafter, ?_⟩
        rintro rfl
        omega
      have hstart' : depth ((letToken :: gap).map toPiece) = 0 := by
        rw [List.map_cons, depth_cons, hgap.matched.balanced.total,
          rise_of_kind (by simp [hlet]), Int.add_zero]
      have hparts : (letToken :: gap ++ paren :: (inner ++ [close]) ++ after ++ [brace]).map
          toPiece = (letToken :: gap).map toPiece ++
            (paren.toPiece :: (inner.map toPiece ++ [close.toPiece]) ++
            (after ++ [brace]).map toPiece) := by
        simp
      rw [hparts] at hsplit
      -- the three parts of the header are what precedes the parentheses, what they hold, and
      -- the rest
      rcases List.append_eq_append_iff.1 hsplit with ⟨qs, rfl, hqs⟩ | ⟨more, hmore, hrest⟩
      · rw [depth_append, hstart']
        rcases List.append_eq_append_iff.1 hqs with ⟨more, -, hmore⟩ | ⟨more, hmore, hrest⟩
        · exact absurd (by simp [hmore]) hend
        · cases more with
          | nil =>
              rw [List.nil_append] at hrest
              exact absurd (hrest ▸ List.mem_cons_self) hend
          | cons p more =>
              cases hrest
              rcases hinner.balanced.enclosed hopens hmore with rfl | hnil | hdepth
              · cases hmore
                omega
              · cases hnil
              · omega
      · cases more with
        | nil =>
            cases hrest
            omega
        | cons p more =>
            cases hrest
            exact absurd (by simp [hmore]) hstart

/-- The last piece of a header is its brace. -/
theorem IsHeader.getLast_isTrivia {ts : List Token} {ds : List Declaration}
    (h : IsHeader ts ds) {qs rs : List Piece} (hsplit : ts.map toPiece = qs ++ rs)
    (hne : rs ≠ []) : (rs.getLast hne).kind.isTrivia = false := by
  obtain ⟨more, brace, rfl, hbrace⟩ := h.exists_brace
  have hlast := congrArg List.getLast? hsplit
  rw [List.getLast?_append, List.getLast?_eq_some_getLast hne, Option.some_or, List.map_append,
    List.map_singleton, List.getLast?_concat, Option.some.injEq] at hlast
  rw [← hlast]
  exact isTrivia_of_isPunct hbrace

end Header

/-! ### Where a block starts -/

namespace Piece

def significant? (ps : List Piece) : Option Piece := (ps.dropWhile (·.kind.isTrivia)).head?

def parenNext (ps : List Piece) : Bool :=
  (significant? ps).any fun p => p.kind == .punct && p.lexeme == [Byte.openParen]

/-- A list of pieces that begins like a header. -/
def TriesBlock : List Piece → Prop
  | [] => False
  | p :: ps => p.kind = .kwLet ∧ parenNext ps = true

def StartsBlock (ps : List Piece) : Prop :=
  ∃ used ds rest, Header.IsHeader used ds ∧ ps = used.map toPiece ++ rest

theorem significant?_append {ps qs : List Piece} (h : ∀ p ∈ ps, p.kind.isTrivia = true) :
    significant? (ps ++ qs) = significant? qs := by
  rw [significant?, significant?, List.dropWhile_append_of_pos h]

theorem significant?_cons {p : Piece} {ps : List Piece} (h : p.kind.isTrivia = false) :
    significant? (p :: ps) = some p := by
  simp [significant?, h]

theorem parenNext_map_toPiece (ts : List Token) :
    parenNext (ts.map toPiece) = (Header.next? ts).any Header.isOpenParen := by
  rw [parenNext, significant?, List.dropWhile_map, List.head?_map, Option.any_map]
  rfl

theorem StartsBlock.append {ps : List Piece} (h : StartsBlock ps) (qs : List Piece) :
    StartsBlock (ps ++ qs) := by
  obtain ⟨used, ds, rest, hheader, rfl⟩ := h
  exact ⟨used, ds, rest ++ qs, hheader, List.append_assoc _ _ _⟩

theorem StartsBlock.tries {ps : List Piece} (h : StartsBlock ps) : TriesBlock ps := by
  obtain ⟨used, ds, rest, hheader, rfl⟩ := h
  cases hheader with
  | @intro letToken paren brace gap list after _ hlet hgap hparen =>
      obtain ⟨hkind, hlexeme⟩ := isPunct_iff.1 hparen
      have hgap' : ∀ p ∈ gap.map toPiece, p.kind.isTrivia = true := by
        rw [List.forall_mem_map]
        exact hgap
      have hparts : (letToken :: gap ++ paren :: list ++ after ++ [brace]).map toPiece ++
          rest = letToken.toPiece :: (gap.map toPiece ++ paren.toPiece ::
            ((list ++ after ++ [brace]).map toPiece ++ rest)) := by
        simp
      have hparen' : paren.toPiece.kind.isTrivia = false := isTrivia_of_kind_punct hkind
      rw [hparts]
      refine ⟨hlet, ?_⟩
      rw [parenNext, significant?_append hgap', significant?_cons hparen']
      simp [hkind, hlexeme]

/-- A header is found exactly where a block starts. -/
theorem startsBlock_iff {t : Token} {ts : List Token} (hlet : t.kind = .kwLet)
    (heof : ∀ t ∈ ts, t.isEof = false) :
    StartsBlock ((t :: ts).map toPiece) ↔
      ∃ header rest, Header.read t ts = .found header rest := by
  constructor
  · rintro ⟨used, ds, rest, hheader, hsplit⟩
    obtain ⟨used', rest', hts, hused, -⟩ := List.map_eq_append_iff.1 hsplit
    obtain ⟨ds', hheader'⟩ := hheader.congr hused
    exact ⟨⟨ds', used'⟩, rest', Header.read_complete hheader' hts⟩
  · rintro ⟨header, rest, hread⟩
    obtain ⟨hsplit, hheader⟩ := Header.read_sound hread hlet heof
    exact ⟨header.tokens, _, rest.map toPiece, hheader, by rw [hsplit, List.map_append]⟩

/-- What can stand behind an initializer: trivia, and then a punctuator that is no bracket. -/
def Ends (ps : List Piece) : Prop := ∀ p ∈ significant? ps, p.kind = .punct ∧ p.rise = 0

/-- A header cannot leave a list of pieces that closes as many brackets as it opens. -/
theorem startsBlock_append_iff {ps qs : List Piece} (hps : depth ps ≤ 0) (hqs : Ends qs) :
    StartsBlock (ps ++ qs) ↔ StartsBlock ps := by
  refine ⟨?_, fun h => h.append qs⟩
  rintro ⟨used, ds, rest, hheader, hsplit⟩
  rcases List.append_eq_append_iff.1 hsplit with ⟨more, hused, rfl⟩ | ⟨more, hps', -⟩
  · cases hdrop : more.dropWhile (·.kind.isTrivia) with
    | nil =>
        -- a header does not end with trivia, so nothing of it is left over
        obtain rfl : more = [] := by
          by_contra hne
          exact absurd (List.dropWhile_eq_nil_iff.1 hdrop _ (List.getLast_mem hne))
            (by simp [hheader.getLast_isTrivia hused hne])
        exact ⟨used, ds, [], hheader, by rw [hused, List.append_nil, List.append_nil]⟩
    | cons r more' =>
        have hr : r.kind.isTrivia = false := by
          have hhead := List.head_dropWhile_not (·.kind.isTrivia) (l := more) (by simp [hdrop])
          simpa [hdrop] using hhead
        have hgap : ∀ p ∈ more.takeWhile (·.kind.isTrivia), p.kind.isTrivia = true := by
          intro p hp
          have htrivia := List.mem_takeWhile_imp hp
          exact htrivia
        have hmore : more = more.takeWhile (·.kind.isTrivia) ++ r :: more' := by
          rw [← hdrop, List.takeWhile_append_dropWhile]
        rw [hmore, List.append_assoc, List.cons_append, Ends, significant?_append hgap,
          significant?_cons hr] at hqs
        obtain ⟨hkind, hrise⟩ := hqs r rfl
        rw [hmore, ← List.append_assoc] at hused
        have hdepth := hheader.one_le_depth hused hkind hrise
        rw [depth_append, depth_of_isTrivia hgap] at hdepth
        omega
  · exact ⟨used, ds, more, hheader, hps'⟩

end Piece

end LetBlocks
