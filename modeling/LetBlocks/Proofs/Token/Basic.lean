import LetBlocks.Header
import Mathlib.Data.List.TakeWhile
import Mathlib.Tactic.Common

/-!
What the tests on tokens say about a token's kind and lexeme. A token opens or closes a
bracket, is a comma or a parenthesis, or is trivia, and no two of these at once unless it is a
closing parenthesis; later proofs use these exclusions and do not look at bytes.
-/

namespace LetBlocks

namespace Bracket

theorem opened?_eq_some_iff {text : Text} {bracket : Bracket} :
    opened? text = some bracket ↔ text = [bracket.opener] := by
  constructor
  · intro h
    unfold opened? at h
    split at h
    · next b =>
      split_ifs at h with h₁ h₂ h₃ <;> cases h <;> simp_all [opener]
    · cases h
  · rintro rfl
    cases bracket <;> rfl

theorem closed?_eq_some_iff {text : Text} {bracket : Bracket} :
    closed? text = some bracket ↔ text = [bracket.closer] := by
  constructor
  · intro h
    unfold closed? at h
    split at h
    · next b =>
      split_ifs at h with h₁ h₂ h₃ <;> cases h <;> simp_all [closer]
    · cases h
  · rintro rfl
    cases bracket <;> rfl

end Bracket

namespace Token

theorem isPunct_iff {t : Token} {text : Text} :
    t.isPunct text = true ↔ t.kind = .punct ∧ t.lexeme = text := by
  simp [isPunct]

theorem opens?_eq_some_iff {t : Token} {bracket : Bracket} :
    t.opens? = some bracket ↔ t.kind = .punct ∧ t.lexeme = [bracket.opener] := by
  unfold opens?
  split_ifs with h
  · simp [h, Bracket.opened?_eq_some_iff]
  · simp [h]

theorem closes?_eq_some_iff {t : Token} {bracket : Bracket} :
    t.closes? = some bracket ↔ t.kind = .punct ∧ t.lexeme = [bracket.closer] := by
  unfold closes?
  split_ifs with h
  · simp [h, Bracket.closed?_eq_some_iff]
  · simp [h]

theorem isTrivia_of_kind_punct {t : Token} (h : t.kind = .punct) : t.isTrivia = false := by
  simp [isTrivia, h, Kind.isTrivia, Kind.isBlank, Kind.isComment]

theorem isEof_of_kind_punct {t : Token} (h : t.kind = .punct) : t.isEof = false := by
  simp [isEof, h]

theorem Kind.ne_kwLet_of_isTrivia {kind : Kind} (h : kind.isTrivia = true) :
    kind ≠ .kwLet := by
  rintro rfl
  cases h

theorem isBlank_of_isTrivia {t : Token} (h : t.isTrivia = false) : t.isBlank = false :=
  (Bool.or_eq_false_iff.1 h).1

theorem isEof_of_isTrivia {t : Token} (h : t.isTrivia = true) : t.isEof = false := by
  cases hkind : t.kind <;>
    simp_all [isTrivia, isEof, Kind.isTrivia, Kind.isBlank, Kind.isComment]

theorem isEof_of_mem_takeWhile {ts : List Token} :
    ∀ t ∈ ts.takeWhile (!·.isEof), t.isEof = false := by
  intro t ht
  simpa using List.mem_takeWhile_imp ht

theorem isTrivia_of_isPunct {t : Token} {text : Text} (h : t.isPunct text = true) :
    t.isTrivia = false :=
  isTrivia_of_kind_punct (isPunct_iff.1 h).1

theorem isEof_of_isPunct {t : Token} {text : Text} (h : t.isPunct text = true) :
    t.isEof = false :=
  isEof_of_kind_punct (isPunct_iff.1 h).1

theorem isTrivia_of_kind_identifier {t : Token} (h : t.kind = .identifier) :
    t.isTrivia = false := by
  simp [isTrivia, h, Kind.isTrivia, Kind.isBlank, Kind.isComment]

/-- Two tests for different punctuators exclude each other. -/
theorem isPunct_eq_false {t : Token} {a b : Text} (h : t.isPunct a = true) (hab : a ≠ b) :
    t.isPunct b = false := by
  rw [isPunct_iff] at h
  simp [isPunct, h.2, hab]

theorem closes?_eq_none_of_opens? {t : Token} {bracket : Bracket}
    (h : t.opens? = some bracket) : t.closes? = none := by
  obtain ⟨hkind, hlexeme⟩ := opens?_eq_some_iff.1 h
  rw [closes?, if_pos hkind, hlexeme]
  cases bracket <;> rfl

theorem opens?_eq_none_of_closes? {t : Token} {bracket : Bracket}
    (h : t.closes? = some bracket) : t.opens? = none := by
  obtain ⟨hkind, hlexeme⟩ := closes?_eq_some_iff.1 h
  rw [opens?, if_pos hkind, hlexeme]
  cases bracket <;> rfl

theorem opens?_eq_none_of_kind {t : Token} (h : t.kind ≠ .punct) : t.opens? = none := by
  simp [opens?, h]

theorem closes?_eq_none_of_kind {t : Token} (h : t.kind ≠ .punct) : t.closes? = none := by
  simp [closes?, h]

/-- The text that tokens spell, one token at a time. -/
@[simp] theorem join_nil : join [] = [] := rfl

@[simp] theorem join_cons (t : Token) (ts : List Token) :
    join (t :: ts) = t.lexeme ++ join ts := by
  simp [join]

@[simp] theorem join_append (ts us : List Token) : join (ts ++ us) = join ts ++ join us := by
  simp [join]

end Token

namespace Header

theorem isCloseParen_iff {t : Token} :
    isCloseParen t = true ↔ t.kind = .punct ∧ t.lexeme = [Byte.closeParen] :=
  Token.isPunct_iff

theorem isSeparator_eq_false_of_opens? {t : Token} {bracket : Bracket}
    (h : t.opens? = some bracket) : (isComma t || isCloseParen t) = false := by
  obtain ⟨hkind, hlexeme⟩ := Token.opens?_eq_some_iff.1 h
  rw [isComma, isCloseParen, Token.isPunct, Token.isPunct, hkind, hlexeme]
  cases bracket <;> rfl

theorem isSeparator_eq_false_of_plain {t : Token} (hcloses : t.closes? = none)
    (hcomma : isComma t = false) : (isComma t || isCloseParen t) = false := by
  rw [hcomma, Bool.false_or, Bool.eq_false_iff]
  intro h
  have : t.closes? = some .round := Token.closes?_eq_some_iff.2 (isCloseParen_iff.1 h)
  simp [hcloses] at this

end Header

end LetBlocks
