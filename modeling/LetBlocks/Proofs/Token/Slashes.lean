import LetBlocks.Proofs.Token.Script
import Mathlib.Data.List.Induction

/-!
The scan decides between a division and a regular expression by what it has passed, byte by
byte, and the lexer cuts code by rules of its own. They stay in step: what the scan expects at
a token can be told from the tokens before it, and of these only from the last one that is not
trivia. So the tokens themselves show why a slash was read as it was.
-/

namespace LetBlocks

open Region

namespace Piece

/-- The piece at any place of a script is what comes first there, but for a first line that
starts with `#!`. -/
theorem Script.reads_of_split {before after : List Piece} {p : Piece}
    (h : Script (before ++ p :: after)) (hline : p.kind ≠ .lineComment) :
    Reads (Expectation.operand.afterAll before) p (spell after) := by
  have hchain : ∀ {before : List Piece}, Chain .operand (before ++ p :: after) [] →
      Reads (Expectation.operand.afterAll before) p (spell after) := by
    intro before hchain
    have hread := (chain_append.1 hchain).2.1
    rwa [List.append_nil] at hread
  generalize hps : before ++ p :: after = ps at h
  cases h with
  | plain _ hall => exact hchain (hps ▸ hall)
  | @hashbang q qs hbang _ hall =>
      cases before with
      | nil =>
          obtain ⟨rfl, -⟩ := List.cons.inj hps
          exact absurd hbang.1 hline
      | cons q' before =>
          obtain ⟨rfl, rfl⟩ := List.cons.inj hps
          have hafter : Expectation.operand.after q' = .operand := by
            simp [Expectation.after, hbang.1]
          rw [Expectation.afterAll, List.foldl_cons, hafter]
          exact hchain hall

/-- A regular expression is read only where an operand is expected. -/
theorem Reads.expect_of_regex {expect : Expectation} {p : Piece} {rest : Text}
    (h : Reads expect p rest) (hkind : p.kind = .regex) : expect = .operand := by
  obtain ⟨-, ⟨kind, hliteral, -, hread⟩ | ⟨-, hpiece⟩⟩ := h.cases
  · obtain rfl : kind = .regex := literalKind_injective (hliteral.symm.trans hkind)
    exact operand_of_regex hread
  · have hcode := hpiece.not_isLiteral
    rw [hkind] at hcode
    cases hcode

/-- A slash divides only where an operator is expected. -/
theorem Reads.expect_of_slash {expect : Expectation} {p : Piece} {rest more : Text}
    (h : Reads expect p rest) (hkind : p.kind = .punct)
    (hlexeme : p.lexeme = Byte.slash :: more) : expect = .operator := by
  obtain ⟨-, ⟨kind, hliteral, -, -⟩ | ⟨hnone, -⟩⟩ := h.cases
  · rw [hkind] at hliteral
    cases kind <;> cases hliteral
  · rw [hlexeme, List.cons_append, readLiteral?_eq_none_iff] at hnone
    have hoperand := (hnone.2.2.2 rfl).2.2
    cases expect with
    | operand => exact absurd rfl hoperand
    | operator => rfl

end Piece

namespace Token

def nearest? (ts : List Token) : Option Token := (ts.filter (!·.isTrivia)).getLast?

/-- A token behind which an operand comes: a punctuator that does not close an operand, or a
word such as `return`. -/
def AsksOperand (t : Token) : Prop :=
  (t.kind = .punct ∧ t.lexeme ≠ [Byte.closeParen] ∧ t.lexeme ≠ [Byte.closeSquare]) ∨
    (t.kind = .identifier ∧ t.lexeme ∈ operandKeywords)

def EndsOperand (t : Token) : Prop :=
  (t.kind = .punct ∧ (t.lexeme = [Byte.closeParen] ∨ t.lexeme = [Byte.closeSquare])) ∨
    t.kind = .number ∨
    t.kind = .kwLet ∨ t.kind = .string ∨ t.kind = .template ∨ t.kind = .regex ∨
    (t.kind = .identifier ∧ t.lexeme ∉ operandKeywords)

theorem after_of_isTrivia {t : Token} (h : t.isTrivia = true) (expect : Expectation) :
    expect.after t.toPiece = expect := by
  unfold isTrivia at h
  cases hkind : t.kind <;>
    simp_all [Kind.isTrivia, Kind.isBlank, Kind.isComment, Expectation.after]

/-- What is expected behind some tokens depends on the last one of them that is not trivia. -/
theorem afterAll_map_toPiece (expect : Expectation) {ts : List Token}
    (heof : ∀ t ∈ ts, t.kind ≠ .eof) :
    expect.afterAll (ts.map toPiece) =
      (nearest? ts).elim expect fun t => expect.after t.toPiece := by
  induction ts using List.reverseRecOn with
  | nil => rfl
  | append_singleton ts t ih =>
      have hsnoc : expect.afterAll ((ts ++ [t]).map toPiece) =
          (expect.afterAll (ts.map toPiece)).after t.toPiece := by
        rw [List.map_append, Expectation.afterAll, List.foldl_append]
        rfl
      rw [List.forall_mem_append, List.forall_mem_singleton] at heof
      rw [hsnoc, nearest?, List.filter_append]
      cases ht : t.isTrivia with
      | true =>
          rw [after_of_isTrivia ht, ih heof.1, nearest?]
          simp [ht]
      | false =>
          have hkind := heof.2
          simp only [ht, Bool.not_false, List.filter_cons_of_pos, List.filter_nil,
            List.getLast?_append, List.getLast?_singleton, Option.some_or, Option.elim_some]
          unfold isTrivia at ht
          cases hk : t.kind <;> simp_all
            [Kind.isTrivia, Kind.isBlank, Kind.isComment, Expectation.after]

theorem isTrivia_of_nearest? {ts : List Token} {t : Token} (h : nearest? ts = some t) :
    t ∈ ts ∧ t.isTrivia = false := by
  have hmem := List.mem_of_getLast? h
  simpa using hmem

/-- A token that is not trivia asks for an operand or ends one, and nothing else decides what
is expected behind it. -/
theorem after_of_significant {t : Token} (htrivia : t.isTrivia = false) (heof : t.kind ≠ .eof)
    (hlet : t.kind = .kwLet → t.lexeme = utf8 "let") (expect : Expectation) :
    (expect.after t.toPiece = .operand → t.AsksOperand) ∧
      (expect.after t.toPiece = .operator → t.EndsOperand) := by
  have hword : utf8 "let" ∉ operandKeywords := by decide
  unfold isTrivia at htrivia
  cases hkind : t.kind with
  | punct =>
      by_cases hcloser : t.lexeme = [Byte.closeParen] ∨ t.lexeme = [Byte.closeSquare]
      · simp [Expectation.after, AsksOperand, EndsOperand, hkind, hcloser]
      · have hlexeme := not_or.1 hcloser
        simp [Expectation.after, AsksOperand, EndsOperand, hkind, hlexeme]
  | identifier =>
      by_cases hkeyword : t.lexeme ∈ operandKeywords <;>
        simp [Expectation.after, AsksOperand, EndsOperand, hkind, hkeyword]
  | kwLet => simp [Expectation.after, AsksOperand, EndsOperand, hkind, hlet hkind, hword]
  | _ =>
      simp_all [Kind.isTrivia, Kind.isBlank, Kind.isComment, Expectation.after, AsksOperand,
        EndsOperand]

/-- A place among the tokens of a source is before its end or there. -/
theorem split_snoc {ts before after : List Token} {t u : Token}
    (h : ts ++ [u] = before ++ t :: after) :
    (∃ us, ts = before ++ t :: us) ∨ (ts = before ∧ u = t) := by
  rcases List.eq_nil_or_concat after with rfl | ⟨us, v, rfl⟩
  · obtain ⟨hbefore, hend⟩ := List.append_inj' h rfl
    exact .inr ⟨hbefore, by simpa using hend⟩
  · rw [List.concat_eq_append, ← List.cons_append, ← List.append_assoc] at h
    exact .inl ⟨us, (List.append_inj' h rfl).1⟩

/-- The token at any place of a source is what comes first there, for a scan that expects what
the tokens before it ask for. -/
theorem exists_reads {source : Source} {before after : List Token} {t : Token}
    (h : (lex source).tokens = before ++ t :: after) (heof : t.kind ≠ .eof)
    (hline : t.kind ≠ .lineComment) :
    ∃ rest, Piece.Reads (Expectation.operand.afterAll (before.map toPiece)) t.toPiece
      rest := by
  obtain ⟨ts, htokens, -, -, hscript⟩ := exists_lex_script source
  rw [htokens] at h
  obtain ⟨us, rfl⟩ := (split_snoc h).resolve_right fun hend => heof (hend.2 ▸ rfl)
  rw [List.map_append, List.map_cons] at hscript
  exact ⟨_, hscript.reads_of_split hline⟩

/-- Before any token there is no end of input. -/
theorem kind_ne_eof_of_split {source : Source} {before after : List Token} {t : Token}
    (h : (lex source).tokens = before ++ t :: after) : ∀ u ∈ before, u.kind ≠ .eof := by
  obtain ⟨ts, htokens, hbefore, -, -⟩ := exists_lex_script source
  have heof : ∀ u ∈ ts, u.kind ≠ .eof := by
    intro u hu
    rw [← hbefore] at hu
    simpa [isEof] using isEof_of_mem_takeWhile u hu
  rw [htokens] at h
  rcases split_snoc h with ⟨us, rfl⟩ | ⟨rfl, -⟩
  · exact (List.forall_mem_append.1 heof).1
  · exact heof

theorem lexeme_of_mem_lex {source : Source} {t : Token} (h : t ∈ (lex source).tokens)
    (hkind : t.kind = .kwLet) : t.lexeme = utf8 "let" := by
  obtain ⟨before, after, hsplit⟩ := List.append_of_mem h
  obtain ⟨rest, hread⟩ := exists_reads hsplit (by simp [hkind]) (by simp [hkind])
  exact hread.lexeme_of_kwLet hkind

end Token

/-- A regular expression comes first in a script or behind a token that asks for an operand,
and a division behind a token that ends one. -/
theorem slash_follows_context (source : Source) (before after : List Token) (t : Token)
    (h : (Token.lex source).tokens = before ++ t :: after) :
    (t.kind = .regex → ∀ u ∈ Token.nearest? before, u.AsksOperand) ∧
      (t.kind = .punct → t.lexeme = utf8 "/" ∨ t.lexeme = utf8 "/=" →
        ∃ u, Token.nearest? before = some u ∧ u.EndsOperand) := by
  have hexpect := Token.afterAll_map_toPiece .operand (Token.kind_ne_eof_of_split h)
  have hnearest : ∀ u, Token.nearest? before = some u →
      (Expectation.operand.after u.toPiece = .operand → u.AsksOperand) ∧
        (Expectation.operand.after u.toPiece = .operator → u.EndsOperand) := by
    intro u hu
    obtain ⟨hmem, htrivia⟩ := Token.isTrivia_of_nearest? hu
    refine Token.after_of_significant htrivia (Token.kind_ne_eof_of_split h u hmem)
      (fun hlet => ?_) _
    exact Token.lexeme_of_mem_lex (h ▸ List.mem_append_left _ hmem) hlet
  constructor
  · intro hregex u hu
    obtain ⟨rest, hread⟩ := Token.exists_reads h (by simp [hregex]) (by simp [hregex])
    rw [hexpect, hu, Option.elim_some] at hread
    exact (hnearest u hu).1 (hread.expect_of_regex hregex)
  · intro hpunct hlexeme
    obtain ⟨more, hslash⟩ : ∃ more, t.lexeme = Byte.slash :: more := by
      rcases hlexeme with hlexeme | hlexeme <;> exact ⟨_, hlexeme⟩
    obtain ⟨rest, hread⟩ := Token.exists_reads h (by simp [hpunct]) (by simp [hpunct])
    have hoperator := hread.expect_of_slash hpunct hslash
    rw [hexpect] at hoperator
    cases hu : Token.nearest? before with
    | none => simp [hu] at hoperator
    | some u =>
        rw [hu, Option.elim_some] at hoperator
        exact ⟨u, rfl, (hnearest u hu).2 hoperator⟩

/-- A division behind a bracket that closes, and a regular expression behind a comma. -/
theorem slash_follows_context_mixed :
    let tokens := (Token.lex (Source.ofText (utf8 "x[.5]/2, /[/]/g"))).tokens
    (tokens[4]?.map Token.toPiece = some { kind := .punct, lexeme := utf8 "/" } ∧
        ∃ u, Token.nearest? (tokens.take 4) = some u ∧ u.EndsOperand) ∧
      (tokens[8]?.map Token.toPiece = some { kind := .regex, lexeme := utf8 "/[/]/g" } ∧
        ∀ u ∈ Token.nearest? (tokens.take 8), u.AsksOperand) := by
  intro tokens
  have hsplit : ∀ {i : Nat} {p : Piece}, tokens[i]?.map Token.toPiece = some p →
      ∃ t, t.toPiece = p ∧ tokens = tokens.take i ++ t :: tokens.drop (i + 1) := by
    intro i p hp
    obtain ⟨t, ht, rfl⟩ := Option.map_eq_some_iff.1 hp
    obtain ⟨hi, rfl⟩ := List.getElem?_eq_some_iff.1 ht
    exact ⟨tokens[i], rfl, by rw [← List.drop_eq_getElem_cons hi, List.take_append_drop]⟩
  have hdivision : tokens[4]?.map Token.toPiece =
      some { kind := .punct, lexeme := utf8 "/" } := by decide +kernel
  have hregex : tokens[8]?.map Token.toPiece =
      some { kind := .regex, lexeme := utf8 "/[/]/g" } := by decide +kernel
  obtain ⟨d, hd, hbefore⟩ := hsplit hdivision
  obtain ⟨r, hr, hbefore'⟩ := hsplit hregex
  refine ⟨⟨hdivision, ?_⟩, hregex, ?_⟩
  · exact (slash_follows_context _ _ _ d hbefore).2 (congrArg Piece.kind hd)
      (.inl (congrArg Piece.lexeme hd))
  · exact (slash_follows_context _ _ _ r hbefore').1 (congrArg Piece.kind hr)

end LetBlocks
