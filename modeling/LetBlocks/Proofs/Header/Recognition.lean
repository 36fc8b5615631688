import LetBlocks.Proofs.Header.Grammar
import LetBlocks.Proofs.Node.Run

/-!
The grammar of headers speaks about a run of tokens. Here it is put to work at a place of a
token list, where more tokens and ends of input may follow, and for the parser that meets the
header there. A `let` with a parenthesis after it either starts exactly one header, and then
the parser goes on inside its body, or it starts none, and then the parser has one more
diagnostic and treats the `let` as a plain word.
-/

namespace LetBlocks.Header

open Node

def slice (tokens : List Token) (i b : Nat) : List Token := (tokens.drop i).take (b - i)

/-- The tokens that a reader sees: those before the next end of input. -/
def visible (tokens : List Token) : List Token := tokens.takeWhile (!·.isEof)

theorem noEof_visible (tokens : List Token) : ∀ t ∈ visible tokens, t.isEof = false :=
  Token.isEof_of_mem_takeWhile

theorem visible_append {ts us : List Token} (h : ∀ t ∈ ts, t.isEof = false) :
    visible (ts ++ us) = ts ++ visible us := by
  unfold visible
  rw [List.takeWhile_append_of_pos]
  intro t ht
  simp [h t ht]

/-- An end of input is not trivia, so it does not come between a `let` and its parenthesis. -/
theorem next?_visible {ts : List Token} (h : (next? ts).any isOpenParen = true) :
    (next? (visible ts)).any isOpenParen = true := by
  cases hdrop : ts.dropWhile Token.isTrivia with
  | nil => simp [next?, hdrop] at h
  | cons t rest =>
      obtain ⟨gap, rfl, hgap, ht⟩ := exists_gap hdrop
      have hparen : isOpenParen t = true := by simpa [next?, hdrop] using h
      have heof : t.isEof = false := Token.isEof_of_isPunct hparen
      rw [show gap ++ t :: rest = (gap ++ [t]) ++ rest by simp, visible_append,
        next?, List.append_assoc, List.singleton_append, dropWhile_gap hgap ht]
      · simpa using hparen
      · rw [List.forall_mem_append, List.forall_mem_singleton]
        exact ⟨hgap.noEof, heof⟩

theorem exists_hidden (tokens : List Token) :
    ∃ hidden, tokens = visible tokens ++ hidden ∧ visible hidden = [] := by
  induction tokens with
  | nil => exact ⟨[], rfl, rfl⟩
  | cons t ts ih =>
      cases ht : t.isEof with
      | true => exact ⟨t :: ts, by simp [visible, ht], by simp [visible, ht]⟩
      | false =>
          obtain ⟨hidden, hts, hnil⟩ := ih
          refine ⟨hidden, ?_, hnil⟩
          rw [← List.singleton_append, visible_append (by simpa using ht), List.append_assoc,
            ← hts]

theorem drop_eq_slice_append {tokens : List Token} {i b : Nat} (hib : i ≤ b) :
    tokens.drop i = slice tokens i b ++ tokens.drop b := by
  have h := List.take_append_drop (b - i) (tokens.drop i)
  rw [List.drop_drop, show i + (b - i) = b by omega] at h
  exact h.symm

theorem IsHeader.lt_of_slice {tokens : List Token} {i b : Nat} {ds : List Declaration}
    (h : IsHeader (slice tokens i b) ds) : i < b := by
  by_contra hle
  have hnil : slice tokens i b = [] := by simp [slice, show b - i = 0 by omega]
  rw [hnil] at h
  cases h

/-- A header is found at a place of a token list exactly if a sentence of the grammar stands
there. -/
theorem read_visible_eq_found_iff {tokens rest : List Token} {i : Nat} {letToken : Token}
    {header : Header} (hi : tokens[i]? = some letToken) (hlet : letToken.kind = .kwLet) :
    read letToken (visible (tokens.drop (i + 1))) = .found header rest ↔
      ∃ b ≤ tokens.length, IsHeader (slice tokens i b) header.declarations ∧
        header.tokens = slice tokens i b ∧ rest = visible (tokens.drop b) := by
  obtain ⟨hlt, rfl⟩ := List.getElem?_eq_some_iff.1 hi
  have hdrop : tokens.drop i = tokens[i] :: tokens.drop (i + 1) :=
    List.drop_eq_getElem_cons hlt
  have heof : tokens[i].isEof = false := by simp [Token.isEof, hlet]
  have hvisible : visible (tokens.drop i) = tokens[i] :: visible (tokens.drop (i + 1)) := by
    rw [hdrop, ← List.singleton_append, visible_append (by simpa using heof)]
    rfl
  rw [read_eq_found_iff hlet (noEof_visible _), ← hvisible]
  constructor
  · rintro ⟨hheader, hsplit⟩
    obtain ⟨hidden, htokens, hnil⟩ := exists_hidden (tokens.drop i)
    rw [hsplit, List.append_assoc] at htokens
    have hslice : slice tokens i (i + header.tokens.length) = header.tokens := by
      rw [slice, htokens, Nat.add_sub_cancel_left, List.take_left]
    have hlen : header.tokens.length ≤ tokens.length - i := by
      rw [← List.length_drop, htokens, List.length_append]
      omega
    have hrest : ∀ t ∈ rest, t.isEof = false :=
      fun t ht => noEof_visible (tokens.drop i) t (by simp [hsplit, ht])
    refine ⟨i + header.tokens.length, by omega, by rwa [hslice], hslice.symm, ?_⟩
    rw [← List.drop_drop, htokens, List.drop_left, visible_append hrest, hnil, List.append_nil]
  · rintro ⟨b, hb, hheader, htokens, rfl⟩
    refine ⟨by rwa [htokens], ?_⟩
    rw [drop_eq_slice_append hheader.lt_of_slice.le, htokens, visible_append hheader.noEof]

/-- A `let` followed by a parenthesis starts a header exactly where the grammar has one. There
is at most one, it raises nothing, and the parser goes on after its brace. Where there is none,
one diagnostic says why, and the parser keeps the `let` as a plain word, with nothing else
changed. -/
theorem read_recognizes_grammar (tokens : List Token) (i : Nat) (letToken : Token)
    (hi : tokens[i]? = some letToken) (hlet : letToken.kind = .kwLet)
    (hparen : (next? (tokens.drop (i + 1))).any isOpenParen = true) :
    (∀ header rest, read letToken (visible (tokens.drop (i + 1))) = .found header rest ↔
      ∃ b ≤ tokens.length, IsHeader (slice tokens i b) header.declarations ∧
        header.tokens = slice tokens i b ∧ rest = visible (tokens.drop b)) ∧
    (∀ b b' ds ds', b ≤ tokens.length → b' ≤ tokens.length →
      IsHeader (slice tokens i b) ds → IsHeader (slice tokens i b') ds' → b = b' ∧ ds = ds') ∧
    ((∀ b ds, b ≤ tokens.length → ¬ IsHeader (slice tokens i b) ds) ↔
      ∃ d, read letToken (visible (tokens.drop (i + 1))) = .faulty d ∧ d.code ∈ faultCodes) ∧
    (∀ p : Progress, p.afterDot = false →
      (∀ header rest, read letToken (visible (tokens.drop (i + 1))) = .found header rest →
        p.run (letToken :: visible (tokens.drop (i + 1))) =
          (p.openBlock letToken header).run rest ∧
          (p.openBlock letToken header).diagnostics = p.diagnostics) ∧
      (∀ d, read letToken (visible (tokens.drop (i + 1))) = .faulty d →
        p.run (letToken :: visible (tokens.drop (i + 1))) =
          ((p.noting [d]).append letToken).run
            (visible (tokens.drop (i + 1))))) := by
  refine ⟨fun header rest => read_visible_eq_found_iff hi hlet, ?_, ?_, ?_⟩
  · intro b b' ds ds' hb hb' h h'
    have hsplit : slice tokens i b ++ tokens.drop b = slice tokens i b' ++ tokens.drop b' := by
      rw [← drop_eq_slice_append h.lt_of_slice.le, ← drop_eq_slice_append h'.lt_of_slice.le]
    obtain ⟨hslice, hds⟩ := h.unique h' hsplit
    have hlen := congrArg List.length hslice
    simp only [slice, List.length_take, List.length_drop] at hlen
    have := h.lt_of_slice
    have := h'.lt_of_slice
    exact ⟨by omega, hds⟩
  · constructor
    · intro hnone
      cases hread : read letToken (visible (tokens.drop (i + 1))) with
      | absent =>
          rw [read_eq_absent_iff, next?_visible hparen] at hread
          cases hread
      | faulty d => exact ⟨d, rfl, code_of_read hread⟩
      | found header rest =>
          obtain ⟨b, hb, hheader, -⟩ := (read_visible_eq_found_iff hi hlet).1 hread
          exact absurd hheader (hnone b _ hb)
    · rintro ⟨d, hread, -⟩ b ds hb hheader
      have hfound : read letToken (visible (tokens.drop (i + 1))) =
          .found ⟨ds, slice tokens i b⟩ (visible (tokens.drop b)) :=
        (read_visible_eq_found_iff hi hlet).2 ⟨b, hb, hheader, rfl, rfl⟩
      rw [hread] at hfound
      cases hfound
  · intro p hdot
    refine ⟨fun header rest hread => ⟨Progress.run_of_found hlet hdot hread, rfl⟩, ?_⟩
    intro d hread
    rw [Progress.run_of_faulty hlet hdot hread,
      Progress.take_of_kind_ne_punct (by simp [hlet])]

def nestedCommaTokens : List Token :=
  [{ kind := .kwLet, lexeme := utf8 "let" }, { kind := .whitespace, lexeme := utf8 " " },
    { kind := .punct, lexeme := utf8 "(" }, { kind := .identifier, lexeme := utf8 "a" },
    { kind := .punct, lexeme := utf8 "=" }, { kind := .identifier, lexeme := utf8 "f" },
    { kind := .punct, lexeme := utf8 "(" }, { kind := .punct, lexeme := utf8 "," },
    { kind := .punct, lexeme := utf8 ")" }, { kind := .punct, lexeme := utf8 "," },
    { kind := .identifier, lexeme := utf8 "b" }, { kind := .punct, lexeme := utf8 "," },
    { kind := .punct, lexeme := utf8 ")" }, { kind := .punct, lexeme := utf8 "\x7b" },
    { kind := .eof, lexeme := [] }]

theorem read_recognizes_grammar_nestedComma :
    ∃ b ≤ nestedCommaTokens.length, ∃ ds, ds.length = 2 ∧
      IsHeader (slice nestedCommaTokens 0 b) ds := by
  have hgrammar := read_recognizes_grammar nestedCommaTokens 0 nestedCommaTokens[0] rfl rfl rfl
  have hlength : (match read nestedCommaTokens[0] (visible (nestedCommaTokens.drop 1)) with
      | .found header _ => header.declarations.length
      | _ => 0) = 2 := by
    decide +kernel
  split at hlength
  · next header rest hfound =>
    obtain ⟨b, hb, hheader, -⟩ := (hgrammar.1 header rest).1 hfound
    exact ⟨b, hb, header.declarations, hlength, hheader⟩
  · cases hlength

end LetBlocks.Header
