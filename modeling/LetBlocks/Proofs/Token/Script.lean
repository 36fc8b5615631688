import LetBlocks.Proofs.Token.Seams

/-!
A script is a run of pieces at whose beginning an operand is expected. Only its first line can
be an exception: one that starts with `#!` is a comment. The lexer finds exactly the pieces of
such a run in its text.
-/

namespace LetBlocks

open Region

namespace Piece

/-- A first line that starts with `#!`. -/
def IsHashbang (p : Piece) : Prop :=
  p.kind = .lineComment ∧ utf8 "#!" <+: p.lexeme ∧ ∀ b ∈ p.lexeme, b.isLineBreak = false

inductive Script : List Piece → Prop
  | plain {ps : List Piece} : ¬ utf8 "#!" <+: spell ps → Chain .operand ps [] → Script ps
  | hashbang {p : Piece} {ps : List Piece} :
      p.IsHashbang → p.Admits (spell ps) → Chain .operand ps [] → Script (p :: ps)

theorem IsHashbang.not_isUnclosed {p : Piece} (h : p.IsHashbang) : p.isUnclosed = false := by
  obtain ⟨-, ⟨more, hlexeme⟩, -⟩ := h
  have hnone : readLiteral? .operand ⟨0, p.lexeme⟩ = none := by
    rw [← hlexeme]
    exact readLiteral?_of_not_opensLiteral (by decide) .operand 0 _
  simp [isUnclosed, hnone]

theorem IsHashbang.admits_iff {p : Piece} (h : p.IsHashbang) {text : Text} :
    p.Admits text ↔ Text.Avoids (!·.isLineBreak) text := by
  rw [Admits, bars_of_not_isUnclosed h.not_isUnclosed]
  have hjoins : p.joins = (!·.isLineBreak) := by
    funext b
    simp [joins, h.1]
  rw [hjoins]

theorem Script.exists_reads {ps : List Piece} (h : Script ps) :
    ∀ p ∈ ps, p.IsHashbang ∨ ∃ expect rest, Reads expect p rest := by
  cases h with
  | plain _ hchain => exact fun p hp => .inr (hchain.exists_reads p hp)
  | hashbang hbang _ hchain =>
      exact List.forall_mem_cons.2 ⟨.inl hbang, fun p hp => .inr (hchain.exists_reads p hp)⟩

theorem Script.lexeme_of_kwLet {ps : List Piece} (h : Script ps) :
    ∀ p ∈ ps, p.kind = .kwLet → p.lexeme = utf8 "let" := by
  intro p hp hkind
  rcases h.exists_reads p hp with hbang | ⟨_, _, hread⟩
  · cases hbang.1.symm.trans hkind
  · exact hread.lexeme_of_kwLet hkind

theorem Script.not_isUnclosed_of_lineComment {ps : List Piece} (h : Script ps) :
    ∀ p ∈ ps, p.kind = .lineComment → p.isUnclosed = false := by
  intro p hp hkind
  rcases h.exists_reads p hp with hbang | ⟨_, _, hread⟩
  · exact hbang.not_isUnclosed
  · exact hread.not_isUnclosed_of_lineComment hkind

theorem streamFrom_spell {expect : Expectation} {ps : List Piece} (h : Chain expect ps []) :
    streamFrom expect (spell ps) = ps.map settled := by
  simpa using streamFrom_of_chain h

theorem stream_spell {ps : List Piece} (h : Script ps) :
    stream (spell ps) = ps.map settled := by
  cases h with
  | plain hnot hchain =>
      rw [stream, if_neg (by simpa using hnot), streamFrom_spell hchain]
  | @hashbang p ps hp hadmits hchain =>
      have hend := hp.admits_iff.1 hadmits
      have hclosed := hp.not_isUnclosed
      obtain ⟨kind, lexeme, closed⟩ := p
      obtain ⟨rfl, hstart, hline⟩ := hp
      have hline' : ∀ b ∈ lexeme, (!b.isLineBreak) = true := by simpa using hline
      rw [stream, spell_cons, if_pos (by simpa using hstart.trans (List.prefix_append _ _)),
        Text.takeWhile_append_stop hline' hend, Text.dropWhile_append_stop hline' hend,
        streamFrom_spell hchain, List.map_cons, settled, hclosed]
      rfl

theorem spell_stream (text : Text) : spell (stream text) = text := by
  unfold stream
  split_ifs
  · rw [spell_cons, spell_streamFrom, List.takeWhile_append_dropWhile]
  · exact spell_streamFrom _ _

theorem script_stream (text : Text) : Script (stream text) := by
  unfold stream
  split_ifs with hstart
  · have hbang : IsHashbang
        { kind := .lineComment, lexeme := text.takeWhile (!·.isLineBreak) } := by
      refine ⟨rfl, ?_, fun b hb => ?_⟩
      · obtain ⟨more, rfl⟩ := List.isPrefixOf_iff_prefix.1 hstart
        exact ⟨more.takeWhile (!·.isLineBreak), rfl⟩
      · simpa using List.mem_takeWhile_imp hb
    refine .hashbang hbang (hbang.admits_iff.2 ?_) (chain_streamFrom _ _)
    rw [spell_streamFrom]
    exact Text.avoids_dropWhile _ _
  · refine .plain ?_ (chain_streamFrom _ _)
    rw [spell_streamFrom]
    simpa using hstart

/-- The pieces of a text are closed as they are on their own. -/
theorem map_settled_stream (text : Text) : (stream text).map settled = stream text := by
  rw [← stream_spell (script_stream text), spell_stream]

theorem closed_of_mem_stream {text : Text} : ∀ p ∈ stream text, p.closed = !p.isUnclosed := by
  intro p hp
  rw [← map_settled_stream] at hp
  obtain ⟨q, -, rfl⟩ := List.mem_map.1 hp
  rfl

/-! ### Whether pieces are said to be closed does not matter -/

section Closed

variable {f : Piece → Bool}

theorem spell_map_closed (ps : List Piece) :
    spell (ps.map fun p => { p with closed := f p }) = spell ps := by
  simp [spell, List.flatMap_map]

theorem chain_map_closed {expect : Expectation} {ps : List Piece} {rest : Text} :
    Chain expect (ps.map fun p => { p with closed := f p }) rest ↔ Chain expect ps rest := by
  induction ps generalizing expect with
  | nil => rfl
  | cons p ps ih =>
      rw [List.map_cons, Chain, Chain, spell_map_closed, ih]
      rfl

theorem script_map_closed {ps : List Piece} :
    Script (ps.map fun p => { p with closed := f p }) ↔ Script ps := by
  constructor
  · intro h
    generalize hqs : (ps.map fun p => { p with closed := f p }) = qs at h
    cases h with
    | plain hnot hchain =>
        subst hqs
        exact .plain (by rwa [spell_map_closed] at hnot) (chain_map_closed.1 hchain)
    | hashbang hbang hadmits hchain =>
        obtain ⟨p, ps, rfl, rfl, rfl⟩ := List.map_eq_cons_iff.1 hqs
        rw [spell_map_closed] at hadmits
        exact .hashbang hbang hadmits (chain_map_closed.1 hchain)
  · intro h
    cases h with
    | plain hnot hchain => exact .plain (by rwa [spell_map_closed]) (chain_map_closed.2 hchain)
    | hashbang hbang hadmits hchain =>
        refine .hashbang hbang ?_ (chain_map_closed.2 hchain)
        rwa [spell_map_closed]

end Closed

/-- Pieces are found in their text exactly if they make up a script. -/
theorem script_iff {ps : List Piece} : Script ps ↔ stream (spell ps) = ps.map settled := by
  refine ⟨stream_spell, fun h => ?_⟩
  have hscript := script_stream (spell ps)
  rw [h] at hscript
  exact script_map_closed.1 hscript

end Piece

namespace Token

/-- The tokens of a source before its end are the pieces of its text, but do not say which of
them are closed. They make up a script all the same. -/
theorem exists_lex_script (source : Source) :
    ∃ ts, (lex source).tokens = ts ++ [endOf source] ∧
      (lex source).tokens.takeWhile (!·.isEof) = ts ∧
      ts.map toPiece = (Piece.stream source.content).map (fun p => { p with closed := true }) ∧
      Piece.Script (ts.map toPiece) := by
  obtain ⟨ts, htokens, hbefore, hpieces⟩ := exists_lexAlong source (Region.scan source.content)
  rw [Piece.cut_scan] at hpieces
  refine ⟨ts, htokens, hbefore, hpieces, ?_⟩
  rw [hpieces]
  exact Piece.script_map_closed.2 (Piece.script_stream _)

/-- The lexer has nothing to report exactly if all pieces of its text are closed. -/
theorem diagnostics_lex_eq_nil_iff {text : Text} :
    (lex (Source.ofText text)).diagnostics = [] ↔
      ∀ p ∈ Piece.stream text, p.closed = true := by
  rw [lex, diagnostics_lexAlong_eq_nil_iff, Source.ofText, Piece.cut_scan]
  refine forall₂_congr fun p hp => ?_
  have hclosed := Piece.closed_of_mem_stream p hp
  by_cases hline : p.kind = .lineComment
  · simp [Piece.isOpen, hclosed,
      (Piece.script_stream text).not_isUnclosed_of_lineComment p hp hline]
  · simp [Piece.isOpen, hline]

/-- The tokens of a text whose pieces are closed are these pieces, and the end of input. -/
theorem exists_lex {text : Text} (h : ∀ p ∈ Piece.stream text, p.closed = true) :
    ∃ ts, (lex (Source.ofText text)).tokens = ts ++ [endOf (Source.ofText text)] ∧
      (lex (Source.ofText text)).tokens.takeWhile (!·.isEof) = ts ∧
      ts.map toPiece = Piece.stream text := by
  obtain ⟨ts, htokens, hbefore, hpieces, -⟩ := exists_lex_script (Source.ofText text)
  refine ⟨ts, htokens, hbefore, ?_⟩
  rw [hpieces, Source.ofText]
  refine (List.map_congr_left fun p hp => ?_).trans (List.map_id _)
  rw [id, ← h p hp]

end Token

end LetBlocks
