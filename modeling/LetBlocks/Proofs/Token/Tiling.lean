import LetBlocks.Proofs.Report.Recording
import LetBlocks.Proofs.Token.Basic
import LetBlocks.Token.Lexer

/-!
Whatever regions the lexer is given, the lexemes of the tokens it cuts, one after another, are
the text. Cutting is done with an accumulator; `Piece.codePieces` is the same without one, and
the other lemmas are about it.
-/

namespace LetBlocks

namespace Piece

def spell (pieces : List Piece) : Text := pieces.flatMap lexeme

@[simp] theorem spell_nil : spell [] = [] := rfl

@[simp] theorem spell_cons (p : Piece) (ps : List Piece) :
    spell (p :: ps) = p.lexeme ++ spell ps := by
  simp [spell]

@[simp] theorem spell_append (ps qs : List Piece) :
    spell (ps ++ qs) = spell ps ++ spell qs := by
  simp [spell]

/-! ### Code -/

def codePieces (text : Text) : List Piece := (cutCode #[] text).toList

theorem toList_cutCode (done : Array Piece) (text : Text) :
    (cutCode done text).toList = done.toList ++ codePieces text := by
  induction hlen : text.length using Nat.strong_induction_on generalizing done text with
  | _ n ih =>
      cases text with
      | nil => simp [codePieces, cutCode]
      | cons b rest =>
          have hlt : (rest.drop (leading b rest).2).length < n := by
            simp only [← hlen, List.length_drop, List.length_cons]
            omega
          rw [codePieces, cutCode, cutCode, ih _ hlt _ _ rfl, ih _ hlt _ _ rfl]
          simp

@[simp] theorem codePieces_nil : codePieces [] = [] := by
  simp [codePieces, cutCode]

theorem codePieces_cons (b : Byte) (rest : Text) :
    codePieces (b :: rest) =
      { kind := (leading b rest).1, lexeme := b :: rest.take (leading b rest).2 } ::
        codePieces (rest.drop (leading b rest).2) := by
  rw [codePieces, cutCode, toList_cutCode]
  simp

theorem leading_kind_ne_eof (b : Byte) (rest : Text) : (leading b rest).1 ≠ .eof := by
  unfold leading
  dsimp only
  split_ifs <;> simp

/-- What every cutting yields: pieces that are not empty and not ends of input, and that spell
the text. -/
def Tiles (pieces : List Piece) (text : Text) : Prop :=
  spell pieces = text ∧ ∀ p ∈ pieces, p.kind ≠ .eof ∧ p.lexeme ≠ []

theorem Tiles.append {ps qs : List Piece} {text text' : Text} (h : Tiles ps text)
    (h' : Tiles qs text') : Tiles (ps ++ qs) (text ++ text') := by
  refine ⟨by simp [h.1, h'.1], ?_⟩
  rw [List.forall_mem_append]
  exact ⟨h.2, h'.2⟩

theorem tiles_codePieces (text : Text) : Tiles (codePieces text) text := by
  induction hlen : text.length using Nat.strong_induction_on generalizing text with
  | _ n ih =>
      cases text with
      | nil => exact ⟨by simp, by simp⟩
      | cons b rest =>
          have hlt : (rest.drop (leading b rest).2).length < n := by
            simp only [← hlen, List.length_drop, List.length_cons]
            omega
          obtain ⟨hspell, hkinds⟩ := ih _ hlt _ rfl
          rw [codePieces_cons]
          refine ⟨by simp [hspell], ?_⟩
          rw [List.forall_mem_cons]
          exact ⟨⟨leading_kind_ne_eof b rest, by simp⟩, hkinds⟩

/-! ### Regions -/

def regionPieces (region : Region) (text : Text) : List Piece :=
  match Token.Kind.ofRegion? region.kind with
  | none => codePieces text
  | some kind => [{ kind, lexeme := text, closed := region.closed }]

theorem tiles_regionPieces (region : Region) {text : Text} (h : text ≠ []) :
    Tiles (regionPieces region text) text := by
  unfold regionPieces
  split
  · exact tiles_codePieces text
  · next kind hkind =>
    refine ⟨by simp, ?_⟩
    rw [List.forall_mem_singleton]
    refine ⟨?_, h⟩
    rintro rfl
    cases hregion : region.kind <;> simp [hregion, Token.Kind.ofRegion?] at hkind

/-- One round of the loop over regions, for a region that has something left to claim. -/
theorem cutFrom_cons {length pos : Nat} {rest : Text} {done : Array Piece} {region : Region}
    {regions : List Region} (h : ¬ min region.stop length ≤ max region.start pos) :
    cutFrom length pos rest done (region :: regions) =
      cutFrom length (min region.stop length)
        ((rest.drop (max region.start pos - pos)).drop
          (min region.stop length - max region.start pos))
        (done ++ codePieces (rest.take (max region.start pos - pos)) ++
          regionPieces region ((rest.drop (max region.start pos - pos)).take
            (min region.stop length - max region.start pos)))
        regions := by
  rw [cutFrom]
  simp only [if_neg h]
  congr 1
  apply Array.ext'
  unfold regionPieces
  cases Token.Kind.ofRegion? region.kind with
  | none => simp [toList_cutCode]
  | some kind => simp [toList_cutCode]

theorem tiles_cutFrom {length pos : Nat} {rest : Text} {done : Array Piece}
    {regions : List Region} (hlength : length = pos + rest.length) :
    ∃ pieces, (cutFrom length pos rest done regions).toList = done.toList ++ pieces ∧
      Tiles pieces rest := by
  induction regions generalizing pos rest done with
  | nil => exact ⟨codePieces rest, toList_cutCode done rest, tiles_codePieces rest⟩
  | cons region regions ih =>
      by_cases h : min region.stop length ≤ max region.start pos
      · rw [cutFrom]
        simp only [if_pos h]
        exact ih hlength
      · rw [cutFrom_cons h]
        generalize hstart : max region.start pos = start at *
        generalize hstop : min region.stop length = stop at *
        obtain ⟨pieces, hpieces, htiles⟩ :=
          @ih stop ((rest.drop (start - pos)).drop (stop - start))
            (done ++ codePieces (rest.take (start - pos)) ++
              regionPieces region ((rest.drop (start - pos)).take (stop - start)))
            (by simp only [List.length_drop]; omega)
        have hne : (rest.drop (start - pos)).take (stop - start) ≠ [] := by
          apply List.ne_nil_of_length_pos
          simp only [List.length_take, List.length_drop]
          omega
        refine ⟨_, by simpa using hpieces, ?_⟩
        have hcode := tiles_codePieces (rest.take (start - pos))
        have hall := hcode.append ((tiles_regionPieces region hne).append htiles)
        rwa [List.take_append_drop, List.take_append_drop] at hall

theorem tiles_cut (text : Text) (regions : List Region) : Tiles (cut text regions) text := by
  obtain ⟨pieces, hpieces, htiles⟩ :=
    @tiles_cutFrom text.length 0 text #[] regions (by simp)
  rw [cut, hpieces]
  simpa using htiles

end Piece

namespace Token

def toPiece (t : Token) : Piece := { kind := t.kind, lexeme := t.lexeme }

@[simp] theorem toPiece_kind (t : Token) : t.toPiece.kind = t.kind := rfl

@[simp] theorem toPiece_lexeme (t : Token) : t.toPiece.lexeme = t.lexeme := rfl

theorem spell_map_toPiece (ts : List Token) : Piece.spell (ts.map toPiece) = join ts := by
  simp [Piece.spell, join, List.flatMap_map]

end Token

/-! ### Places -/

namespace Piece

def place (source : Source) (pos : Nat) (p : Piece) : Token :=
  { kind := p.kind, lexeme := p.lexeme, span := source.span pos (pos + p.lexeme.length) }

/-- The pieces as tokens, the first one at `pos`, each with whether it is an open literal. -/
def placed (source : Source) : Nat → List Piece → List (Token × Bool)
  | _, [] => []
  | pos, p :: ps => (p.place source pos, p.isOpen) :: placed source (pos + p.lexeme.length) ps

/-- Placing the pieces changes neither their kinds nor their lexemes, nor which of them are
open. -/
theorem map_placed (source : Source) (pos : Nat) (pieces : List Piece) :
    (placed source pos pieces).map (fun t => (t.1.toPiece, t.2)) =
      pieces.map fun p => ({ p with closed := true }, p.isOpen) := by
  induction pieces generalizing pos with
  | nil => rfl
  | cons p pieces ih =>
      rw [placed, List.map_cons, ih]
      rfl

end Piece

namespace Token

open Piece

/-- What the lexer reports about a token, given whether it is an open literal. -/
def report? (t : Token × Bool) : Option Diagnostic :=
  if t.2 then some ((Problem.openLiteral t.1.kind t.1.span.start.line).diagnostic t.1.span)
  else none

/-- Whatever the journal holds, the lexer puts behind it what it reports. -/
theorem locate_eq (source : Source) (pos : Nat) (done : Array Token) (journal : Journal)
    (pieces : List Piece) :
    locate source pos done journal pieces =
      (done ++ ((placed source pos pieces).map Prod.fst).toArray,
        journal.recordAll ((placed source pos pieces).filterMap report?)) := by
  induction pieces generalizing pos done journal with
  | nil => simp [locate, placed]
  | cons p pieces ih =>
      rw [locate, ih, placed, List.map_cons, List.filterMap_cons]
      cases hopen : p.isOpen <;>
        simp [report?, place, Journal.recordAll, Journal.warn_eq_record]

theorem map_filed_reports (ts : List (Token × Bool)) :
    (ts.filterMap report?).map Diagnostic.filed = ts.filterMap report? := by
  have hfiled : ∀ t, (report? t).map Diagnostic.filed = report? t := by
    intro t
    unfold report?
    split <;> simp
  rw [List.map_filterMap, funext hfiled]

theorem tokens_lexAlong (source : Source) (regions : List Region) :
    (lexAlong source regions).tokens =
      (placed source 0 (cut source.content regions)).map Prod.fst ++ [endOf source] := by
  simp [lexAlong, Journal.lexAlong, locate_eq]

theorem diagnostics_lexAlong (source : Source) (regions : List Region) :
    (lexAlong source regions).diagnostics =
      (placed source 0 (cut source.content regions)).filterMap report? := by
  rw [lexAlong, Journal.lexAlong, locate_eq]
  exact (Journal.toList_recordAll _ _).trans (map_filed_reports _)

/-- The lexer cuts a source in the same way with any journal, and puts the same reports behind
what the journal holds. -/
theorem journal_lexAlong (journal : Journal) (source : Source) (regions : List Region) :
    journal.lexAlong source regions =
      ((lexAlong source regions).tokens,
        journal.recordAll (lexAlong source regions).diagnostics) := by
  rw [diagnostics_lexAlong, tokens_lexAlong, Journal.lexAlong, locate_eq]
  simp

/-- The tokens of a source, without the last one, are the pieces cut from it. -/
theorem exists_lexAlong (source : Source) (regions : List Region) :
    ∃ ts, (lexAlong source regions).tokens = ts ++ [endOf source] ∧
      (lexAlong source regions).tokens.takeWhile (!·.isEof) = ts ∧
      ts.map toPiece =
        (Piece.cut source.content regions).map fun p => { p with closed := true } := by
  have hpieces :=
    congrArg (List.map Prod.fst) (map_placed source 0 (cut source.content regions))
  obtain ⟨ts, htokens⟩ : ∃ ts, (lexAlong source regions).tokens = ts ++ [endOf source] ∧
      ts.map toPiece =
        (Piece.cut source.content regions).map fun p => { p with closed := true } :=
    ⟨_, tokens_lexAlong source regions, by simpa [Function.comp_def] using hpieces⟩
  have heof : ∀ t ∈ ts, (!t.isEof) = true := by
    intro t ht
    have hmem := List.mem_map_of_mem (f := toPiece) ht
    rw [htokens.2, List.mem_map] at hmem
    obtain ⟨p, hp, hpt⟩ := hmem
    have hkind : p.kind = t.kind := congrArg Piece.kind hpt
    simpa [isEof, ← hkind] using ((Piece.tiles_cut source.content regions).2 p hp).1
  refine ⟨ts, htokens.1, ?_, htokens.2⟩
  rw [htokens.1, List.takeWhile_append_of_pos heof]
  simp [endOf, isEof]

/-- The lexer has something to report exactly if a literal is open. -/
theorem diagnostics_lexAlong_eq_nil_iff {source : Source} {regions : List Region} :
    (lexAlong source regions).diagnostics = [] ↔
      ∀ p ∈ Piece.cut source.content regions, p.isOpen = false := by
  have hopen := congrArg (List.map Prod.snd) (map_placed source 0 (cut source.content regions))
  simp only [List.map_map, Function.comp_def] at hopen
  have hnone : ∀ t : Token × Bool, report? t = none ↔ t.2 = false := by simp [report?]
  rw [diagnostics_lexAlong, List.filterMap_eq_nil_iff]
  simp only [hnone]
  rw [← List.forall_mem_map (P := (· = false)), hopen, List.forall_mem_map]

/-- What precedes the end of input, for any regions, spells the whole content. -/
theorem join_takeWhile_lexAlong (source : Source) (regions : List Region) :
    join ((lexAlong source regions).tokens.takeWhile (!·.isEof)) = source.content := by
  obtain ⟨ts, -, htokens, hpieces⟩ := exists_lexAlong source regions
  obtain ⟨hspell, -⟩ := Piece.tiles_cut source.content regions
  rw [htokens, ← spell_map_toPiece, hpieces]
  simpa [Piece.spell, List.flatMap_map] using hspell

end Token

end LetBlocks
