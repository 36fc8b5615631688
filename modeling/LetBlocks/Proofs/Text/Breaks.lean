import LetBlocks.Proofs.Text.Bytes
import Mathlib.Data.List.Range

/-!
A line break is an LF, a CR LF or a CR that no LF follows. What matters of it is where it ends,
since there the next line begins; `Text.endsBreak` says where that is, by looking at the two
bytes around an offset. The breaks of a text are those of its parts, unless it is taken apart
between a CR and an LF.
-/

namespace LetBlocks.Text

/-- Does a line break end in front of the offset `e`? An LF ends one, and so does a CR unless
an LF follows. -/
def endsBreak (text : Text) : Nat → Bool
  | 0 => false
  | i + 1 =>
    text[i]? == some Byte.lf || (text[i]? == some Byte.cr && text[i + 1]? != some Byte.lf)

def breakEnds (text : Text) : List Nat := (List.range' 1 text.length).filter text.endsBreak

/-- No CR LF is taken apart between the two texts. -/
def Seamless (text rest : Text) : Prop :=
  text.getLast? = some Byte.cr → rest.head? ≠ some Byte.lf

theorem seamless_nil (rest : Text) : Seamless [] rest :=
  fun hlast => absurd hlast.symm (Option.some_ne_none _)

theorem seamless_nil_right (text : Text) : Seamless text [] :=
  fun _ hhead => Option.some_ne_none _ hhead.symm

theorem Seamless.append {text more rest : Text} (h : Seamless text (more ++ rest))
    (hmore : Seamless more rest) : Seamless (text ++ more) rest := by
  intro hlast
  cases more with
  | nil => exact h (by simpa using hlast)
  | cons b more => exact hmore (by simpa [List.getLast?_append] using hlast)

theorem Seamless.left {text more rest : Text} (h : Seamless text (more ++ rest)) :
    Seamless text more := by
  cases more with
  | nil => exact seamless_nil_right text
  | cons b more => exact h

theorem seamless_concat (text : Text) {b : Byte} (hb : b ≠ Byte.cr) (rest : Text) :
    Seamless (text ++ [b]) rest := by
  intro hlast
  rw [List.getLast?_concat, Option.some.injEq] at hlast
  exact absurd hlast hb

/-- Bytes of a class that neither CR nor LF belongs to. -/
theorem inLine_of_forall {p : Byte → Bool} {text : Text} (h : ∀ b ∈ text, p b = true)
    (hcr : p Byte.cr = false) (hlf : p Byte.lf = false) :
    ∀ b ∈ text, b.isLineBreak = false := by
  intro b hb
  rw [Bool.eq_false_iff]
  intro hbreak
  simp only [Byte.isLineBreak, Bool.or_eq_true, beq_iff_eq] at hbreak
  rcases hbreak with rfl | rfl
  · exact Bool.false_ne_true (hlf.symm.trans (h _ hb))
  · exact Bool.false_ne_true (hcr.symm.trans (h _ hb))

theorem seamless_of_inLine {text : Text} (h : ∀ b ∈ text, b.isLineBreak = false)
    (rest : Text) : Seamless text rest := by
  intro hlast
  exact absurd (h _ (List.mem_of_getLast? hlast)) (by decide)

/-! ### Where the breaks of two texts end -/

theorem endsBreak_of_le {text : Text} {e : Nat} (h : text.endsBreak e = true) :
    1 ≤ e ∧ e ≤ text.length := by
  cases e with
  | zero => cases h
  | succ i =>
      refine ⟨Nat.succ_pos i, ?_⟩
      by_contra hlt
      have hnone : text[i]? = none := List.getElem?_eq_none (by omega)
      simp [endsBreak, hnone] at h

theorem mem_breakEnds {text : Text} {e : Nat} :
    e ∈ text.breakEnds ↔ text.endsBreak e = true := by
  rw [breakEnds, List.mem_filter, List.mem_range'_1]
  refine ⟨fun h => h.2, fun h => ⟨?_, h⟩⟩
  have := endsBreak_of_le h
  omega

theorem pairwise_breakEnds (text : Text) : text.breakEnds.Pairwise (· < ·) :=
  List.Pairwise.filter _ List.pairwise_lt_range'

/-- In front of a seam the breaks are those of the text before it. -/
theorem endsBreak_append_left {text rest : Text} (h : Seamless text rest) {e : Nat}
    (he : e ≤ text.length) : (text ++ rest).endsBreak e = text.endsBreak e := by
  cases e with
  | zero => rfl
  | succ i =>
      rw [endsBreak, endsBreak, List.getElem?_append_left he]
      rcases Nat.lt_or_eq_of_le he with hlt | heq
      · rw [List.getElem?_append_left hlt]
      · have hlast : text.getLast? = text[i]? := by
          rw [List.getLast?_eq_getElem?, ← heq]
          rfl
        have hnone : text[i + 1]? = none := List.getElem?_eq_none (Nat.le_of_eq heq.symm)
        have hhead : (text ++ rest)[i + 1]? = rest.head? := by
          rw [List.getElem?_append_right (Nat.le_of_eq heq.symm), heq, Nat.sub_self,
            List.head?_eq_getElem?]
        rw [Seamless, hlast] at h
        rw [hhead, hnone]
        by_cases hcr : text[i]? = some Byte.cr
        · rw [bne_iff_ne.2 (h hcr), bne_iff_ne.2 (Option.some_ne_none Byte.lf).symm]
        · rw [beq_false_of_ne hcr, Bool.false_and, Bool.false_and]

theorem endsBreak_append_right (text rest : Text) {e : Nat} (he : 1 ≤ e) :
    (text ++ rest).endsBreak (text.length + e) = rest.endsBreak e := by
  cases e with
  | zero => omega
  | succ i =>
      rw [← Nat.add_assoc, endsBreak, endsBreak, Nat.add_assoc,
        List.getElem?_append_right (by omega), List.getElem?_append_right (by omega)]
      simp

theorem breakEnds_append {text rest : Text} (h : Seamless text rest) :
    (text ++ rest).breakEnds = text.breakEnds ++ rest.breakEnds.map (text.length + ·) := by
  have hleft : (List.range' 1 text.length).filter (text ++ rest).endsBreak =
      text.breakEnds := by
    refine List.filter_congr fun e he => endsBreak_append_left h ?_
    rw [List.mem_range'_1] at he
    omega
  have hright : (List.range' (1 + text.length) rest.length).filter (text ++ rest).endsBreak =
      rest.breakEnds.map (text.length + ·) := by
    rw [Nat.add_comm, ← List.map_add_range', List.filter_map, breakEnds]
    refine congrArg _ (List.filter_congr fun e he => endsBreak_append_right text rest ?_)
    exact (List.mem_range'_1.1 he).1
  rw [breakEnds, List.length_append, ← List.range'_append_1, List.filter_append, hleft, hright]

theorem breakEnds_cons (b : Byte) (rest : Text) :
    breakEnds (b :: rest) =
      (if endsBreak (b :: rest) 1 then [1] else []) ++ rest.breakEnds.map (1 + ·) := by
  have hrest : (List.range' 2 rest.length).filter (endsBreak (b :: rest)) =
      rest.breakEnds.map (1 + ·) := by
    rw [← List.map_add_range' 1, List.filter_map, breakEnds]
    refine congrArg _ (List.filter_congr fun e he => endsBreak_append_right [b] rest ?_)
    exact (List.mem_range'_1.1 he).1
  rw [breakEnds, List.length_cons, List.range'_succ, List.filter_cons, hrest]
  split_ifs <;> rfl

theorem breakEnds_of_inLine {text : Text} (h : ∀ b ∈ text, b.isLineBreak = false) :
    text.breakEnds = [] := by
  rw [breakEnds, List.filter_eq_nil_iff]
  intro e _ hends
  cases e with
  | zero => cases hends
  | succ i =>
      simp only [endsBreak, Bool.or_eq_true, Bool.and_eq_true, beq_iff_eq] at hends
      rcases hends with hlf | ⟨hcr, -⟩
      · exact absurd (h _ (List.mem_of_getElem? hlf)) (by decide)
      · exact absurd (h _ (List.mem_of_getElem? hcr)) (by decide)

/-! ### Lines -/

def IsBreak (mark rest : Text) : Prop :=
  mark = [Byte.lf] ∨ mark = [Byte.cr, Byte.lf] ∨ (mark = [Byte.cr] ∧ rest.head? ≠ some Byte.lf)

namespace IsBreak

variable {mark rest : Text}

theorem seamless (h : IsBreak mark rest) : Seamless mark rest := by
  rcases h with rfl | rfl | ⟨rfl, hrest⟩
  · exact fun hlast => absurd hlast (by decide)
  · exact fun hlast => absurd hlast (by decide)
  · exact fun _ => hrest

theorem breakEnds_eq (h : IsBreak mark rest) : mark.breakEnds = [mark.length] := by
  rcases h with rfl | rfl | ⟨rfl, -⟩ <;> rfl

theorem length_pos (h : IsBreak mark rest) : 0 < mark.length := by
  rcases h with rfl | rfl | ⟨rfl, -⟩ <;> decide

theorem exists_cons (h : IsBreak mark rest) :
    ∃ b more, mark = b :: more ∧ b.isLineBreak = true := by
  rcases h with rfl | rfl | ⟨rfl, -⟩ <;> exact ⟨_, _, rfl, rfl⟩

end IsBreak

/-- A text that begins with a byte of a line break begins with a line break. -/
theorem exists_isBreak {b : Byte} (hb : b.isLineBreak = true) (text : Text) :
    ∃ mark rest, b :: text = mark ++ rest ∧ IsBreak mark rest := by
  simp only [Byte.isLineBreak, Bool.or_eq_true, beq_iff_eq] at hb
  rcases hb with rfl | rfl
  · exact ⟨[Byte.lf], text, rfl, .inl rfl⟩
  · by_cases hlf : text.head? = some Byte.lf
    · obtain ⟨rest, rfl⟩ := List.head?_eq_some_iff.1 hlf
      exact ⟨[Byte.cr, Byte.lf], rest, rfl, .inr (.inl rfl)⟩
    · exact ⟨[Byte.cr], text, rfl, .inr (.inr ⟨rfl, hlf⟩)⟩

/-- The lines of a text, and the breaks between them. -/
inductive Splits : Text → List Text → List Text → Prop
  | last {line : Text} (hline : ∀ b ∈ line, b.isLineBreak = false) : Splits line [line] []
  | more {line mark rest : Text} {lines marks : List Text}
      (hline : ∀ b ∈ line, b.isLineBreak = false)
      (hmark : IsBreak mark rest) (hrest : Splits rest lines marks) :
      Splits (line ++ (mark ++ rest)) (line :: lines) (mark :: marks)

theorem exists_splits (text : Text) : ∃ lines marks, Splits text lines marks := by
  induction hlen : text.length using Nat.strong_induction_on generalizing text with
  | _ n ih =>
      obtain ⟨line, rest, rfl, hline, hrest⟩ := exists_run (!·.isLineBreak) text
      have hline : ∀ b ∈ line, b.isLineBreak = false := by simpa using hline
      cases rest with
      | nil =>
          rw [List.append_nil]
          exact ⟨_, _, .last hline⟩
      | cons b rest =>
          obtain ⟨mark, rest, hsplit, hmark⟩ := exists_isBreak (by simpa using hrest) rest
          have hpos := hmark.length_pos
          rw [hsplit, List.length_append, List.length_append] at hlen
          obtain ⟨lines, marks, hlines⟩ := ih rest.length (by omega) rest rfl
          rw [hsplit]
          exact ⟨_, _, .more hline hmark hlines⟩

/-- Behind a line and its break, the breaks are those of the rest. -/
theorem breakEnds_line {line mark rest : Text} (hline : ∀ b ∈ line, b.isLineBreak = false)
    (hmark : IsBreak mark rest) :
    (line ++ (mark ++ rest)).breakEnds =
      (line.length + mark.length) :: rest.breakEnds.map (line.length + mark.length + ·) := by
  rw [breakEnds_append (seamless_of_inLine hline _), breakEnds_append hmark.seamless,
    breakEnds_of_inLine hline, hmark.breakEnds_eq]
  simp [Function.comp_def, Nat.add_assoc]

end LetBlocks.Text
