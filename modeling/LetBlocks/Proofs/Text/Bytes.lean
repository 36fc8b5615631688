import LetBlocks.Text
import Mathlib.Data.List.TakeWhile
import Mathlib.Tactic.Common

/-!
Blanks, digits and the other bytes of words exclude each other. A run of bytes of one class is
what `takeWhile` takes if the byte after it, should there be one, is not of that class.
-/

namespace LetBlocks

theorem utf8_injective : Function.Injective utf8 := by
  intro s t h
  exact String.toByteArray_inj.1 (ByteArray.ext (Array.toList_inj.1 h))

namespace Byte

def isNumeral (b : Byte) : Bool := b.isWord || b == dot

theorem isBlank_of_isWord {b : Byte} (h : b.isWord = true) : b.isBlank = false := by
  rw [Bool.eq_false_iff]
  intro hblank
  simp only [isBlank, isInlineBlank, isLineBreak, Bool.or_eq_true, beq_iff_eq] at hblank
  rcases hblank with (((rfl | rfl) | rfl) | rfl) | rfl | rfl <;> exact absurd h (by decide)

theorem isLineBreak_of_isInlineBlank {b : Byte} (h : b.isInlineBlank = true) :
    b.isLineBreak = false := by
  simp only [isInlineBlank, Bool.or_eq_true, beq_iff_eq] at h
  rcases h with ((rfl | rfl) | rfl) | rfl <;> rfl

theorem isBlank_eq_false_iff {b : Byte} :
    b.isBlank = false ↔ b.isInlineBlank = false ∧ b.isLineBreak = false := by
  simp [isBlank]

theorem isWord_eq_false_iff {b : Byte} :
    b.isWord = false ↔ b.isWordStart = false ∧ b.isDigit = false := by
  simp [isWord]

theorem isDigit_of_isWordStart {b : Byte} (h : b.isWordStart = true) : b.isDigit = false := by
  grind [isDigit, isWordStart, isLower, isUpper]

theorem isWord_of_isDigit {b : Byte} (h : b.isDigit = true) : b.isWord = true := by
  simp [isWord, h]

theorem isWord_of_isWordStart {b : Byte} (h : b.isWordStart = true) : b.isWord = true := by
  simp [isWord, h]

theorem isNumeral_of_isDigit {b : Byte} (h : b.isDigit = true) : b.isNumeral = true := by
  simp [isNumeral, isWord, h]

end Byte

namespace Text

/-- The first byte, if there is one, is not of the class `p`. -/
def Avoids (p : Byte → Bool) (text : Text) : Prop := text.head?.any p = false

@[simp] theorem avoids_nil (p : Byte → Bool) : Avoids p [] := rfl

@[simp] theorem avoids_cons {p : Byte → Bool} {b : Byte} {rest : Text} :
    Avoids p (b :: rest) ↔ p b = false := by
  simp [Avoids]

theorem Avoids.of_head? {p : Byte → Bool} {text text' : Text} (h : Avoids p text)
    (hhead : text'.head? = text.head?) : Avoids p text' := by
  rw [Avoids, hhead]
  exact h

theorem avoids_dropWhile (p : Byte → Bool) (text : Text) : Avoids p (text.dropWhile p) := by
  cases h : text.dropWhile p with
  | nil => rfl
  | cons b rest =>
      have hnot := List.head_dropWhile_not p (show text.dropWhile p ≠ [] by simp [h])
      simpa [h, Avoids] using hnot

theorem Avoids.append {p : Byte → Bool} {text rest : Text} (h : Avoids p text)
    (hrest : Avoids p rest) : Avoids p (text ++ rest) := by
  cases text with
  | nil => exact hrest
  | cons b text => exact h

theorem takeWhile_append_stop {p : Byte → Bool} {run rest : Text}
    (hrun : ∀ b ∈ run, p b = true) (hrest : Avoids p rest) :
    (run ++ rest).takeWhile p = run := by
  rw [List.takeWhile_append_of_pos hrun]
  cases rest with
  | nil => simp
  | cons b rest => simp_all

theorem dropWhile_append_stop {p : Byte → Bool} {run rest : Text}
    (hrun : ∀ b ∈ run, p b = true) (hrest : Avoids p rest) :
    (run ++ rest).dropWhile p = rest := by
  rw [List.dropWhile_append_of_pos hrun]
  cases rest with
  | nil => simp
  | cons b rest => simp_all

/-- A property of all bytes of a fixed text can be computed. -/
theorem forall_mem_of_all {p : Byte → Prop} [DecidablePred p] {text : Text}
    (h : text.all (fun b => decide (p b)) = true) : ∀ b ∈ text, p b := by
  intro b hb
  exact of_decide_eq_true (List.all_eq_true.1 h b hb)

/-- Every text begins with its longest run of a class. -/
theorem exists_run (p : Byte → Bool) (text : Text) :
    ∃ run rest, text = run ++ rest ∧ (∀ b ∈ run, p b = true) ∧ Avoids p rest :=
  ⟨text.takeWhile p, text.dropWhile p, List.takeWhile_append_dropWhile.symm,
    fun _ hb => List.mem_takeWhile_imp hb, avoids_dropWhile p text⟩

end Text

end LetBlocks
