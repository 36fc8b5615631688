import LetBlocks.Proofs.Source.Lines
import Mathlib.Data.List.Perm.Subperm

/-!
A place is found by a search in the table of line starts. The line of an offset counts the line
breaks that end at or before it, and its column is the distance from the last of them. Lines
and columns grow with the offset, so that a place stands for one offset only, and a byte is
found again at its place in its line.
-/

namespace LetBlocks

/-! ### The search -/

/-- A search by halving finds the bound up to which the numbers are at most `x`. -/
theorem Source.countUpTo_eq {starts : Array Nat} {x bound : Nat} (lo hi : Nat)
    (hlo : lo ≤ bound) (hhi : bound ≤ hi) (hbelow : ∀ i < bound, starts.getD i 0 ≤ x)
    (habove : ∀ i, bound ≤ i → i < hi → x < starts.getD i 0) :
    countUpTo starts x lo hi = bound := by
  fun_induction countUpTo starts x lo hi with
  | case1 lo hi hlt mid hle ih =>
      -- the number in the middle is not above the bound
      refine ih ?_ hhi habove
      by_contra hmid
      have := habove mid (by omega) (by omega)
      omega
  | case2 lo hi hlt mid hgt ih =>
      refine ih hlo ?_ fun i hi hmid => habove i hi (by omega)
      by_contra hmid
      exact hgt (hbelow mid (by omega))
  | case3 lo hi hle => omega

namespace Text

/-! ### The breaks up to an offset -/

/-- The line breaks that end at or before an offset, by where they end. -/
def breaksBy (text : Text) (offset : Nat) : List Nat := text.breakEnds.filter (· ≤ offset)

/-- Where the line of an offset starts: at the end of the last break before it, or at the
beginning of the text. -/
def lineStart (text : Text) (offset : Nat) : Nat := (text.breaksBy offset).getLast?.getD 0

theorem filter_append_filter {starts : List Nat} (h : starts.Pairwise (· < ·)) (x : Nat) :
    starts.filter (· ≤ x) ++ starts.filter (x < ·) = starts := by
  induction starts with
  | nil => rfl
  | cons s starts ih =>
      obtain ⟨hs, hstarts⟩ := List.pairwise_cons.1 h
      by_cases hle : s ≤ x
      · rw [List.filter_cons_of_pos (by simpa using hle),
          List.filter_cons_of_neg (by simpa using hle), List.cons_append, ih hstarts]
      · have hgt : ∀ t ∈ s :: starts, x < t :=
          List.forall_mem_cons.2 ⟨by omega, fun t ht => Nat.lt_trans (by omega) (hs t ht)⟩
        rw [List.filter_eq_nil_iff.2 fun t ht => by simpa using hgt t ht,
          List.filter_eq_self.2 fun t ht => by simpa using hgt t ht, List.nil_append]

theorem pairwise_breaksBy (text : Text) (offset : Nat) :
    (text.breaksBy offset).Pairwise (· < ·) :=
  text.pairwise_breakEnds.filter _

theorem le_of_mem_breaksBy {text : Text} {offset e : Nat} (h : e ∈ text.breaksBy offset) :
    1 ≤ e ∧ e ≤ offset := by
  rw [breaksBy, List.mem_filter, mem_breakEnds] at h
  exact ⟨(endsBreak_of_le h.1).1, by simpa using h.2⟩

/-- The breaks by a later offset are those by an earlier one and some behind it. -/
theorem breaksBy_append (text : Text) {offset offset' : Nat} (h : offset ≤ offset') :
    text.breaksBy offset ++ (text.breaksBy offset').filter (offset < ·) =
      text.breaksBy offset' := by
  have hsplit := filter_append_filter (text.pairwise_breaksBy offset') offset
  have hearlier : (text.breaksBy offset').filter (· ≤ offset) = text.breaksBy offset := by
    rw [breaksBy, breaksBy, List.filter_filter]
    refine List.filter_congr fun e _ => ?_
    rw [Bool.eq_iff_iff]
    simp only [Bool.and_eq_true, decide_eq_true_eq]
    omega
  rwa [hearlier] at hsplit

theorem length_breaksBy_le (text : Text) (offset : Nat) :
    (text.breaksBy offset).length ≤ offset := by
  have hnodup : (text.breaksBy offset).Nodup :=
    (text.pairwise_breaksBy offset).imp Nat.ne_of_lt
  have hsubset : text.breaksBy offset ⊆ List.range' 1 offset := by
    intro e he
    have := le_of_mem_breaksBy he
    rw [List.mem_range'_1]
    omega
  simpa using (List.Nodup.subperm hnodup hsubset).length_le

theorem lineStart_le (text : Text) (offset : Nat) : text.lineStart offset ≤ offset := by
  unfold lineStart
  cases hlast : (text.breaksBy offset).getLast? with
  | none => exact Nat.zero_le _
  | some e => exact (le_of_mem_breaksBy (List.mem_of_getLast? hlast)).2

/-- At a seam, all line breaks of the text before it have ended. -/
theorem breaksBy_seam {front rest : Text} (h : Seamless front rest) :
    (front ++ rest).breaksBy front.length = front.breakEnds := by
  rw [breaksBy, breakEnds_append h, List.filter_append, List.filter_eq_self.2,
    List.filter_eq_nil_iff.2, List.append_nil]
  · intro e he
    obtain ⟨i, hi, rfl⟩ := List.mem_map.1 he
    have hpos := (endsBreak_of_le (mem_breakEnds.1 hi)).1
    simp only [decide_eq_true_eq]
    omega
  · intro e he
    exact decide_eq_true (endsBreak_of_le (mem_breakEnds.1 he)).2

/-- The offsets at which lines start are those up to an offset and those behind it. -/
theorem exists_starts (text : Text) (offset : Nat) :
    ∃ later, 0 :: text.breakEnds = 0 :: text.breaksBy offset ++ later ∧
      ∀ s ∈ later, offset < s := by
  refine ⟨text.breakEnds.filter (offset < ·), ?_,
    fun s hs => by simpa using (List.mem_filter.1 hs).2⟩
  rw [List.cons_append, breaksBy, filter_append_filter text.pairwise_breakEnds]

theorem getElem?_starts (text : Text) (offset : Nat) :
    (0 :: text.breakEnds)[(text.breaksBy offset).length]? = some (text.lineStart offset) := by
  obtain ⟨later, hstarts, -⟩ := text.exists_starts offset
  have hlast := List.getLast?_eq_getElem? (l := 0 :: text.breaksBy offset)
  rw [List.getLast?_cons] at hlast
  rw [hstarts, List.getElem?_append_left (by simp)]
  exact hlast.symm

/-- The next line starts behind the offset. -/
theorem lt_of_getElem?_starts {text : Text} {offset i s : Nat}
    (hi : (text.breaksBy offset).length < i) (hs : (0 :: text.breakEnds)[i]? = some s) :
    offset < s := by
  obtain ⟨later, hstarts, hlater⟩ := text.exists_starts offset
  rw [hstarts, List.getElem?_append_right hi] at hs
  exact hlater s (List.mem_of_getElem? hs)

/-- The lines up to that of an offset start at it or before. -/
theorem le_of_getElem?_starts {text : Text} {offset i s : Nat}
    (hi : i ≤ (text.breaksBy offset).length) (hs : (0 :: text.breakEnds)[i]? = some s) :
    s ≤ offset := by
  obtain ⟨later, hstarts, -⟩ := text.exists_starts offset
  rw [hstarts, List.getElem?_append_left (by simpa using Nat.lt_succ_of_le hi)] at hs
  rcases List.mem_cons.1 (List.mem_of_getElem? hs) with rfl | hmem
  · exact Nat.zero_le _
  · exact (le_of_mem_breaksBy hmem).2

/-! ### A byte in its line -/

theorem getElem?_dropTrailing {text : Text} {k : Nat} {b c : Byte} (h : text[k]? = some b)
    (hne : b ≠ c) : (Source.dropTrailing c text)[k]? = some b := by
  unfold Source.dropTrailing
  split_ifs with hlast
  · rw [List.getLast?_eq_getElem?] at hlast
    have hk : k ≠ text.length - 1 := by
      rintro rfl
      exact hne (Option.some.inj (h.symm.trans hlast))
    have hlt := (List.getElem?_eq_some_iff.1 h).1
    rw [List.getElem?_dropLast, if_pos (by omega), h]
  · exact h

/-- A byte that belongs to no line break is in its line as far behind the start as in the
text. -/
theorem getElem?_lineBetween {text : Text} {offset : Nat} {b : Byte}
    (h : text[offset]? = some b) (hb : b.isLineBreak = false) :
    (lineBetween text (0 :: text.breakEnds) (text.breaksBy offset).length)[offset -
      text.lineStart offset]? =
      some b := by
  have hle := text.lineStart_le offset
  have hdrop : (text.drop (text.lineStart offset))[offset - text.lineStart offset]? =
      some b := by
    rw [List.getElem?_drop, Nat.add_sub_cancel' hle, h]
  unfold lineBetween
  rw [getElem?_starts]
  cases hnext : (0 :: text.breakEnds)[(text.breaksBy offset).length + 1]? with
  | none => exact hdrop
  | some next =>
      have hlt := lt_of_getElem?_starts (Nat.lt_succ_self _) hnext
      refine getElem?_dropTrailing (getElem?_dropTrailing ?_ ?_) ?_
      · rw [List.getElem?_take_of_lt (by omega), hdrop]
      · rintro rfl
        exact absurd hb (by decide)
      · rintro rfl
        exact absurd hb (by decide)

end Text

namespace Source

/-! ### Places -/

theorem lineIndex_eq (source : Source) (offset : Nat) :
    source.lineIndex offset = (source.content.breaksBy offset).length := by
  have hcount : countUpTo source.lineStarts offset 0 source.lineStarts.size =
      (source.content.breaksBy offset).length + 1 := by
    refine countUpTo_eq 0 _ (Nat.zero_le _) ?_ ?_ ?_
    · have hstart := source.content.getElem?_starts offset
      rw [← getElem?_lineStarts] at hstart
      exact (Array.getElem?_eq_some_iff.1 hstart).1
    · intro i hi
      rw [Array.getD_eq_getD_getElem?]
      cases hs : source.lineStarts[i]? with
      | none => exact Nat.zero_le _
      | some s =>
          exact Text.le_of_getElem?_starts (Nat.le_of_lt_succ hi)
            (source.getElem?_lineStarts i ▸ hs)
    · intro i hi hsize
      have hs := Array.getElem?_eq_getElem hsize
      rw [Array.getD_eq_getD_getElem?, hs]
      exact Text.lt_of_getElem?_starts hi (source.getElem?_lineStarts i ▸ hs)
  rw [lineIndex, hcount, Nat.add_sub_cancel]

/-- Places are counted from 1, in 32 bits. -/
theorem toNat_toUInt32_add_one {n : Nat} (h : n < UInt32.size - 1) :
    (n.toUInt32 + 1).toNat = n + 1 := by
  rw [UInt32.toNat_add, UInt32.toNat_ofNat_of_lt' (Nat.lt_of_lt_of_le h (Nat.sub_le _ _)),
    UInt32.toNat_one]
  exact Nat.mod_eq_of_lt (Nat.add_lt_of_lt_sub h)

theorem location_line (source : Source) {offset : Nat} (h : offset < UInt32.size - 1) :
    (source.location offset).line.toNat = 1 + (source.content.breaksBy offset).length := by
  have hle := source.content.length_breaksBy_le offset
  rw [location, lineIndex_eq, toNat_toUInt32_add_one (by omega), Nat.add_comm]

theorem location_column (source : Source) {offset : Nat} (h : offset < UInt32.size - 1) :
    (source.location offset).column.toNat =
      1 + (offset - source.content.lineStart offset) := by
  rw [location, lineIndex_eq, Array.getD_eq_getD_getElem?, getElem?_lineStarts,
    Text.getElem?_starts, Option.getD_some, toNat_toUInt32_add_one (by omega), Nat.add_comm]

end Source

/-- In the order in which a text is read: by lines, and within a line by columns. -/
def Location.Before (a b : Location) : Prop :=
  a.line < b.line ∨ (a.line = b.line ∧ a.column < b.column)

theorem Location.Before.ne {a b : Location} (h : a.Before b) :
    (a.line, a.column) ≠ (b.line, b.column) := by
  intro heq
  rw [Prod.mk.injEq] at heq
  rcases h with hline | ⟨-, hcolumn⟩
  · exact UInt32.lt_irrefl _ (heq.1 ▸ hline)
  · exact UInt32.lt_irrefl _ (heq.2 ▸ hcolumn)

namespace Source

theorem location_before (source : Source) {offset offset' : Nat} (h : offset < offset')
    (h' : offset' < UInt32.size - 1) :
    (source.location offset).Before (source.location offset') := by
  have happend := source.content.breaksBy_append (Nat.le_of_lt h)
  rw [Location.Before, UInt32.lt_iff_toNat_lt, UInt32.lt_iff_toNat_lt, ← UInt32.toNat_inj,
    source.location_line h', source.location_line (Nat.lt_trans h h'),
    source.location_column h', source.location_column (Nat.lt_trans h h')]
  cases hbetween : (source.content.breaksBy offset').filter (offset < ·) with
  | nil =>
      -- no break ends between the offsets, and their line starts at the same place
      rw [hbetween, List.append_nil] at happend
      have hstart : source.content.lineStart offset' = source.content.lineStart offset := by
        rw [Text.lineStart, Text.lineStart, happend]
      have hle := source.content.lineStart_le offset
      rw [happend, hstart]
      exact .inr ⟨rfl, by omega⟩
  | cons e later =>
      rw [← happend, hbetween, List.length_append, List.length_cons]
      exact .inl (by omega)

theorem location_inj (source : Source) {offset offset' : Nat} (h : offset < UInt32.size - 1)
    (h' : offset' < UInt32.size - 1)
    (hline : (source.location offset).line = (source.location offset').line)
    (hcolumn : (source.location offset).column = (source.location offset').column) :
    offset = offset' := by
  rcases Nat.lt_trichotomy offset offset' with hlt | heq | hgt
  · exact absurd (Prod.ext hline hcolumn) (source.location_before hlt h').ne
  · exact heq
  · exact absurd (Prod.ext hline.symm hcolumn.symm) (source.location_before hgt h).ne

/-- The place of an offset is exact: its line counts the line breaks that end at or before it,
and its column the bytes from the end of the last of them. Places come in the order of the
offsets and are different for different ones, and a byte that belongs to no break is found at
its place in its line. -/
theorem location_exact (source : Source) (offset : Nat) (hoffset : offset < UInt32.size - 1) :
    (source.location offset).line.toNat = 1 + (source.content.breaksBy offset).length ∧
      (source.location offset).column.toNat = 1 + (offset - source.content.lineStart offset) ∧
      (∀ offset', offset < offset' → offset' < UInt32.size - 1 →
        (source.location offset).Before (source.location offset')) ∧
      (∀ offset' < UInt32.size - 1,
        (source.location offset).line = (source.location offset').line →
        (source.location offset).column = (source.location offset').column →
        offset = offset') ∧
      ∀ b, source.content[offset]? = some b → b ≠ Byte.cr → b ≠ Byte.lf →
        (source.line (source.location offset).line)[(source.location offset).column.toNat -
          1]? = some b := by
  have hline := source.location_line hoffset
  have hcolumn := source.location_column hoffset
  refine ⟨hline, hcolumn, fun offset' h h' => source.location_before h h',
    fun offset' h' => source.location_inj hoffset h', fun b hb hcr hlf => ?_⟩
  rw [line_of_toNat (hline.trans (Nat.add_comm _ _)), hcolumn, Nat.add_sub_cancel_left]
  exact Text.getElem?_lineBetween hb (by simp [Byte.isLineBreak, hcr, hlf])

/-- The LF of a CR LF is still in the line that it ends, and what comes behind it is in the
next. -/
theorem location_exact_crlf :
    let source := ofText (utf8 "a\r\nbc")
    let lf := source.location 2
    let last := source.location 4
    (2 < UInt32.size - 1 ∧ 4 < UInt32.size - 1 ∧ source.content[4]? = some 0x63) ∧
      (lf.line.toNat, lf.column.toNat) = (1, 3) ∧
      (last.line.toNat, last.column.toNat) = (2, 2) ∧ lf.Before last ∧
      (source.line last.line)[1]? = some 0x63 := by
  intro source lf last
  have hbyte : source.content[4]? = some 0x63 := by decide +kernel
  obtain ⟨hline, hcolumn, hbefore, -, -⟩ := location_exact source 2 (by decide)
  obtain ⟨hline', hcolumn', -, -, hfound⟩ := location_exact source 4 (by decide)
  have hlf : 1 + (source.content.breaksBy 2).length = 1 ∧
      1 + (2 - source.content.lineStart 2) = 3 := by decide +kernel
  have hlast : 1 + (source.content.breaksBy 4).length = 2 ∧
      1 + (4 - source.content.lineStart 4) = 2 := by
    decide +kernel
  rw [hlf.1] at hline
  rw [hlf.2] at hcolumn
  rw [hlast.1] at hline'
  rw [hlast.2] at hcolumn'
  have hfound' := hfound 0x63 hbyte (by decide) (by decide)
  rw [hcolumn'] at hfound'
  exact ⟨⟨by decide, by decide, hbyte⟩, Prod.ext hline hcolumn, Prod.ext hline' hcolumn',
    hbefore 4 (by decide) (by decide), hfound'⟩

end Source

end LetBlocks
