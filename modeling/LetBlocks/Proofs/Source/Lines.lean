import LetBlocks.Proofs.Text.Breaks
import LetBlocks.Report

/-!
A source finds a line through a table of the offsets at which its lines start, and takes the
break off the end of what it finds. A reporter has only the text and looks for the line from
the front. Both find the same, which is what the text splits into.
-/

namespace LetBlocks

/-! ### The table of line starts -/

namespace Text

theorem toList_lineStartsFrom (pos : Nat) (found : Array Nat) (text : Text) :
    (lineStartsFrom pos found text).toList = found.toList ++ text.breakEnds.map (pos + ·) := by
  induction text generalizing pos found with
  | nil => simp [lineStartsFrom, breakEnds]
  | cons b rest ih =>
      have hfirst : endsBreak (b :: rest) 1 = true ↔
          b = Byte.lf ∨ (b = Byte.cr ∧ rest.head? ≠ some Byte.lf) := by
        simp [endsBreak, List.head?_eq_getElem?]
      have hshift : (pos + ·) ∘ (1 + ·) = (pos + 1 + ·) :=
        funext fun e => (Nat.add_assoc pos 1 e).symm
      rw [lineStartsFrom, breakEnds_cons, List.map_append, List.map_map, hshift]
      simp only [hfirst]
      split_ifs
      · rw [ih]
        simp
      · rw [ih]
        simp

/-- The lines of a text start at its beginning and behind each line break. -/
theorem toList_lineStarts (text : Text) : text.lineStarts.toList = 0 :: text.breakEnds := by
  rw [lineStarts, toList_lineStartsFrom]
  simp

/-! ### What the table gives -/

/-- The line with an index, between two of the offsets at which lines start. -/
def lineBetween (text : Text) (starts : List Nat) (index : Nat) : Text :=
  match starts[index]?, starts[index + 1]? with
  | some start, some next =>
      Source.dropTrailing Byte.cr
        (Source.dropTrailing Byte.lf ((text.drop start).take (next - start)))
  | some start, none => text.drop start
  | none, _ => []

/-- Lines are found alike behind a text that all the starts are moved by. -/
theorem lineBetween_append (front text : Text) (starts : List Nat) (index : Nat) :
    lineBetween (front ++ text) (0 :: starts.map (front.length + ·)) (index + 1) =
      lineBetween text starts index := by
  unfold lineBetween
  rw [List.getElem?_cons_succ, List.getElem?_cons_succ, List.getElem?_map, List.getElem?_map]
  cases starts[index]? with
  | none => rfl
  | some start =>
      cases starts[index + 1]? with
      | none => simp
      | some next => simp [Nat.add_sub_add_left]

theorem dropTrailing_concat (text : Text) (b : Byte) :
    Source.dropTrailing b (text ++ [b]) = text := by
  simp [Source.dropTrailing]

theorem dropTrailing_of_ne {text : Text} {b : Byte} (h : text.getLast? ≠ some b) :
    Source.dropTrailing b text = text :=
  if_neg h

/-- A line is what is left when its break is taken off. -/
theorem dropTrailing_break {line mark rest : Text} (hline : ∀ b ∈ line, b.isLineBreak = false)
    (hmark : IsBreak mark rest) :
    Source.dropTrailing Byte.cr (Source.dropTrailing Byte.lf (line ++ mark)) = line := by
  have hcr : line.getLast? ≠ some Byte.cr :=
    fun hlast => absurd (hline _ (List.mem_of_getLast? hlast)) (by decide)
  rcases hmark with rfl | rfl | ⟨rfl, -⟩
  · rw [dropTrailing_concat, dropTrailing_of_ne hcr]
  · rw [show line ++ [Byte.cr, Byte.lf] = line ++ [Byte.cr] ++ [Byte.lf] by simp,
      dropTrailing_concat, dropTrailing_concat]
  · rw [dropTrailing_of_ne (b := Byte.lf) (by simp; decide), dropTrailing_concat]

theorem Splits.lineBetween_eq {text : Text} {lines marks : List Text}
    (h : Splits text lines marks) (index : Nat) :
    lineBetween text (0 :: text.breakEnds) index = lines[index]?.getD [] := by
  induction h generalizing index with
  | last hline =>
      rw [breakEnds_of_inLine hline]
      cases index <;> rfl
  | @more line mark rest lines marks hline hmark _ ih =>
      rw [breakEnds_line hline hmark]
      cases index with
      | zero =>
          have hfront : (line ++ (mark ++ rest)).take (line.length + mark.length) =
              line ++ mark := by
            rw [← List.append_assoc, ← List.length_append, List.take_left]
          exact (congrArg _ (congrArg _ hfront)).trans (dropTrailing_break hline hmark)
      | succ index =>
          have hmoved := lineBetween_append (line ++ mark) rest (0 :: rest.breakEnds) index
          rw [List.append_assoc, List.length_append, List.map_cons, Nat.add_zero] at hmoved
          rw [hmoved, ih, List.getElem?_cons_succ]

/-! ### What is found from the front -/

theorem Splits.lineAt_eq {text : Text} {lines marks : List Text} (h : Splits text lines marks)
    (index : Nat) : text.lineAt index = lines[index]?.getD [] := by
  induction h generalizing index with
  | @last line hline =>
      have hrun : ∀ b ∈ line, (!b.isLineBreak) = true := by simpa using hline
      cases index with
      | zero => exact List.takeWhile_eq_self_iff.2 hrun
      | succ index =>
          rw [lineAt, List.dropWhile_eq_nil_iff.2 hrun]
          rfl
  | @more line mark rest lines marks hline hmark _ ih =>
      have hrun : ∀ b ∈ line, (!b.isLineBreak) = true := by simpa using hline
      obtain ⟨b, more, hcons, hb⟩ := hmark.exists_cons
      have hstop : Avoids (!·.isLineBreak) (mark ++ rest) := by
        rw [hcons, List.cons_append, avoids_cons, hb]
        rfl
      cases index with
      | zero => exact takeWhile_append_stop hrun hstop
      | succ index =>
          rw [lineAt, dropWhile_append_stop hrun hstop, List.getElem?_cons_succ, ← ih index]
          rcases hmark with rfl | rfl | ⟨rfl, hrest⟩
          · exact congrArg (lineAt index) (if_neg fun h => absurd h.1 (by decide))
          · rfl
          · exact congrArg (lineAt index) (if_neg (by simpa using hrest))

/-! ### How many there are, and how long -/

theorem Splits.length_lines {text : Text} {lines marks : List Text}
    (h : Splits text lines marks) : lines.length = marks.length + 1 := by
  induction h with
  | last => rfl
  | more _ _ _ ih => rw [List.length_cons, List.length_cons, ih]

theorem Splits.length_breakEnds {text : Text} {lines marks : List Text}
    (h : Splits text lines marks) : text.breakEnds.length = marks.length := by
  induction h with
  | last hline =>
      rw [breakEnds_of_inLine hline]
      rfl
  | more hline hmark _ ih =>
      rw [breakEnds_line hline hmark, List.length_cons, List.length_map, ih, List.length_cons]

theorem splits_replicate_lf (n : Nat) :
    Splits (List.replicate n Byte.lf) (List.replicate (n + 1) [])
      (List.replicate n [Byte.lf]) := by
  have hempty : ∀ b ∈ ([] : Text), b.isLineBreak = false := by simp
  induction n with
  | zero => exact .last hempty
  | succ n ih => exact .more hempty (.inl rfl) ih

theorem Splits.inLine {text : Text} {lines marks : List Text} (h : Splits text lines marks) :
    ∀ line ∈ lines, ∀ b ∈ line, b.isLineBreak = false := by
  induction h with
  | last hline => exact List.forall_mem_singleton.2 hline
  | more hline _ _ ih => exact List.forall_mem_cons.2 ⟨hline, ih⟩

/-- A line has at most the bytes that the breaks leave over. -/
theorem Splits.length_le {text : Text} {lines marks : List Text}
    (h : Splits text lines marks) :
    marks.length ≤ text.length ∧ ∀ line ∈ lines, line.length + marks.length ≤ text.length := by
  induction h with
  | last => simp
  | more _ hmark _ ih =>
      have hpos := hmark.length_pos
      obtain ⟨hmarks, hlines⟩ := ih
      simp only [List.forall_mem_cons, List.length_append, List.length_cons]
      refine ⟨by omega, by omega, fun line hline => ?_⟩
      have hle := hlines line hline
      omega

end Text

/-! ### Both ways agree -/

/-- Lines are numbered from 1. -/
theorem exists_index {number : UInt32} (h : number ≠ 0) : ∃ index, number.toNat = index + 1 :=
  Nat.exists_eq_succ_of_ne_zero fun hzero => h (UInt32.toNat_inj.1 hzero)

namespace Source

theorem getElem?_lineStarts (source : Source) (i : Nat) :
    source.lineStarts[i]? = (0 :: source.content.breakEnds)[i]? := by
  rw [source.lineStarts_eq, ← Text.toList_lineStarts, Array.getElem?_toList]

theorem line_of_toNat {source : Source} {number : UInt32} {index : Nat}
    (h : number.toNat = index + 1) :
    source.line number = source.content.lineBetween (0 :: source.content.breakEnds) index := by
  rw [line, h]
  simp only [getElem?_lineStarts]
  rfl

theorem lineCount_eq {source : Source} {lines marks : List Text}
    (h : source.content.Splits lines marks) : source.lineCount = lines.length.toUInt32 := by
  rw [lineCount, source.lineStarts_eq, ← Array.length_toList, Text.toList_lineStarts,
    List.length_cons, h.length_breakEnds, h.length_lines]

theorem line_of_splits {source : Source} {lines marks : List Text}
    (h : source.content.Splits lines marks) (number : UInt32) :
    source.line number = if number = 0 then [] else lines[number.toNat - 1]?.getD [] := by
  split_ifs with hzero
  · subst hzero
    rfl
  · obtain ⟨index, hindex⟩ := exists_index hzero
    rw [line_of_toNat hindex, h.lineBetween_eq, hindex]
    rfl

end Source

theorem Reporter.sourceLine_of_splits {reporter : Reporter} {file content : Text}
    {lines marks : List Text} (hfile : reporter.sources.lookup file = some content)
    (h : content.Splits lines marks) (number : UInt32) :
    reporter.sourceLine file number =
      if number = 0 then [] else lines[number.toNat - 1]?.getD [] := by
  rw [sourceLine, hfile]
  split_ifs with hzero
  · subst hzero
    rfl
  · obtain ⟨index, hindex⟩ := exists_index hzero
    rw [hindex]
    exact h.lineAt_eq index

/-- A reporter that knows the text of a source finds the same lines in it as the source. They
are the lines that the text splits into and hold no line break, and there are none before the
first and behind the last. There is one more of them than there are breaks: as a 32-bit number
always, and as a natural number unless that is 2^32, when all bytes are breaks. -/
theorem sourceLine_eq_line (reporter : Reporter) (file : Text) (source : Source)
    (hfile : reporter.sources.lookup file = some source.content)
    (hlength : source.length < UInt32.size) :
    (∃ lines marks, source.content.Splits lines marks) ∧
      ∀ lines marks, source.content.Splits lines marks →
        source.lineCount = (marks.length + 1).toUInt32 ∧
        (marks.length + 1 ≠ UInt32.size → source.lineCount.toNat = marks.length + 1) ∧
        ∀ number : UInt32,
          reporter.sourceLine file number = source.line number ∧
            source.line number =
              (if number = 0 then [] else lines[number.toNat - 1]?.getD []) ∧
            (number = 0 ∨ source.lineCount < number → source.line number = []) ∧
            ∀ b ∈ source.line number, b ≠ Byte.cr ∧ b ≠ Byte.lf := by
  refine ⟨source.content.exists_splits, fun lines marks hsplits => ?_⟩
  obtain ⟨hmarks, hlines⟩ := hsplits.length_le
  rw [Source.length] at hlength
  have hcount := Source.lineCount_eq hsplits
  rw [hsplits.length_lines] at hcount
  have hexact : marks.length + 1 ≠ UInt32.size →
      source.lineCount.toNat = marks.length + 1 := by
    intro hne
    rw [hcount]
    exact UInt32.toNat_ofNat_of_lt' (by omega)
  refine ⟨hcount, hexact, fun number => ?_⟩
  have hline := Source.line_of_splits hsplits number
  have hmem : source.line number = [] ∨ source.line number ∈ lines := by
    rw [hline]
    split_ifs with hzero
    · exact .inl rfl
    · cases hget : lines[number.toNat - 1]? with
      | none => exact .inl rfl
      | some line => exact .inr (List.mem_of_getElem? hget)
  refine ⟨by rw [hline, Reporter.sourceLine_of_splits hfile hsplits], hline, ?_, ?_⟩
  · rintro (rfl | hbeyond)
    · exact hline
    by_cases hfull : marks.length + 1 = UInt32.size
    · -- the breaks leave no room for other bytes
      refine hmem.elim id fun hmem => List.length_eq_zero_iff.1 ?_
      have hle := hlines _ hmem
      omega
    · rw [UInt32.lt_iff_toNat_lt, hexact hfull] at hbeyond
      rw [hline, List.getElem?_eq_none (by rw [hsplits.length_lines]; omega)]
      exact ite_self _
  · intro b hb
    have hbreak : b.isLineBreak = false := by
      rcases hmem with hnil | hmem
      · rw [hnil] at hb
        cases hb
      · exact hsplits.inLine _ hmem b hb
    simpa [Byte.isLineBreak, and_comm] using hbreak

/-- A CR in front of a CR LF, and a line feed at the end. -/
theorem sourceLine_eq_line_mixed :
    let source := Source.ofText (utf8 "a\r\r\nb\n")
    let reporter := Reporter.addSource {} (utf8 "f") source.content
    (reporter.sources.lookup (utf8 "f") = some source.content ∧ source.length < UInt32.size) ∧
      (∀ number, reporter.sourceLine (utf8 "f") number = source.line number) ∧
      (source.line 2, source.line 3, source.line 4, source.lineCount) =
        ([], utf8 "b", [], 4) := by
  intro source reporter
  have hfile : reporter.sources.lookup (utf8 "f") = some source.content := by decide +kernel
  have hlength : source.length < UInt32.size := by decide +kernel
  obtain ⟨⟨lines, marks, hsplits⟩, hall⟩ :=
    sourceLine_eq_line reporter (utf8 "f") source hfile hlength
  obtain ⟨-, -, hlines⟩ := hall lines marks hsplits
  exact ⟨⟨hfile, hlength⟩, fun number => (hlines number).1, by decide +kernel⟩

theorem length_marks_replicate_lf {n : Nat} {lines marks : List Text}
    (h : Text.Splits (List.replicate n Byte.lf) lines marks) : marks.length = n := by
  rw [← h.length_breakEnds, (Text.splits_replicate_lf n).length_breakEnds,
    List.length_replicate]

theorem lineCount_replicate_lf (n : Nat) :
    (Source.ofText (List.replicate n Byte.lf)).lineCount = (n + 1).toUInt32 := by
  rw [Source.lineCount_eq (Text.splits_replicate_lf n), List.length_replicate]

/-- Of 2^32 - 1 line feeds, which are fewer than 2^32 bytes, there are 2^32 lines, and they are
counted as none. -/
theorem lineCount_of_all_breaks :
    let source := Source.ofText (List.replicate 4294967295 Byte.lf)
    source.length < UInt32.size ∧
      (∀ lines marks, source.content.Splits lines marks → marks.length = 4294967295) ∧
      source.lineCount = 0 := by
  refine ⟨?_, fun lines marks => length_marks_replicate_lf, ?_⟩
  · rw [Source.length, Source.ofText, List.length_replicate]
    decide
  · exact lineCount_replicate_lf 4294967295

end LetBlocks
