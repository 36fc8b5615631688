import LetBlocks.Proofs.Source.Locations

/-!
A text is what comes before one of its lines, the line, the break that ends it, and the rest.
All offsets from the start of the line through its break are on that line: as many breaks end
before them as in the text before the line, and their columns count from its end. Every offset
of a text is on such a line.
-/

namespace LetBlocks

namespace Text

/-- The text has the line between `before` and `mark`, which is the break that ends it, or
nothing if the line is the last one. -/
structure HasLine (text before line mark rest : Text) : Prop where
  split : text = before ++ (line ++ (mark ++ rest))
  starts : before = [] ∨ text.endsBreak before.length = true
  inLine : ∀ b ∈ line, b.isLineBreak = false
  ends : IsBreak mark rest ∨ (mark = [] ∧ rest = [])

theorem IsBreak.left {mark text rest : Text} (h : IsBreak mark (text ++ rest)) :
    IsBreak mark text := by
  rcases h with rfl | rfl | ⟨rfl, hrest⟩
  · exact .inl rfl
  · exact .inr (.inl rfl)
  · refine .inr (.inr ⟨rfl, fun hhead => hrest ?_⟩)
    rw [List.head?_append, hhead]
    rfl

theorem IsBreak.isLineBreak {mark rest : Text} (h : IsBreak mark rest) :
    ∀ b ∈ mark, b.isLineBreak = true := by
  rcases h with rfl | rfl | ⟨rfl, -⟩ <;> exact forall_mem_of_all (by decide)

/-- If a text ends with a line break, that is the last of its breaks. -/
theorem getLast?_breakEnds {text : Text} (h : text.endsBreak text.length = true) :
    text.breakEnds.getLast? = some text.length := by
  obtain ⟨n, hn⟩ := Nat.exists_eq_add_of_le (endsBreak_of_le h).1
  have hrange : List.range' 1 text.length = List.range' 1 n ++ [text.length] := by
    rw [hn, Nat.add_comm 1 n, List.range'_concat, Nat.one_mul, Nat.add_comm 1 n]
  rw [breakEnds, hrange, List.filter_append, List.filter_cons_of_pos h, List.filter_nil,
    List.getLast?_concat]

namespace HasLine

variable {text before line mark rest : Text}

theorem seamless (h : text.HasLine before line mark rest) :
    Seamless before (line ++ (mark ++ rest)) := by
  rcases h.starts with rfl | hends
  · exact seamless_nil _
  · intro hlast hhead
    obtain ⟨i, hi⟩ := Nat.exists_eq_add_of_le' (endsBreak_of_le hends).1
    have hcr : text[i]? = some Byte.cr := by
      rw [h.split, List.getElem?_append_left (by omega), ← hlast, List.getLast?_eq_getElem?,
        hi]
      rfl
    have hlf : text[i + 1]? = some Byte.lf := by
      rw [h.split, List.getElem?_append_right (by omega), hi, Nat.sub_self,
        ← List.head?_eq_getElem?, hhead]
    -- a CR with an LF behind it ends no break
    rw [hi, endsBreak, hcr, hlf] at hends
    exact absurd hends (by decide)

theorem breakEnds_eq (h : text.HasLine before line mark rest) :
    text.breakEnds = before.breakEnds ++
      (line ++ (mark ++ rest)).breakEnds.map (before.length + ·) := by
  conv_lhs => rw [h.split]
  exact breakEnds_append h.seamless

/-- The next line starts behind the break. -/
theorem le_of_mem_breakEnds (h : text.HasLine before line mark rest) :
    ∀ e ∈ (line ++ (mark ++ rest)).breakEnds, line.length + mark.length ≤ e := by
  rcases h.ends with hmark | ⟨rfl, rfl⟩
  · rw [breakEnds_line h.inLine hmark]
    simp
  · rw [List.append_nil, List.append_nil, breakEnds_of_inLine h.inLine]
    simp

theorem filter_breakEnds_before (before : Text) {offset : Nat} (hle : before.length ≤ offset) :
    before.breakEnds.filter (· ≤ offset) = before.breakEnds := by
  refine List.filter_eq_self.2 fun e he => decide_eq_true ?_
  exact (endsBreak_of_le (mem_breakEnds.1 he)).2.trans hle

section

variable {offset : Nat} (h : text.HasLine before line mark rest) (hle : before.length ≤ offset)
include h hle

theorem breaksBy_eq (hlt : offset < before.length + line.length + mark.length) :
    text.breaksBy offset = before.breakEnds := by
  rw [breaksBy, h.breakEnds_eq, List.filter_append, filter_breakEnds_before before hle,
    List.filter_eq_nil_iff.2, List.append_nil]
  intro e he
  obtain ⟨i, hi, rfl⟩ := List.mem_map.1 he
  have := h.le_of_mem_breakEnds i hi
  simp only [decide_eq_true_eq]
  omega

theorem lineStart_eq (hlt : offset < before.length + line.length + mark.length) :
    text.lineStart offset = before.length := by
  rw [lineStart, h.breaksBy_eq hle hlt]
  rcases h.starts with rfl | hends
  · rfl
  · rw [h.split, endsBreak_append_left h.seamless (Nat.le_refl _)] at hends
    rw [getLast?_breakEnds hends]
    rfl

end

/-- Behind the break of a line, its break counts too. -/
theorem lt_length_breaksBy (h : text.HasLine before line mark rest) (hmark : IsBreak mark rest)
    {offset : Nat} (hle : before.length + line.length + mark.length ≤ offset) :
    before.breakEnds.length < (text.breaksBy offset).length := by
  rw [breaksBy, h.breakEnds_eq, List.filter_append, filter_breakEnds_before before (by omega),
    breakEnds_line h.inLine hmark, List.map_cons, List.filter_cons_of_pos (by simp; omega),
    List.length_append, List.length_cons]
  omega

/-- The lines of the rest are lines of the whole text. -/
theorem behind {first firstMark : Text} (h : text.HasLine before line mark rest)
    (hfirst : ∀ b ∈ first, b.isLineBreak = false) (hbreak : IsBreak firstMark text) :
    HasLine (first ++ (firstMark ++ text)) (first ++ (firstMark ++ before)) line mark rest
      where
  split := by
    conv_lhs => rw [h.split]
    simp only [List.append_assoc]
  starts := by
    right
    rw [List.length_append, List.length_append, ← Nat.add_assoc]
    rcases h.starts with rfl | hends
    · exact mem_breakEnds.1 (breakEnds_line hfirst hbreak ▸ List.mem_cons_self)
    · rw [← List.append_assoc, ← List.length_append,
        endsBreak_append_right _ _ (endsBreak_of_le hends).1, hends]
  inLine := h.inLine
  ends := h.ends

end HasLine

/-- Every offset of a text is on a line, and the line is found by counting the breaks before
it. -/
theorem Splits.exists_hasLine {text : Text} {lines marks : List Text}
    (h : Splits text lines marks) {offset : Nat} (hoffset : offset < text.length) :
    ∃ before line mark rest, text.HasLine before line mark rest ∧
      lines[before.breakEnds.length]? = some line ∧
      before.length ≤ offset ∧ offset < before.length + line.length + mark.length := by
  induction h generalizing offset with
  | @last line hline =>
      exact ⟨[], line, [], [], ⟨by simp, .inl rfl, hline, .inr ⟨rfl, rfl⟩⟩, rfl,
        Nat.zero_le _, by simpa using hoffset⟩
  | @more line mark rest lines marks hline hmark _ ih =>
      by_cases hfirst : offset < line.length + mark.length
      · exact ⟨[], line, mark, rest, ⟨rfl, .inl rfl, hline, .inl hmark⟩, rfl,
          Nat.zero_le _, by simpa using hfirst⟩
      · -- the offset is behind the first line and its break, and is counted from there
        rw [List.length_append, List.length_append] at hoffset
        obtain ⟨before, line', mark', rest', hhas, hget, hle, hlt⟩ :=
          ih (show offset - (line.length + mark.length) < rest.length by omega)
        have hbreak : IsBreak mark before := IsBreak.left (hhas.split ▸ hmark)
        refine ⟨_, line', mark', rest', hhas.behind hline hmark, ?_, ?_, ?_⟩
        · rw [breakEnds_line hline hbreak, List.length_cons, List.length_map,
            List.getElem?_cons_succ, hget]
        · simp only [List.length_append]
          omega
        · simp only [List.length_append]
          omega

/-- A byte that belongs to no break is in front of the break of its line. -/
theorem HasLine.lt_of_not_isLineBreak {text before line mark rest : Text}
    (h : text.HasLine before line mark rest) {offset : Nat} {b : Byte}
    (hb : text[offset]? = some b) (hbreak : b.isLineBreak = false)
    (hlt : offset < before.length + line.length + mark.length) :
    offset < before.length + line.length := by
  by_contra hge
  rcases h.ends with hmark | ⟨rfl, -⟩
  · rw [h.split, List.getElem?_append_right (by omega), List.getElem?_append_right (by omega),
      List.getElem?_append_left (by omega)] at hb
    exact absurd (hmark.isLineBreak b (List.mem_of_getElem? hb)) (by simp [hbreak])
  · rw [List.length_nil] at hlt
    omega

end Text

namespace Source

variable {source : Source} {before line mark rest : Text}

/-- The places of the bytes of a line and its break. -/
theorem location_of_hasLine (h : source.content.HasLine before line mark rest) (offset : Nat)
    (hle : before.length ≤ offset) (hlt : offset < before.length + line.length + mark.length)
    (hoffset : offset < UInt32.size - 1) :
    (source.location offset).line.toNat = 1 + before.breakEnds.length ∧
      (source.location offset).column.toNat = 1 + (offset - before.length) := by
  rw [source.location_line hoffset, source.location_column hoffset, h.breaksBy_eq hle hlt,
    h.lineStart_eq hle hlt]
  exact ⟨rfl, rfl⟩

/-- Behind the line and its break the lines have other numbers. -/
theorem lt_location_line_of_hasLine (h : source.content.HasLine before line mark rest)
    (hmark : Text.IsBreak mark rest) (offset : Nat)
    (hle : before.length + line.length + mark.length ≤ offset)
    (hoffset : offset < UInt32.size - 1) :
    1 + before.breakEnds.length < (source.location offset).line.toNat := by
  rw [source.location_line hoffset]
  exact Nat.add_lt_add_left (h.lt_length_breaksBy hmark hle) 1

end Source

end LetBlocks
