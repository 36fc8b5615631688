import LetBlocks.Proofs.Node.Sites
import LetBlocks.Proofs.Report.Threading
import LetBlocks.Proofs.Source.Surroundings
import LetBlocks.Proofs.Token.LineNumbers

/-!
A diagnostic of a compilation is about at least one byte, and the first of them belongs to no
line break. So the line it starts on is not empty, and the report shows it. The carets below
stand under the bytes of the span on that line, and no others, if the span ends on that line in
front of its break or goes on behind the break. If the last byte of the span belongs to the
break itself, there are carets for the bytes of the break too, and the row is longer than the
line.
-/

namespace LetBlocks

open Text

/-! ### What diagnostics are about -/

/-- The span of the bytes from `start` up to `stop`. There are some, and the first one belongs
to no line break. -/
structure Source.Stretch (source : Source) (span : Span) (start stop : Nat) : Prop where
  span_eq : span = source.span start stop
  lt : start < stop
  le : stop ≤ source.length
  first : ∃ b, source.content[start]? = some b ∧ b.isLineBreak = false

theorem Source.Stretch.stop_eq {source : Source} {span : Span} {start stop : Nat}
    (h : source.Stretch span start stop) :
    span.stop.line = (source.location (stop - 1)).line ∧
      span.stop.column = (source.location (stop - 1)).column := by
  rw [h.span_eq, Source.span, if_pos h.lt]
  exact ⟨rfl, rfl⟩

namespace Token

variable {source : Source} {t : Token}

theorem exists_cons_of_mem_lex (ht : t ∈ (lex source).tokens) (heof : t.isEof = false)
    (hblank : t.isBlank = false) : ∃ b more, t.lexeme = b :: more ∧ b.isLineBreak = false := by
  rcases exists_reads_of_mem_lex ht with
    rfl | ⟨-, ⟨more, hlexeme⟩, hline⟩ | ⟨expect, rest, hread⟩
  · cases heof
  · exact ⟨_, _, hlexeme.symm, by decide⟩
  · obtain ⟨b, more, hlexeme, hb⟩ := hread.isBlank_head
    exact ⟨b, more, hlexeme, (Byte.isBlank_eq_false_iff.1 (hb.trans hblank)).2⟩

theorem exists_stretch (ht : t ∈ (lex source).tokens) (heof : t.isEof = false)
    (hblank : t.isBlank = false) : ∃ start stop, source.Stretch t.span start stop := by
  obtain ⟨b, more, hlexeme, hb⟩ := exists_cons_of_mem_lex ht heof hblank
  obtain ⟨before, after, hsplit⟩ := List.append_of_mem ht
  have hlies : Lies source 0 (lex source).tokens :=
    lies_lexAlong source (Region.scan source.content)
  rw [hsplit, lies_append, Nat.zero_add] at hlies
  have hcontent : source.content = join before ++ (t.lexeme ++ join after) := by
    rw [← join_cons, ← join_append, ← hsplit, join_lex]
  refine ⟨_, _, hlies.2.2.1, ?_, ?_, b, ?_, hb⟩
  · simp [hlexeme]
  · rw [Source.length, hcontent]
    simp
  · rw [hcontent, hlexeme, List.getElem?_append_right (Nat.le_refl _), Nat.sub_self]
    rfl

/-- The lexer reports literals only. -/
theorem exists_literal_of_mem_lex {d : Diagnostic} (hd : d ∈ (lex source).diagnostics) :
    ∃ t ∈ (lex source).tokens, t.kind.isLiteral = true ∧ d.span = t.span := by
  rw [lex, diagnostics_lexAlong, List.mem_filterMap] at hd
  obtain ⟨x, hx, hreport⟩ := hd
  rw [report?] at hreport
  split_ifs at hreport with hopen
  obtain rfl := Option.some.inj hreport
  refine ⟨x.1, ?_, ?_, rfl⟩
  · rw [lex, tokens_lexAlong]
    exact List.mem_append_left _ (List.mem_map_of_mem hx)
  · obtain ⟨p, hp, hkind, -, hisOpen⟩ := Piece.kind_of_mem_placed hx
    rw [hisOpen, Piece.isOpen, Bool.and_eq_true, Bool.not_eq_true'] at hopen
    rw [Piece.cut_scan] at hp
    have hunclosed := Piece.closed_of_mem_stream p hp
    rw [hopen.1] at hunclosed
    by_contra hliteral
    rw [hkind, Bool.not_eq_true] at hliteral
    simp [Piece.isUnclosed_of_kind hliteral] at hunclosed

theorem Kind.of_isLiteral {kind : Kind} (h : kind.isLiteral = true) :
    (kind == .eof) = false ∧ kind.isBlank = false := by
  revert h
  cases kind <;> decide

end Token

theorem Compilation.exists_stretch {style : Style} {source : Source} {d : Diagnostic}
    (hd : d ∈ (Compilation.of style source).diagnostics) :
    ∃ start stop, source.Stretch d.span start stop := by
  rw [of_eq] at hd
  rcases List.mem_append.1 hd with hlex | hparse
  · obtain ⟨t, ht, hliteral, hspan⟩ := Token.exists_literal_of_mem_lex hlex
    obtain ⟨heof, hblank⟩ := Token.Kind.of_isLiteral hliteral
    rw [hspan]
    exact Token.exists_stretch ht heof hblank
  · obtain ⟨t, ht, htrivia, problem, rfl⟩ := Node.standsAmong_parse hparse
    exact Token.exists_stretch ((List.takeWhile_sublist _).subset ht)
      (Token.isEof_of_mem_takeWhile t ht)
      (Token.isBlank_of_isTrivia htrivia)

namespace Report

/-! ### The rows of a report -/

def placeRow (d : Diagnostic) : Text :=
  utf8 "  --> " ++ d.file ++ utf8 ":" ++ ofNat d.span.start.line.toNat ++ utf8 ":" ++
    ofNat d.span.start.column.toNat ++ utf8 "\n"

def excerptRows (number : Nat) (line marks : Text) : Text :=
  let width := max (ofNat number).length 4
  let ruler := padLeft width [] ++ utf8 " |" ++ utf8 "\n"
  ruler ++
    (padLeft width (ofNat number) ++ utf8 " | ") ++ line ++ utf8 "\n" ++
    (padLeft width [] ++ utf8 " | ") ++ marks ++ utf8 "\n" ++
    ruler

/-- The marks below a line: as many blanks as there are columns before them, each a tab where
the line has one, and then carets. -/
def marks (line : Text) (columns carets : Nat) : Text :=
  (line.take columns).map (fun b => if b = Byte.tab then Byte.tab else Byte.space) ++
    List.replicate carets 0x5e

theorem length_marks {line : Text} {columns : Nat} (h : columns ≤ line.length) (carets : Nat) :
    (marks line columns carets).length = columns + carets := by
  simp [marks, h]

theorem framed_false (text : Text) : framed false text = text := List.append_nil text

theorem caretRow_false {d : Diagnostic} {line : Text} (h : startColumn d.span ≤ line.length) :
    caretRow false d line =
      marks line (startColumn d.span) (stopColumn d.span line - startColumn d.span) := by
  simp [caretRow, padding, marks, Ansi.paint, h]

theorem emit_eq_rows {reporter : Reporter} {d : Diagnostic} {line : Text}
    (hline : reporter.sourceLine d.file d.span.start.line = line)
    (hplace : d.span.start.line ≠ 0) (hstart : startColumn d.span < line.length) :
    ({ reporter with colors := false, format := .text }.emit d).1 =
      headline false d ++ (placeRow d ++ excerptRows d.span.start.line.toNat line
        (marks line (startColumn d.span) (stopColumn d.span line - startColumn d.span))) := by
  have hne : line ≠ [] := List.ne_nil_of_length_pos (Nat.zero_lt_of_lt hstart)
  have hsnippet : snippet false d line = placeRow d ++ excerpt false d line := by
    rw [snippet, if_neg hplace, if_neg hne, framed_false]
    rfl
  have hexcerpt : excerpt false d line =
      excerptRows d.span.start.line.toNat line (caretRow false d line) := by
    simp only [excerpt, excerptRows, framed_false]
  -- the lines that a reporter finds do not depend on how it reports
  rw [Reporter.emit, Reporter.describe]
  change headline false d ++ snippet false d (reporter.sourceLine d.file d.span.start.line) = _
  rw [hline, hsnippet, hexcerpt, caretRow_false (Nat.le_of_lt hstart)]

/-! ### The columns of a span -/

section

variable {source : Source} {span : Span} {start stop : Nat} {before line mark rest : Text}
  (hlength : source.length < UInt32.size - 1) (hspan : source.Stretch span start stop)
  (hline : source.content.HasLine before line mark rest) (hle : before.length ≤ start)
  (hlt : start < before.length + line.length)
include hlength hspan hline hle hlt

theorem start_of_hasLine :
    span.start.line.toNat = 1 + before.breakEnds.length ∧
      span.start.column.toNat = 1 + (start - before.length) := by
  have hstop := Nat.lt_of_lt_of_le hspan.lt hspan.le
  rw [hspan.span_eq]
  exact Source.location_of_hasLine hline start hle (by omega) (by omega)

theorem line_ne_zero : span.start.line ≠ 0 := by
  intro hzero
  have hnumber := (start_of_hasLine hlength hspan hline hle hlt).1
  rw [hzero, UInt32.toNat_zero] at hnumber
  omega

theorem startColumn_of_hasLine : startColumn span = start - before.length := by
  rw [startColumn, (start_of_hasLine hlength hspan hline hle hlt).2, Nat.add_sub_cancel_left]

/-- A span that ends on its first line, or in the break of that line, is marked to its end. -/
theorem stopColumn_of_le (hstop : stop ≤ before.length + line.length + mark.length) :
    stopColumn span line = stop - before.length := by
  have hbounds := And.intro hspan.lt hspan.le
  obtain ⟨hstartLine, hstartColumn⟩ := start_of_hasLine hlength hspan hline hle hlt
  obtain ⟨hstopLine, hstopColumn⟩ :=
    Source.location_of_hasLine hline (stop - 1) (by omega) (by omega) (by omega)
  rw [← hspan.stop_eq.1] at hstopLine
  rw [← hspan.stop_eq.2] at hstopColumn
  have hsame : span.stop.line = span.start.line :=
    UInt32.toNat_inj.1 (hstopLine.trans hstartLine.symm)
  have hcolumns : span.start.column ≤ span.stop.column := UInt32.le_iff_toNat_le.2 (by omega)
  unfold stopColumn
  rw [if_pos ⟨hsame, hcolumns⟩, startColumn_of_hasLine hlength hspan hline hle hlt]
  dsimp only
  omega

/-- A span that goes on behind its first line is marked to the end of the line. -/
theorem stopColumn_of_lt (hstop : before.length + line.length + mark.length < stop) :
    stopColumn span line = line.length := by
  have hbounds := And.intro hspan.lt hspan.le
  -- nothing comes behind a last line
  have hmark : IsBreak mark rest := by
    refine hline.ends.resolve_right ?_
    rintro ⟨rfl, rfl⟩
    rw [Source.length, hline.split] at hbounds
    simp only [List.append_nil, List.length_append, List.length_nil] at hbounds hstop
    omega
  obtain ⟨hstartLine, -⟩ := start_of_hasLine hlength hspan hline hle hlt
  have hstopLine :=
    Source.lt_location_line_of_hasLine hline hmark (stop - 1) (by omega) (by omega)
  rw [← hspan.stop_eq.1, ← hstartLine] at hstopLine
  have hdiffer : ¬ (span.stop.line = span.start.line ∧
      span.start.column ≤ span.stop.column) := by
    rintro ⟨hsame, -⟩
    rw [hsame] at hstopLine
    exact Nat.lt_irrefl _ hstopLine
  have hcut : line.length.toUInt32.toNat = line.length := UInt32.toNat_ofNat_of_lt' (by omega)
  unfold stopColumn
  rw [if_neg hdiffer, startColumn_of_hasLine hlength hspan hline hle hlt]
  dsimp only
  rw [hcut]
  omega

theorem carets_of_hasLine :
    stopColumn span line - startColumn span =
      (if stop ≤ before.length + line.length + mark.length then stop
      else before.length + line.length) - start := by
  rw [startColumn_of_hasLine hlength hspan hline hle hlt]
  split_ifs with hstop
  · rw [stopColumn_of_le hlength hspan hline hle hlt hstop]
    omega
  · rw [stopColumn_of_lt hlength hspan hline hle hlt (Nat.lt_of_not_le hstop)]
    omega

end

/-- A reporter that knows the source shows the line that a span starts on. -/
theorem exists_sourceLine {source : Source} {span : Span} {start stop : Nat}
    {reporter : Reporter} {file : Text} (hlength : source.length < UInt32.size - 1)
    (hspan : source.Stretch span start stop)
    (hsource : reporter.sources.lookup file = some source.content) :
    ∃ before line mark rest, source.content.HasLine before line mark rest ∧
      before.length ≤ start ∧ start < before.length + line.length ∧
      reporter.sourceLine file span.start.line = line := by
  obtain ⟨b, hfirst, hb⟩ := hspan.first
  obtain ⟨lines, ends, hsplits⟩ := source.content.exists_splits
  obtain ⟨before, line, mark, rest, hline, hget, hle, hbreak⟩ :=
    hsplits.exists_hasLine (Nat.lt_of_lt_of_le hspan.lt hspan.le)
  have hlt := hline.lt_of_not_isLineBreak hfirst hb hbreak
  have hnumber := (start_of_hasLine hlength hspan hline hle hlt).1
  refine ⟨before, line, mark, rest, hline, hle, hlt, ?_⟩
  rw [Reporter.sourceLine_of_splits hsource hsplits,
    if_neg (line_ne_zero hlength hspan hline hle hlt), hnumber, Nat.add_sub_cancel_left, hget,
    Option.getD_some]

/-- In text without colours, a diagnostic of a compilation is reported with the line that its
span starts on. The row below has a blank for each byte of the line before the span, a tab for
a tab and a space for any other, and then carets. They go up to the end of the span, if that is
on the line or in the break that ends it, and up to the end of the line otherwise. So there is
one for each byte of the span on the line, at least one, and the row is not longer than the
line, unless the last byte of the span belongs to the break. -/
theorem emit_underlines_span (style : Style) (source : Source)
    (hlength : source.length < UInt32.size - 1) (d : Diagnostic)
    (hd : d ∈ (Compilation.of style source).diagnostics) (reporter : Reporter)
    (hsource : reporter.sources.lookup d.file = some source.content) :
    ∃ start stop before line mark rest,
      (d.span = source.span start stop ∧ start < stop ∧ stop ≤ source.length) ∧
      (source.content.HasLine before line mark rest ∧ before.length ≤ start ∧
        start < before.length + line.length) ∧
      let column := d.span.start.column.toNat - 1
      let lineEnd := before.length + line.length
      let carets := (if stop ≤ lineEnd + mark.length then stop else lineEnd) - start
      column = start - before.length ∧
      ({ reporter with colors := false, format := .text }.emit d).1 =
        headline false d ++
          (placeRow d ++ excerptRows d.span.start.line.toNat line (marks line column carets)) ∧
      1 ≤ carets ∧
      (carets = min stop lineEnd - start ↔ ¬ (lineEnd < stop ∧ stop ≤ lineEnd + mark.length)) ∧
      ((marks line column carets).length ≤ line.length ↔
        ¬ (lineEnd < stop ∧ stop ≤ lineEnd + mark.length)) := by
  obtain ⟨start, stop, hspan⟩ := Compilation.exists_stretch hd
  obtain ⟨before, line, mark, rest, hline, hle, hlt, hshown⟩ :=
    exists_sourceLine hlength hspan hsource
  have hstop := hspan.lt
  refine ⟨start, stop, before, line, mark, rest, ⟨hspan.span_eq, hspan.lt, hspan.le⟩,
    ⟨hline, hle, hlt⟩, ?_⟩
  intro column lineEnd carets
  have hcolumn : column = start - before.length :=
    startColumn_of_hasLine hlength hspan hline hle hlt
  have hcarets : stopColumn d.span line - column = carets :=
    carets_of_hasLine hlength hspan hline hle hlt
  have hcount : carets =
      if stop ≤ lineEnd + mark.length then stop - start else lineEnd - start :=
    apply_ite (· - start) _ _ _
  have hwidth : (marks line column carets).length = start - before.length + carets := by
    rw [length_marks (by omega), hcolumn]
  refine ⟨hcolumn, ?_, ?_, ?_, ?_⟩
  · rw [← hcarets]
    exact emit_eq_rows hshown (line_ne_zero hlength hspan hline hle hlt)
      (show column < line.length by omega)
  · rw [hcount]
    split_ifs <;> omega
  · rw [hcount]
    split_ifs <;> omega
  · rw [hwidth, hcount]
    split_ifs <;> omega

/-- A comment behind a tab that is still open on the next line. -/
theorem emit_underlines_span_tab :
    let source := Source.ofText (utf8 "\t/*a\nb")
    let reporter := Reporter.addSource {} source.name source.content
    let d := (Problem.openLiteral .blockComment 1).diagnostic (source.span 1 6)
    (source.length < UInt32.size - 1 ∧ d ∈ (Compilation.of {} source).diagnostics ∧
        reporter.sources.lookup d.file = some source.content) ∧
      (∃ start stop before line mark rest carets, d.span = source.span start stop ∧
        source.content.HasLine before line mark rest ∧ before.length ≤ start ∧
        start < before.length + line.length ∧ 1 ≤ carets ∧
        ({ reporter with colors := false, format := .text }.emit d).1 =
          headline false d ++ (placeRow d ++ excerptRows 1 line (marks line 1 carets))) ∧
      (reporter.emit d).1 =
        headline false d ++ (placeRow d ++ excerptRows 1 (utf8 "\t/*a") (utf8 "\t^^^")) := by
  intro source reporter d
  have hlength : source.length < UInt32.size - 1 := by decide +kernel
  have hd : d ∈ (Compilation.of {} source).diagnostics := by decide +kernel
  have hsource : reporter.sources.lookup d.file = some source.content := by decide +kernel
  obtain ⟨start, stop, before, line, mark, rest, hspan, hline, -, hemit, hcarets, -⟩ :=
    emit_underlines_span {} source hlength d hd reporter hsource
  have hplace : d.span.start.line.toNat = 1 ∧ d.span.start.column.toNat - 1 = 1 := by
    decide +kernel
  rw [hplace.1, hplace.2] at hemit
  exact ⟨⟨hlength, hd, hsource⟩,
    ⟨start, stop, before, line, mark, rest, _, hspan.1, hline.1, hline.2.1, hline.2.2, hcarets,
      hemit⟩,
    by decide +kernel⟩

/-- The last byte of an open comment is the line feed that ends its only line: three carets
below two bytes. -/
theorem emit_underlines_line_feed :
    let source := Source.ofText (utf8 "/*\n")
    let reporter := Reporter.addSource {} source.name source.content
    let d := (Problem.openLiteral .blockComment 1).diagnostic (source.span 0 3)
    (d ∈ (Compilation.of {} source).diagnostics ∧
      reporter.sources.lookup d.file = some source.content) ∧
      (reporter.emit d).1 = headline false d ++
        (placeRow d ++ excerptRows 1 (utf8 "/*") (utf8 "^^^")) ∧
      (utf8 "/*").length < (utf8 "^^^").length := by
  decide +kernel

end Report

end LetBlocks
