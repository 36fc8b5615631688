import LetBlocks.Proofs.Region.Open
import LetBlocks.Proofs.Token.Stream
import Mathlib.Data.List.Chain

/-!
The regions that the scan finds follow one another from the first byte of the script to the
last. `Division` says what a scan can find: code if there is any, then a literal, and so on to
the end. Each of the facts about the regions of a script is read off that.
-/

namespace LetBlocks.Region

/-- Regions that are not empty and follow one another without a gap, the first from `pos` on
and the last up to `stop`. -/
def Covers : Nat → List Region → Nat → Prop
  | pos, [], stop => pos = stop
  | pos, region :: regions, stop =>
      region.start = pos ∧ region.start < region.stop ∧ Covers region.stop regions stop

def RunsOut (region : Region) : Prop :=
  (region.kind = .template ∨ region.kind = .blockComment) ∧ region.closed = false

/-- A literal that the scan of a text up to `stop` can find. Only a string or a regular
expression can end open before the end of the text, at a line break. -/
structure Sound (stop : Nat) (region : Region) : Prop where
  kind_ne_code : region.kind ≠ .code
  start_lt_stop : region.start < region.stop
  closed_of_lineComment : region.kind = .lineComment → region.closed = true
  stop_of_runsOut : region.RunsOut → region.stop = stop

inductive Division (stop : Nat) : Nat → List Region → Prop
  | done : Division stop stop []
  | code {pos : Nat} (hpos : pos < stop) :
      Division stop pos [{ kind := .code, start := pos, stop }]
  | literal {region : Region} {regions : List Region} (hregion : Sound stop region)
      (hmore : Division stop region.stop regions) :
      Division stop region.start (region :: regions)
  | codeLiteral {pos : Nat} {region : Region} {regions : List Region}
      (hpos : pos < region.start)
      (hregion : Sound stop region) (hmore : Division stop region.stop regions) :
      Division stop pos ({ kind := .code, start := pos, stop := region.start } :: region ::
        regions)

/-! ### What the scan finds -/

theorem sound_of_readLiteral? {expect : Expectation} {pos : Nat} {text : Text} {kind : Kind}
    {ending : Ending} (h : readLiteral? expect ⟨pos, text⟩ = some (kind, ending)) :
    Sound (pos + text.length)
      { kind, start := pos, stop := ending.pos, closed := ending.closed } := by
  obtain ⟨used, hne, hused, hpos, -⟩ := Piece.next?_of_literal h
  have hpositive : 0 < used.length := List.length_pos_iff.2 hne
  refine {
    kind_ne_code := kind_of_readLiteral? h
    start_lt_stop := ?_
    closed_of_lineComment := ?_
    stop_of_runsOut := ?_ }
  · show pos < ending.pos
    omega
  · rintro rfl
    exact closed_of_lineComment h
  · rintro ⟨hkind, hopen⟩
    rw [rest_of_open_readLiteral? h hkind hopen, List.append_nil] at hused
    rw [hused]
    exact hpos

/-- Code that the scan has passed, in front of a literal. -/
theorem division_pushCode {stop pos : Nat} {region : Region} {regions : List Region}
    (hpos : pos ≤ region.start) (hregion : Sound stop region)
    (hmore : Division stop region.stop regions) :
    Division stop pos ((pushCode pos region.start #[]).toList ++ region :: regions) := by
  unfold pushCode
  split_ifs with hcode
  · exact .codeLiteral hcode hregion hmore
  · obtain rfl : pos = region.start := Nat.le_antisymm hpos (Nat.not_lt.1 hcode)
    exact .literal hregion hmore

theorem division_scanFrom {stop pos : Nat} (expect : Expectation) (text : Text)
    (hstop : stop = pos + text.length) :
    Division stop pos (scanFrom pos expect #[] ⟨pos, text⟩).toList := by
  induction hlen : text.length using Nat.strong_induction_on generalizing pos expect text with
  | _ n ih =>
      obtain ⟨code, rest, expect', rfl, hpasses, hliteral, -⟩ :=
        Piece.exists_codeSpan expect text
      rw [List.length_append] at hstop hlen
      rw [hpasses pos #[] pos]
      cases hread : readLiteral? expect' ⟨pos + code.length, rest⟩ with
      | none =>
          obtain rfl : rest = [] := hliteral.resolve_right fun h => h _ hread
          rw [scanFrom, pushCode]
          split_ifs with hcode
          · subst hstop
            exact .code hcode
          · obtain rfl : pos = stop := by simp only [List.length_nil] at hstop; omega
            exact .done
      | some read =>
          obtain ⟨kind, ending⟩ := read
          obtain ⟨used, hne, hused, hpos, -⟩ := Piece.next?_of_literal hread
          have hpositive : 0 < used.length := List.length_pos_iff.2 hne
          have hrest : rest.length = used.length + ending.rest.length := by
            rw [← List.length_append, ← hused]
          have hsound := sound_of_readLiteral? hread
          rw [show pos + code.length + rest.length = stop by omega] at hsound
          rw [scanFrom_literal hread, toList_scanFrom, Array.toList_push, List.append_assoc,
            List.singleton_append]
          have hmore :=
            @ih ending.rest.length (by omega) ending.pos (expect'.afterLiteral kind)
              ending.rest
              (by omega) rfl
          exact division_pushCode (Nat.le_add_right pos code.length) hsound hmore

theorem division_scan (text : Text) : Division text.length 0 (scan text) := by
  unfold scan
  split_ifs with hbang
  · obtain ⟨more, rfl⟩ := List.isPrefixOf_iff_prefix.1 hbang
    obtain ⟨run, rest, rfl, hrun, hrest⟩ := Text.exists_run (!·.isLineBreak) more
    have hread : readLineComment 2 ((utf8 "#!" ++ (run ++ rest)).drop 2) =
        ⟨⟨2 + run.length, rest⟩, true⟩ := by
      rw [show (utf8 "#!" ++ (run ++ rest)).drop 2 = run ++ rest from rfl, readLineComment,
        skipWhile_append 2 hrun hrest]
    have hlength : (utf8 "#!" ++ (run ++ rest)).length = 2 + run.length + rest.length := by
      rw [List.length_append, List.length_append, ← Nat.add_assoc]
      rfl
    rw [hread, toList_scanFrom]
    have hsound : Sound (utf8 "#!" ++ (run ++ rest)).length
        { kind := .lineComment, start := 0, stop := 2 + run.length } := {
      kind_ne_code := by simp
      start_lt_stop := by simp only; omega
      closed_of_lineComment := fun _ => rfl
      stop_of_runsOut := by simp [RunsOut] }
    exact .literal hsound (division_scanFrom .operand rest hlength)
  · exact division_scanFrom .operand text (by simp)

/-! ### What follows for the regions -/

namespace Division

variable {stop pos : Nat} {regions : List Region}

theorem covers (h : Division stop pos regions) : Covers pos regions stop := by
  induction h with
  | done => exact rfl
  | code hpos => exact ⟨rfl, hpos, rfl⟩
  | literal hregion _ ih => exact ⟨rfl, hregion.start_lt_stop, ih⟩
  | codeLiteral hpos hregion _ ih => exact ⟨rfl, hpos, rfl, hregion.start_lt_stop, ih⟩

theorem le (h : Division stop pos regions) : pos ≤ stop := by
  induction h with
  | done => exact Nat.le_refl _
  | code hpos => exact Nat.le_of_lt hpos
  | literal hregion _ ih => exact Nat.le_trans (Nat.le_of_lt hregion.start_lt_stop) ih
  | codeLiteral hpos hregion _ ih =>
      exact Nat.le_trans (Nat.le_of_lt (Nat.lt_trans hpos hregion.start_lt_stop)) ih

theorem closed (h : Division stop pos regions) :
    ∀ r ∈ regions, r.kind = .code ∨ r.kind = .lineComment → r.closed = true := by
  have hliteral : ∀ {r : Region}, Sound stop r → r.kind = .code ∨ r.kind = .lineComment →
      r.closed = true :=
    fun hr hkind => hr.closed_of_lineComment (hkind.resolve_left hr.kind_ne_code)
  induction h with
  | done => simp
  | code => simp
  | literal hregion _ ih => exact List.forall_mem_cons.2 ⟨hliteral hregion, ih⟩
  | codeLiteral _ hregion _ ih =>
      exact List.forall_mem_cons.2
        ⟨fun _ => rfl, List.forall_mem_cons.2 ⟨hliteral hregion, ih⟩⟩

/-- Only at the end of the text is there nothing left to find. -/
theorem eq_nil (h : Division stop stop regions) : regions = [] := by
  cases h with
  | done => rfl
  | code hpos => exact absurd hpos (Nat.lt_irrefl _)
  | literal hregion hmore => exact absurd hregion.start_lt_stop (Nat.not_lt.2 hmore.le)
  | codeLiteral hpos hregion hmore =>
      exact absurd (Nat.lt_trans hpos hregion.start_lt_stop) (Nat.not_lt.2 hmore.le)

/-- Code is followed by a literal if by anything, so it never follows code. What runs out
reaches the end of the text, where there is nothing more to find. -/
theorem isChain (h : Division stop pos regions) :
    regions.IsChain (fun r s => ¬ (r.kind = .code ∧ s.kind = .code) ∧ ¬ r.RunsOut) := by
  have hliteral : ∀ {r s : Region} {rs : List Region}, Sound stop r → Division stop r.stop rs →
      s ∈ rs.head? → ¬ (r.kind = .code ∧ s.kind = .code) ∧ ¬ r.RunsOut := by
    intro r s rs hr hmore hs
    refine ⟨fun hcodes => hr.kind_ne_code hcodes.1, fun hout => ?_⟩
    rw [hr.stop_of_runsOut hout] at hmore
    rw [hmore.eq_nil] at hs
    cases hs
  induction h with
  | done => exact .nil
  | code => exact .singleton _
  | literal hregion hmore ih => exact List.isChain_cons.2 ⟨fun _ => hliteral hregion hmore, ih⟩
  | codeLiteral _ hregion hmore ih =>
      refine List.isChain_cons_cons.2 ⟨⟨fun hcodes => hregion.kind_ne_code hcodes.2, ?_⟩, ?_⟩
      · simp [RunsOut]
      · exact List.isChain_cons.2 ⟨fun _ => hliteral hregion hmore, ih⟩

end Division

/-- The regions of a script are not empty and divide it from its first byte to its last. Code
never follows code; code and line comments are never open, and an open template or block
comment is the last region. All this holds whatever is nested in templates: the recursion that
reads them returns wherever it is called, inside the text, and the scan reads what it
returns. -/
theorem scan_partitions (text : Text) :
    Covers 0 (scan text) text.length ∧
      (scan text = [] ↔ text = []) ∧
      (scan text).IsChain (fun r s => ¬ (r.kind = .code ∧ s.kind = .code)) ∧
      (∀ r ∈ scan text, r.kind = .code ∨ r.kind = .lineComment → r.closed = true) ∧
      (∀ before r after, scan text = before ++ r :: after →
        (r.kind = .template ∨ r.kind = .blockComment) ∧ r.closed = false → after = []) ∧
      (∀ part before rest, before ++ rest = text →
        ∃ e, TemplateReading part ⟨before.length, rest⟩ e ∧
          e.pos + e.rest.length = text.length ∧
          (part = .chars → readTemplate .chars [] ⟨before.length, rest⟩ = e)) := by
  have hdivision := division_scan text
  have hchain := hdivision.isChain
  refine ⟨hdivision.covers, ?_, hchain.imp fun _ _ h => h.1, hdivision.closed, ?_, ?_⟩
  · constructor
    · intro hnil
      have hcovers := hdivision.covers
      rw [hnil] at hcovers
      exact List.length_eq_zero_iff.1 hcovers.symm
    · rintro rfl
      exact hdivision.eq_nil
  · intro before r after hsplit hout
    cases after with
    | nil => rfl
    | cons s after =>
        rw [hsplit] at hchain
        exact absurd hout (List.isChain_cons_cons.1 (List.isChain_append.1 hchain).2.1).1.2
  · rintro part before rest rfl
    obtain ⟨e, he⟩ := exists_templateReading part ⟨before.length, rest⟩
    refine ⟨e, he, ?_, ?_⟩
    · rw [List.length_append]
      exact he.spec.1
    · rintro rfl
      exact he.readTemplate_eq []

end LetBlocks.Region
