import LetBlocks.Proofs.Report.Threading
import Mathlib.Data.List.DropRight

/-!
Several callers may record in one journal, and several sources may be compiled with one.
Nothing that is recorded is lost until the journal is reset, the counts are those of the
entries, and compiling a source neither looks at the entries before nor changes them.
-/

namespace LetBlocks.Journal

inductive Call
  | report (d : Diagnostic)
  | warn (code message : Text) (span : Span)
  | error (code message : Text) (span : Span)
  | reset
  | compile (style : Style) (source : Source) (regions : List Region)

namespace Call

def apply (journal : Journal) : Call → Journal
  | report d => journal.record d
  | warn code message span => journal.note .warning code message span
  | error code message span => journal.note .error code message span
  | reset => journal.reset
  | compile style source regions => (journal.compileAlong style source regions).2

/-- What a call puts into a journal, whatever the journal holds. -/
def contribution : Call → List Diagnostic
  | report d => [d.filed]
  | warn code message span =>
    [{ severity := .warning, code, message, file := span.start.file, span }]
  | error code message span =>
    [{ severity := .error, code, message, file := span.start.file, span }]
  | reset => []
  | compile style source regions => (({} : Journal).compileAlong style source regions).2.toList

def isReset : Call → Bool
  | reset => true
  | _ => false

def sinceReset (calls : List Call) : List Call := calls.rtakeWhile (!·.isReset)

def run (calls : List Call) : Journal := calls.foldl apply {}

theorem run_concat (calls : List Call) (call : Call) :
    run (calls ++ [call]) = call.apply (run calls) := by
  rw [run, List.foldl_append]
  rfl

end Call

/-! ### Counts -/

/-- The counts of a journal are the numbers of its entries, and every entry is filed. -/
structure Kept (journal : Journal) : Prop where
  warnings : journal.warnings = journal.toList.countP (·.severity = .warning)
  errors : journal.errors = journal.toList.countP (·.severity = .error)
  filed : ∀ d ∈ journal.toList, d.file = [] → d.span.start.file = []

theorem kept_empty : Kept {} := ⟨rfl, rfl, by simp [toList]⟩

theorem file_filed {d : Diagnostic} (h : d.filed.file = []) :
    d.filed.span.start.file = [] := by
  unfold Diagnostic.filed at h ⊢
  split
  · next hfile => rwa [if_pos hfile] at h
  · next hfile =>
    rw [if_neg hfile] at h
    exact absurd h hfile

theorem Kept.record {journal : Journal} (h : journal.Kept) (d : Diagnostic) :
    (journal.record d).Kept := by
  obtain ⟨hwarnings, herrors, hfiled⟩ := h
  have hcount : ∀ severity : Severity,
      (journal.record d).toList.countP (·.severity = severity) =
        journal.toList.countP (·.severity = severity) +
          if d.severity = severity then 1 else 0 := by
    intro severity
    rw [toList_record, List.countP_append, List.countP_singleton, Diagnostic.severity_filed]
    simp
  refine ⟨?_, ?_, ?_⟩
  · rw [hcount, ← hwarnings]
    unfold Journal.record
    cases d.severity <;> rfl
  · rw [hcount, ← herrors]
    unfold Journal.record
    cases d.severity <;> rfl
  · rw [toList_record, List.forall_mem_append, List.forall_mem_singleton]
    exact ⟨hfiled, file_filed⟩

theorem Kept.note {journal : Journal} (h : journal.Kept) (severity : Severity)
    (code message : Text) (span : Span) : (journal.note severity code message span).Kept := by
  rw [Journal.note]
  exact h.record _

theorem Kept.recordAll {journal : Journal} (h : journal.Kept) (ds : List Diagnostic) :
    (journal.recordAll ds).Kept := by
  induction ds generalizing journal with
  | nil => exact h
  | cons d ds ih => exact ih (h.record d)

theorem Kept.apply {journal : Journal} (h : journal.Kept) (call : Call) :
    (call.apply journal).Kept := by
  cases call with
  | report d => exact h.record d
  | warn code message span => exact h.note .warning code message span
  | error code message span => exact h.note .error code message span
  | reset => exact kept_empty
  | compile style source regions =>
      rw [Call.apply, compileAlong, compilation_eq]
      exact h.recordAll _

theorem kept_run (calls : List Call) : (Call.run calls).Kept := by
  induction calls using List.reverseRecOn with
  | nil => exact kept_empty
  | append_singleton calls call ih =>
      rw [Call.run_concat]
      exact ih.apply call

/-- An entry is a warning or an error. -/
theorem Kept.sum {journal : Journal} (h : journal.Kept) :
    journal.warnings + journal.errors = journal.size := by
  have hlength := journal.toList.length_eq_countP_add_countP (·.severity = .warning)
  have hother : journal.toList.countP (fun d => ¬ decide (d.severity = .warning) = true) =
      journal.toList.countP (·.severity = .error) := by
    apply List.countP_congr
    intro d _
    cases d.severity <;> simp
  rw [h.warnings, h.errors, ← hother, ← hlength]
  rfl

/-! ### Entries -/

theorem toList_note (journal : Journal) (severity : Severity) (code message : Text)
    (span : Span) :
    (journal.note severity code message span).toList =
      journal.toList ++ [{ severity, code, message, file := span.start.file, span }] := by
  rw [note, toList_record, Diagnostic.filed_of_file_eq rfl]

/-- Compiling with a journal that holds something is compiling with an empty one, and recording
what that has got. -/
theorem compileAlong_eq (journal : Journal) (style : Style) (source : Source)
    (regions : List Region) :
    journal.compileAlong style source regions =
      ((({} : Journal).compileAlong style source regions).1,
        journal.recordAll (({} : Journal).compileAlong style source regions).2.toList) := by
  have hfresh : (({} : Journal).compileAlong style source regions).2.toList =
      (Compilation.along style source regions).diagnostics :=
    toList_compilation {} style source regions
  rw [hfresh, compileAlong, compileAlong, compilation_eq, compilation_eq]

theorem toList_compileAlong (journal : Journal) (style : Style) (source : Source)
    (regions : List Region) :
    (journal.compileAlong style source regions).2.toList =
      journal.toList ++ (({} : Journal).compileAlong style source regions).2.toList := by
  have hfresh := toList_compilation {} style source regions
  exact (toList_compilation journal style source regions).trans (congrArg _ hfresh.symm)

/-- A call that is no reset adds what it contributes behind all that is there. -/
theorem toList_apply {call : Call} (h : call.isReset = false) (journal : Journal) :
    (call.apply journal).toList = journal.toList ++ call.contribution := by
  cases call with
  | report d => exact toList_record journal d
  | warn code message span =>
      rw [Call.apply, toList_note]
      rfl
  | error code message span =>
      rw [Call.apply, toList_note]
      rfl
  | reset => cases h
  | compile style source regions => exact toList_compileAlong journal style source regions

theorem toList_run (calls : List Call) :
    (Call.run calls).toList = (Call.sinceReset calls).flatMap Call.contribution := by
  induction calls using List.reverseRecOn with
  | nil => rfl
  | append_singleton calls call ih =>
      rw [Call.run_concat, Call.sinceReset]
      cases hreset : call.isReset with
      | true =>
          cases call with
          | reset =>
              simp [Call.isReset, List.rtakeWhile_concat_neg, Call.apply, Journal.reset,
                toList]
          | report d => cases hreset
          | warn code message span => cases hreset
          | error code message span => cases hreset
          | compile style source regions => cases hreset
      | false =>
          rw [List.rtakeWhile_concat_pos _ _ _ (by simp [hreset]), toList_apply hreset, ih,
            List.flatMap_append, List.flatMap_singleton]
          rfl

/-- A journal that is shared loses nothing and mixes nothing up. After any calls its entries
are what the calls since the last reset have contributed, in order; its counts are those of its
entries, and an entry without a file has none in its span. Compiling a source gives the same
output with any journal as with an empty one, and puts the same diagnostics behind what is
there, where they can be told from the rest. -/
theorem calls_accumulate (calls : List Call) :
    let journal := Call.run calls
    journal.toList = (Call.sinceReset calls).flatMap Call.contribution ∧
      journal.warnings = journal.toList.countP (·.severity = .warning) ∧
      journal.errors = journal.toList.countP (·.severity = .error) ∧
      journal.warnings + journal.errors = journal.size ∧
      (∀ d ∈ journal.toList, d.file = [] → d.span.start.file = []) ∧
      ∀ (before : Journal) (style : Style) (source : Source) (regions : List Region),
        let fresh := ({} : Journal).compileAlong style source regions
        let shared := before.compileAlong style source regions
        shared.1 = fresh.1 ∧ shared.2 = before.recordAll fresh.2.toList ∧
          shared.2.toList = before.toList ++ fresh.2.toList ∧
          shared.2.since before.size = fresh.2.toList := by
  intro journal
  obtain ⟨hwarnings, herrors, hfiled⟩ := kept_run calls
  refine ⟨toList_run calls, hwarnings, herrors, (kept_run calls).sum, hfiled, ?_⟩
  intro before style source regions fresh shared
  obtain ⟨houtput, hjournal⟩ := Prod.ext_iff.1 (compileAlong_eq before style source regions)
  have hlist : shared.2.toList = before.toList ++ fresh.2.toList :=
    toList_compileAlong before style source regions
  refine ⟨houtput, hjournal, hlist, ?_⟩
  rw [since, hlist]
  exact List.drop_left

end LetBlocks.Journal
