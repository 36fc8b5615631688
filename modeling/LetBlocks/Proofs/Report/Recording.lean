import LetBlocks.Diagnostic
import Mathlib.Tactic.Common

/-!
What a journal holds after something has been recorded: all that it held before, and behind it
what was recorded, filed. Recording what another journal holds is the same as recording what
that one was told.
-/

namespace LetBlocks

theorem Diagnostic.filed_of_file_eq {d : Diagnostic} (h : d.file = d.span.start.file) :
    d.filed = d := by
  rw [filed, ← h, ite_self]

@[simp] theorem Problem.filed_diagnostic (problem : Problem) (span : Span) :
    (problem.diagnostic span).filed = problem.diagnostic span :=
  Diagnostic.filed_of_file_eq rfl

@[simp] theorem Diagnostic.severity_filed (d : Diagnostic) :
    d.filed.severity = d.severity := by
  unfold filed
  split <;> rfl

@[simp] theorem Diagnostic.code_filed (d : Diagnostic) : d.filed.code = d.code := by
  unfold filed
  split <;> rfl

@[simp] theorem Diagnostic.filed_filed (d : Diagnostic) : d.filed.filed = d.filed := by
  by_cases h : d.file = []
  · have hfiled : d.filed = { d with file := d.span.start.file } := if_pos h
    rw [hfiled]
    exact filed_of_file_eq rfl
  · have hfiled : d.filed = d := if_neg h
    rw [hfiled, hfiled]

/-- Diagnostics that are filed are each filed. -/
theorem Diagnostic.filed_of_mem {ds : List Diagnostic} (h : ds.map filed = ds) {d : Diagnostic}
    (hd : d ∈ ds) : d.filed = d := by
  rw [← h] at hd
  obtain ⟨e, -, rfl⟩ := List.mem_map.1 hd
  exact e.filed_filed

namespace Journal

theorem warn_eq_record (journal : Journal) (problem : Problem) (span : Span) :
    journal.warn problem span = journal.record (problem.diagnostic span) := rfl

theorem toList_record (journal : Journal) (d : Diagnostic) :
    (journal.record d).toList = journal.toList ++ [d.filed] := by
  unfold record
  cases d.severity <;> simp [toList]

@[simp] theorem record_filed (journal : Journal) (d : Diagnostic) :
    journal.record d.filed = journal.record d := by
  unfold record
  rw [d.severity_filed, d.filed_filed]

@[simp] theorem toList_empty : ({} : Journal).toList = [] := rfl

@[simp] theorem recordAll_nil (journal : Journal) : journal.recordAll [] = journal := rfl

theorem recordAll_append (journal : Journal) (ds es : List Diagnostic) :
    journal.recordAll (ds ++ es) = (journal.recordAll ds).recordAll es :=
  List.foldl_append

theorem recordAll_concat (journal : Journal) (ds : List Diagnostic) (d : Diagnostic) :
    journal.recordAll (ds ++ [d]) = (journal.recordAll ds).record d :=
  recordAll_append journal ds [d]

theorem toList_recordAll (journal : Journal) (ds : List Diagnostic) :
    (journal.recordAll ds).toList = journal.toList ++ ds.map Diagnostic.filed := by
  induction ds generalizing journal with
  | nil => simp
  | cons d ds ih =>
      rw [recordAll, List.foldl_cons, ← recordAll, ih, toList_record, List.map_cons,
        List.append_assoc, List.singleton_append]

@[simp] theorem recordAll_map_filed (journal : Journal) (ds : List Diagnostic) :
    journal.recordAll (ds.map Diagnostic.filed) = journal.recordAll ds := by
  simp only [recordAll, List.foldl_map, record_filed]

/-- With what `journal` holds recorded behind `before`, recording goes on in the same way. -/
theorem recordAll_toList_record (before journal : Journal) (d : Diagnostic) :
    before.recordAll (journal.record d).toList =
      (before.recordAll journal.toList).record d := by
  rw [toList_record, recordAll_concat, record_filed]

/-- What a journal has gained since a moment is what was recorded since. -/
theorem since_recordAll (journal : Journal) (ds : List Diagnostic) :
    (journal.recordAll ds).since journal.size = ds.map Diagnostic.filed := by
  have hsize : journal.size = journal.toList.length := rfl
  rw [since, toList_recordAll, hsize, List.drop_left]

end Journal

end LetBlocks
