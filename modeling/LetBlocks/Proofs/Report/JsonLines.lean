import LetBlocks.Proofs.Json.Spelling
import LetBlocks.Report

/-!
A diagnostic in JSON is one line, and a reader of JSON finds in it what was reported: the
severity, the code, the message, the file, and where the span starts and ends. None of the
texts can be mistaken for a part of the object around them.
-/

namespace LetBlocks

open Json

def Location.toJson (l : Location) : Value :=
  .object [(utf8 "line", .number l.line.toNat 0), (utf8 "column", .number l.column.toNat 0)]

/-- What is reported of a diagnostic as a JSON value. -/
def Diagnostic.toJson (d : Diagnostic) : Value :=
  .object
    [(utf8 "severity", .string (utf8 d.severity.name)), (utf8 "code", .string d.code),
      (utf8 "message", .string d.message),
      (utf8 "span", .object
        [(utf8 "file", .string d.file), (utf8 "start", d.span.start.toJson),
          (utf8 "end", d.span.stop.toJson)])]

namespace Report

theorem spells_position (l : Location) : Spells (position l) l.toJson := by
  refine spells_object [⟨"line", _, _⟩, ⟨"column", _, _⟩] (by simp) ?_
  rw [List.forall_mem_cons, List.forall_mem_singleton]
  exact ⟨Entry.valid_mk (by decide) (spells_natural _),
    Entry.valid_mk (by decide) (spells_natural _)⟩

theorem spells_span (d : Diagnostic) :
    Spells
      (object
        [stringMember "file" (escape d.file), member "start" (position d.span.start),
          member "end" (position d.span.stop)])
      (.object [(utf8 "file", .string d.file), (utf8 "start", d.span.start.toJson),
        (utf8 "end", d.span.stop.toJson)]) := by
  rw [stringMember_eq]
  refine spells_object [⟨"file", _, _⟩, ⟨"start", _, _⟩, ⟨"end", _, _⟩] (by simp) ?_
  rw [List.forall_mem_cons, List.forall_mem_cons, List.forall_mem_singleton]
  exact ⟨Entry.valid_mk (by decide) (spells_string _),
    Entry.valid_mk (by decide) (spells_position _),
    Entry.valid_mk (by decide) (spells_position _)⟩

/-- The name of a severity needs no escapes. -/
theorem escape_severity (severity : Severity) :
    escape (utf8 severity.name) = utf8 severity.name := by
  cases severity <;> decide

theorem exists_jsonLine (d : Diagnostic) :
    ∃ body, jsonLine d = body ++ [Byte.lf] ∧ Spells body d.toJson := by
  refine ⟨_, rfl, ?_⟩
  rw [stringMember_eq, stringMember_eq "code", stringMember_eq "message", ← escape_severity]
  refine spells_object [⟨"severity", _, _⟩, ⟨"code", _, _⟩, ⟨"message", _, _⟩, ⟨"span", _, _⟩]
    (by simp) ?_
  rw [List.forall_mem_cons, List.forall_mem_cons, List.forall_mem_cons,
    List.forall_mem_singleton]
  exact ⟨Entry.valid_mk (by decide) (spells_string _),
    Entry.valid_mk (by decide) (spells_string _),
    Entry.valid_mk (by decide) (spells_string _), Entry.valid_mk (by decide) (spells_span d)⟩

/-- In JSON a diagnostic is reported on one line, free of control characters but for the line
feed at its end. The line is read as the severity, the code, the message, the file and the
places of the diagnostic, byte for byte. No two texts are escaped alike. -/
theorem emit_json_decodes (reporter : Reporter) (d : Diagnostic) :
    (∃ body, ({ reporter with format := .json }.emit d).1 = body ++ [Byte.lf] ∧
      ∀ b ∈ body, Byte.space ≤ b) ∧
      decode ({ reporter with format := .json }.emit d).1 = some d.toJson ∧
      Function.LeftInverse unescape escape ∧ Function.Injective escape := by
  obtain ⟨body, hline, hspells⟩ := exists_jsonLine d
  have hemit : ({ reporter with format := .json }.emit d).1 = body ++ [Byte.lf] := hline
  refine ⟨⟨body, hemit, hspells.printable⟩, ?_, leftInverse_unescape_escape,
    leftInverse_unescape_escape.injective⟩
  rw [hemit]
  exact hspells.decode_append (List.forall_mem_singleton.2 rfl) (List.cons_ne_nil _ _)

end Report

end LetBlocks
