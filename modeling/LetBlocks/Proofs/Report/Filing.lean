import LetBlocks.Proofs.Node.Sites
import LetBlocks.Proofs.Report.Threading
import LetBlocks.Proofs.Token.Placement
import LetBlocks.Report

/-!
Every diagnostic of a compilation bears the name of its source, both in the span and as its
file. So a journal takes it as it is, behind what it holds already, and a reporter that has
just been told the content of the source finds the line to show in that content, whatever other
sources it knows.
-/

namespace LetBlocks

/-! ### The diagnostics of a source -/

namespace Token

theorem file_of_mem_placed {source : Source} {pos : Nat} {ps : List Piece} {t : Token × Bool}
    (h : t ∈ Piece.placed source pos ps) : t.1.span.start.file = source.name := by
  induction ps generalizing pos with
  | nil => cases h
  | cons p ps ih =>
      rcases List.mem_cons.1 h with rfl | hmore
      · rfl
      · exact ih hmore

theorem file_of_mem_lexAlong {source : Source} {regions : List Region} {t : Token}
    (h : t ∈ (lexAlong source regions).tokens) : t.span.start.file = source.name := by
  rw [tokens_lexAlong, List.mem_append, List.mem_singleton, List.mem_map] at h
  rcases h with ⟨x, hx, rfl⟩ | rfl
  · exact file_of_mem_placed hx
  · rfl

end Token

/-- The diagnostics of a compilation bear the name of the source. -/
theorem Compilation.file_of_mem_diagnostics {style : Style} {source : Source}
    {regions : List Region} {d : Diagnostic}
    (hd : d ∈ (Compilation.along style source regions).diagnostics) :
    d.file = source.name ∧ d.span.start.file = source.name := by
  obtain ⟨problem, t, ht, rfl⟩ : ∃ (problem : Problem) (t : Token),
      t.span.start.file = source.name ∧ d = problem.diagnostic t.span := by
    rw [along_eq] at hd
    rcases List.mem_append.1 hd with hlex | hparse
    · rw [Token.diagnostics_lexAlong, List.mem_filterMap] at hlex
      obtain ⟨x, hx, hreport⟩ := hlex
      unfold Token.report? at hreport
      split at hreport
      · exact ⟨_, x.1, Token.file_of_mem_placed hx, (Option.some.inj hreport).symm⟩
      · cases hreport
    · obtain ⟨t, ht, -, problem, heq⟩ := Node.standsAmong_parse hparse
      exact ⟨problem, t, Token.file_of_mem_lexAlong ((List.takeWhile_sublist _).subset ht),
        heq⟩
  exact ⟨ht, ht⟩

/-! ### Reporters -/

namespace Reporter

/-- Two reporters that report in the same way, if they find the same lines. -/
def SameManner (r r' : Reporter) : Prop := r.colors = r'.colors ∧ r.format = r'.format

theorem SameManner.describe {r r' : Reporter} (h : r.SameManner r') {d : Diagnostic}
    (hline : r.sourceLine d.file d.span.start.line = r'.sourceLine d.file d.span.start.line) :
    r.describe d = r'.describe d := by
  rw [Reporter.describe, Reporter.describe, h.1, h.2, hline]

/-- The source that was made known last is the one to be shown under its name. -/
theorem sourceLine_addSource (r r' : Reporter) (name content : Text) (number : UInt32) :
    (r.addSource name content).sourceLine name number =
      (r'.addSource name content).sourceLine name number := by
  have hlookup (r : Reporter) : (r.addSource name content).sources.lookup name =
      some content := by
    simp [addSource]
  rw [sourceLine, sourceLine, hlookup, hlookup]

theorem SameManner.describe_addSource {r r' : Reporter} (h : r.SameManner r') {name : Text}
    (content : Text) {d : Diagnostic} (hfile : d.file = name) :
    (r.addSource name content).describe d = (r'.addSource name content).describe d := by
  have hmanner : (r.addSource name content).SameManner (r'.addSource name content) := h
  apply hmanner.describe
  rw [hfile]
  exact sourceLine_addSource r r' name content _

theorem sameManner_foldl_counted (r : Reporter) (ds : List Diagnostic) :
    (ds.foldl counted r).SameManner r := by
  induction ds generalizing r with
  | nil => exact ⟨rfl, rfl⟩
  | cons d ds ih =>
      have hcounted : (r.counted d).SameManner r := by
        unfold counted
        split <;> exact ⟨rfl, rfl⟩
      obtain ⟨hcolors, hformat⟩ := ih (r.counted d)
      exact ⟨hcolors.trans hcounted.1, hformat.trans hcounted.2⟩

end Reporter

end LetBlocks
