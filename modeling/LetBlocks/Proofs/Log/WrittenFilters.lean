import LetBlocks.Proofs.Log.Filters
import LetBlocks.Proofs.Text.Bytes
import Mathlib.Order.Bounds.Basic

/-!
A written filter is a list of entries with commas between them. An entry with a `=` names the
module before its first `=`, with the level whose name follows; `*` stands there for all
modules that have no level of their own. An entry without a `=` names a module, which is heard
from `trace` on. Of several entries for the same module the last one counts. Here that is said
of the list of entries as a whole, and is proved of the filter that comes out of reading them
one after another.
-/

namespace LetBlocks.Log.Filter

/-- What stands before the first `=` of an entry; all of it if there is none. -/
def nameOf (entry : Text) : Text := entry.takeWhile (· ≠ Byte.equals)

/-- The level that is named behind the first `=` of an entry; `trace` if there is none. -/
def levelOf (entry : Text) : Level :=
  match entry.dropWhile (· ≠ Byte.equals) with
  | [] => Level.trace
  | _ :: name => Level.ofName name

def setsDefault (entry : Text) : Bool := (utf8 "*=").isPrefixOf entry

def names (module entry : Text) : Bool :=
  entry != [] && !setsDefault entry && nameOf entry == module

def levelFor? (module entry : Text) : Option Level :=
  if names module entry then some (levelOf entry) else none

def levelForAll? (entry : Text) : Option Level :=
  if setsDefault entry then some (levelOf entry) else none

/-- The default level after some entries, when it was `before`. -/
def writtenDefault (entries : List Text) (before : Level) : Level :=
  (lastOf? levelForAll? entries).getD before

/-- The level from which on a module is to be heard after some entries, when the default level
was `before`. -/
def writtenThreshold (entries : List Text) (before : Level) (module : Text) : Level :=
  (lastOf? (levelFor? module) entries).getD (writtenDefault entries before)

variable {entry name : Text}

/-! ### One entry -/

/-- An entry has a first `=`, or none at all. -/
theorem assigns_or_notMem (entry : Text) :
    (∃ name value, entry = name ++ Byte.equals :: value ∧ Byte.equals ∉ name) ∨
      Byte.equals ∉ entry := by
  by_cases hequals : Byte.equals ∈ entry
  · obtain ⟨name, value, hentry, hname⟩ := List.eq_append_cons_of_mem hequals
    exact .inl ⟨name, value, hentry, hname⟩
  · exact .inr hequals

section

variable (hname : Byte.equals ∉ name)
include hname

theorem forall_mem_ne_equals : ∀ b ∈ name, decide (b ≠ Byte.equals) = true := by
  intro b hb
  refine decide_eq_true ?_
  rintro rfl
  exact hname hb

theorem nameOf_assignment (value : Text) : nameOf (name ++ Byte.equals :: value) = name :=
  Text.takeWhile_append_stop (forall_mem_ne_equals hname) rfl

theorem levelOf_assignment (value : Text) :
    levelOf (name ++ Byte.equals :: value) = Level.ofName value := by
  have hdrop : (name ++ Byte.equals :: value).dropWhile (· ≠ Byte.equals) =
      Byte.equals :: value :=
    Text.dropWhile_append_stop (forall_mem_ne_equals hname) rfl
  rw [levelOf, hdrop]

theorem nameOf_bare : nameOf name = name :=
  List.takeWhile_eq_self_iff.2 (forall_mem_ne_equals hname)

theorem levelOf_bare : levelOf name = Level.trace := by
  rw [levelOf, List.dropWhile_eq_nil_iff.2 (forall_mem_ne_equals hname)]

theorem setsDefault_assignment (value : Text) :
    setsDefault (name ++ Byte.equals :: value) = decide (name = [Byte.star]) := by
  rw [setsDefault, show utf8 "*=" = [Byte.star, Byte.equals] from rfl, Bool.eq_iff_iff,
    List.isPrefixOf_iff_prefix, decide_eq_true_iff]
  have hstar : Byte.star ≠ Byte.equals := by decide
  rcases name with _ | ⟨b, _ | ⟨c, more⟩⟩
  · simp [hstar]
  · simp [eq_comm]
  · have hc : Byte.equals ≠ c := by
      rintro rfl
      exact hname (by simp)
    simp [hc]

theorem setsDefault_bare : setsDefault name = false := by
  rw [setsDefault, Bool.eq_false_iff]
  intro hstart
  exact hname ((List.isPrefixOf_iff_prefix.1 hstart).subset (by decide))

theorem apply_assignment (filter : Filter) (value : Text) :
    filter.apply (name ++ Byte.equals :: value) =
      if name = [Byte.star] then { filter with fallback := Level.ofName value }
      else filter.set name (Level.ofName value) := by
  have hdrop : (name ++ Byte.equals :: value).drop (name.length + 1) = value := by simp
  have hnameOf : (name ++ Byte.equals :: value).takeWhile (· ≠ Byte.equals) = name :=
    nameOf_assignment hname value
  rw [apply, if_pos (by simp), hnameOf]
  dsimp only
  rw [hdrop]

end

theorem apply_bare (hentry : Byte.equals ∉ entry) (filter : Filter) :
    filter.apply entry = if entry = [] then filter else filter.set entry Level.trace :=
  if_neg hentry

theorem lookup_set (filter : Filter) (name : Text) (level : Level) (module : Text) :
    (filter.set name level).modules.lookup module =
      if name = module then some level else filter.modules.lookup module := by
  have hfilter : ∀ modules : List (Text × Level), name ≠ module →
      (modules.filter (·.1 ≠ name)).lookup module = modules.lookup module := by
    intro modules hne
    induction modules with
    | nil => rfl
    | cons entry modules ih => grind
  rw [Filter.set, List.lookup_cons]
  split_ifs with heq
  · rw [heq, beq_self_eq_true]
  · rw [beq_eq_false_iff_ne.2 (Ne.symm heq)]
    exact hfilter filter.modules heq

/-- An entry gives its level to the module that it names, and to no other. -/
theorem lookup_apply (filter : Filter) (entry module : Text) :
    (filter.apply entry).modules.lookup module =
      (levelFor? module entry).or (filter.modules.lookup module) := by
  rw [levelFor?]
  rcases assigns_or_notMem entry with ⟨name, value, rfl, hname⟩ | hbare
  · have hne : (name ++ Byte.equals :: value != []) = true := bne_iff_ne.2 (by simp)
    rw [apply_assignment hname, names, setsDefault_assignment hname, nameOf_assignment hname,
      levelOf_assignment hname, hne, Bool.true_and]
    by_cases hstar : name = [Byte.star]
    · rw [if_pos hstar, decide_eq_true hstar]
      rfl
    · rw [if_neg hstar, decide_eq_false hstar, lookup_set, Bool.not_false, Bool.true_and]
      simp only [beq_iff_eq]
      split_ifs <;> rfl
  · rw [apply_bare hbare, names, setsDefault_bare hbare, nameOf_bare hbare, levelOf_bare hbare]
    by_cases hempty : entry = []
    · rw [if_pos hempty, hempty]
      rfl
    · rw [if_neg hempty, bne_iff_ne.2 hempty, lookup_set, Bool.not_false, Bool.true_and,
        Bool.true_and]
      simp only [beq_iff_eq]
      split_ifs <;> rfl

theorem fallback_apply (filter : Filter) (entry : Text) :
    some (filter.apply entry).fallback = (levelForAll? entry).or (some filter.fallback) := by
  rw [levelForAll?]
  rcases assigns_or_notMem entry with ⟨name, value, rfl, hname⟩ | hbare
  · rw [apply_assignment hname, setsDefault_assignment hname, levelOf_assignment hname]
    by_cases hstar : name = [Byte.star]
    · rw [if_pos hstar, decide_eq_true hstar]
      rfl
    · rw [if_neg hstar, decide_eq_false hstar]
      rfl
  · rw [apply_bare hbare, setsDefault_bare hbare, if_neg Bool.false_ne_true]
    split_ifs <;> rfl

/-! ### All entries -/

theorem notMem_of_mem_splitOn {b : Byte} {text piece : Text} (h : piece ∈ text.splitOn b) :
    b ∉ piece := by
  induction text generalizing piece with
  | nil =>
      rw [List.splitOn_nil, List.mem_singleton] at h
      rw [h]
      exact List.not_mem_nil
  | cons c text ih =>
      obtain ⟨first, more, hsplit⟩ := List.exists_cons_of_ne_nil (List.splitOn_ne_nil b text)
      rw [hsplit] at ih
      rw [List.splitOn_cons_eq_if_modifyHead, hsplit] at h
      split_ifs at h with hc
      · rcases List.mem_cons.1 h with rfl | hpiece
        · exact List.not_mem_nil
        · exact ih hpiece
      · rcases List.mem_cons.1 h with rfl | hpiece
        · have hne : b ≠ c := fun heq => hc (beq_iff_eq.2 heq.symm)
          simp [hne, ih List.mem_cons_self]
        · exact ih (List.mem_cons_of_mem _ hpiece)

theorem lookup_parse (filter : Filter) (spec module : Text) :
    (filter.parse spec).modules.lookup module =
      lastOf? (levelFor? module) (spec.splitOn Byte.comma) := by
  have hlast := foldl_lastOf? (fun filter => filter.modules.lookup module)
    (fun filter entry => lookup_apply filter entry module) (spec.splitOn Byte.comma)
      { filter with modules := [] }
  rwa [List.lookup_nil, Option.or_none] at hlast

theorem fallback_parse (filter : Filter) (spec : Text) :
    (filter.parse spec).fallback =
      writtenDefault (spec.splitOn Byte.comma) filter.fallback := by
  have hlast :=
    foldl_lastOf? (fun filter => some filter.fallback) fallback_apply (spec.splitOn Byte.comma)
      { filter with modules := [] }
  rw [Option.or_some] at hlast
  exact Option.some.inj hlast

theorem threshold_parse (filter : Filter) (spec module : Text) :
    (filter.parse spec).threshold module =
      writtenThreshold (spec.splitOn Byte.comma) filter.fallback module := by
  rw [threshold, lookup_parse, fallback_parse, writtenThreshold]

/-- A written filter is cut at its commas. After it is read, a module is heard from the level
of the last entry that names it; if there is none, from that of the last entry for all modules;
and if there is none either, from the default level that there was before. The levels that
modules had before are forgotten. The lowest level of the filter is the least of its default
and of the levels that its entries give to modules, so no module is heard below it. -/
theorem parse_last_entry_wins (filter : Filter) (spec : Text) :
    let entries := spec.splitOn Byte.comma
    let read := filter.parse spec
    ([Byte.comma].intercalate entries = spec ∧ ∀ entry ∈ entries, Byte.comma ∉ entry) ∧
      (∀ level module, read.accepts level module = true ↔
        writtenThreshold entries filter.fallback module ≤ level) ∧
      (∀ modules, { filter with modules }.parse spec = read) ∧
      read.fallback = writtenDefault entries filter.fallback ∧
      IsLeast {level | level = read.fallback ∨
        ∃ module, lastOf? (levelFor? module) entries = some level}
        read.lowest ∧
      ∀ level module, read.accepts level module = true → read.lowest ≤ level := by
  intro entries read
  have hlookup : ∀ module, read.modules.lookup module = lastOf? (levelFor? module) entries :=
    lookup_parse filter spec
  have hdistinct : read.Distinct := distinct_parse filter spec
  refine ⟨⟨List.intercalate_splitOn _, fun _ => notMem_of_mem_splitOn⟩, fun level module => ?_,
    fun _ => rfl, fallback_parse filter spec, ⟨?_, ?_⟩, fun level module haccepts => ?_⟩
  · rw [accepts_iff, threshold_parse]
  · rcases lowest_mem read with hfallback | ⟨⟨module, level⟩, hmem, hlevel⟩
    · exact .inl hfallback
    · refine .inr ⟨module, ?_⟩
      rw [← hlookup, hdistinct.mem_modules_iff.1 hmem]
      exact congrArg some hlevel
  · obtain ⟨hfallback, hmodules⟩ := le_lowest_iff.1 (Int.le_refl read.lowest)
    rintro level (rfl | ⟨module, hlast⟩)
    · exact hfallback
    · rw [← hlookup, ← hdistinct.mem_modules_iff] at hlast
      exact hmodules _ hlast
  · exact Int.le_trans (lowest_le_threshold read module) (accepts_iff.1 haccepts)

/-- A module that is named twice, with an empty entry, an unknown level and two entries for all
modules around it. -/
theorem parse_last_entry_wins_repeated :
    let filter : Filter := { fallback := Level.off, modules := [(utf8 "parser", Level.off)] }
    let read := filter.parse (utf8 "parser,*=warn,,lexer=a=b,parser=error,*=fatal")
    read.accepts Level.error (utf8 "parser") = true ∧
      read.accepts Level.warn (utf8 "parser") = false ∧ read.lowest ≤ Level.error := by
  intro filter read
  have haccepts : read.accepts Level.error (utf8 "parser") = true := by decide +kernel
  have hrejects : read.accepts Level.warn (utf8 "parser") = false := by decide +kernel
  obtain ⟨-, -, -, -, -, hlowest⟩ :=
    parse_last_entry_wins filter (utf8 "parser,*=warn,,lexer=a=b,parser=error,*=fatal")
  exact ⟨haccepts, hrejects, hlowest _ _ haccepts⟩

end LetBlocks.Log.Filter
