import LetBlocks.Log.Filter
import Mathlib.Data.Int.Order.Basic
import Mathlib.Data.List.Nodup

/-!
A filter hears a module from its threshold on: the level that the module has of its own, or
else the default. The lowest level of a filter is the least of all these, so it is a lower
bound of every threshold, and as no module has two levels it is attained.

Filters are written as lists of entries, as are the options of a log, and in such a list the
last element with a word on a matter decides it; that is shown once for all matters.
-/

namespace LetBlocks.Log

/-! ### The last word -/

section

variable {α β σ : Type}

/-- The word of the last element that has one. -/
def lastOf? (word : α → Option β) (elements : List α) : Option β :=
  (elements.filterMap word).getLast?

/-- Where the word of each element that has one takes the place of the one before, it is the
last one that stays. -/
theorem foldl_lastOf? {step : σ → α → σ} {word : α → Option β} (view : σ → Option β)
    (hstep : ∀ s a, view (step s a) = (word a).or (view s)) (elements : List α) (s : σ) :
    view (elements.foldl step s) = (lastOf? word elements).or (view s) := by
  induction elements generalizing s with
  | nil => rfl
  | cons a elements ih =>
      rw [List.foldl_cons, ih, hstep, lastOf?, lastOf?, List.filterMap_cons]
      cases word a with
      | none => rfl
      | some b => simp [List.getLast?_cons]

theorem lastOf?_concat (word : α → Option β) (elements : List α) (a : α) :
    lastOf? word (elements ++ [a]) = (word a).or (lastOf? word elements) := by
  cases h : word a with
  | none => simp [lastOf?, h]
  | some b => simp [lastOf?, h]

theorem lastOf?_filterMap {γ : Type} (word : γ → Option β) (read : α → Option γ)
    (elements : List α) :
    lastOf? word (elements.filterMap read) =
      lastOf? (fun a => (read a).bind word) elements := by
  rw [lastOf?, lastOf?, List.filterMap_filterMap]

/-- Elements without a word can be left out. -/
theorem lastOf?_filter {word : α → Option β} {keep : α → Bool}
    (h : ∀ a, keep a = false → word a = none) (elements : List α) :
    lastOf? word (elements.filter keep) = lastOf? word elements := by
  have hword : ∀ a, (if keep a then word a else none) = word a := fun a => by
    cases hkeep : keep a with
    | true => rfl
    | false => exact (h a hkeep).symm
  rw [lastOf?, lastOf?, List.filterMap_filter]
  simp only [hword]

end

namespace Filter

variable {filter : Filter} {level : Level} {module : Text}

def Distinct (filter : Filter) : Prop := (filter.modules.map Prod.fst).Nodup

theorem accepts_iff :
    filter.accepts level module = true ↔ filter.threshold module ≤ level := by
  rw [accepts, decide_eq_true_iff]

/-! ### The lowest level -/

theorem le_foldl_min_iff (modules : List (Text × Level)) (low : Level) :
    level ≤ modules.foldl (fun low entry => min low entry.2) low ↔
      level ≤ low ∧ ∀ entry ∈ modules, level ≤ entry.2 := by
  induction modules generalizing low with
  | nil => simp
  | cons entry modules ih =>
      rw [List.foldl_cons, ih, Int.le_min, List.forall_mem_cons, and_assoc]

theorem le_lowest_iff :
    level ≤ filter.lowest ↔
      level ≤ filter.fallback ∧ ∀ entry ∈ filter.modules, level ≤ entry.2 :=
  le_foldl_min_iff filter.modules filter.fallback

/-- A module is heard from its own level on, or from the default on if it has none. -/
theorem threshold_cases (filter : Filter) (module : Text) :
    (filter.modules.lookup module = none ∧ filter.threshold module = filter.fallback) ∨
      (module, filter.threshold module) ∈ filter.modules := by
  rw [threshold]
  cases hlookup : filter.modules.lookup module with
  | none => exact .inl ⟨rfl, rfl⟩
  | some level =>
      obtain ⟨before, after, hmodules, -⟩ := List.lookup_eq_some_iff.1 hlookup
      refine .inr ?_
      rw [hmodules]
      simp

theorem lowest_le_threshold (filter : Filter) (module : Text) :
    filter.lowest ≤ filter.threshold module := by
  obtain ⟨hfallback, hmodules⟩ := le_lowest_iff.1 (Int.le_refl filter.lowest)
  rcases threshold_cases filter module with ⟨-, hthreshold⟩ | hmem
  · rwa [hthreshold]
  · exact hmodules _ hmem

theorem Distinct.lookup_of_mem (h : filter.Distinct) {entry : Text × Level}
    (hentry : entry ∈ filter.modules) : filter.modules.lookup entry.1 = some entry.2 := by
  obtain ⟨before, after, hmodules⟩ := List.append_of_mem hentry
  have hfirst : ∀ other ∈ before, entry.1 ≠ other.1 := by
    rw [Distinct, hmodules, List.map_append, List.map_cons, List.nodup_append] at h
    intro other hother
    exact (h.2.2 _ (List.mem_map_of_mem hother) _ List.mem_cons_self).symm
  rw [List.lookup_eq_some_iff]
  refine ⟨before, after, hmodules, fun other hother => ?_⟩
  simpa using hfirst other hother

theorem Distinct.threshold_of_mem (h : filter.Distinct) {entry : Text × Level}
    (hentry : entry ∈ filter.modules) : filter.threshold entry.1 = entry.2 := by
  rw [threshold, h.lookup_of_mem hentry, Option.getD_some]

theorem Distinct.mem_modules_iff (h : filter.Distinct) :
    (module, level) ∈ filter.modules ↔ filter.modules.lookup module = some level := by
  constructor
  · exact fun hmem => h.lookup_of_mem hmem
  · intro hlookup
    obtain ⟨before, after, hmodules, -⟩ := List.lookup_eq_some_iff.1 hlookup
    rw [hmodules]
    simp

/-- The lowest level is the default or that of a module. -/
theorem lowest_mem (filter : Filter) :
    filter.lowest = filter.fallback ∨ ∃ entry ∈ filter.modules, entry.2 = filter.lowest := by
  by_contra hnot
  rw [not_or, not_exists] at hnot
  obtain ⟨hfallback, hmodules⟩ := le_lowest_iff.1 (Int.le_refl filter.lowest)
  -- all levels are at least one above the lowest one, so the lowest one is above itself
  have habove : filter.lowest + 1 ≤ filter.lowest := by
    refine le_lowest_iff.2
      ⟨Int.add_one_le_iff.2 (lt_of_le_of_ne hfallback hnot.1), fun entry hentry => ?_⟩
    have hne : filter.lowest ≠ entry.2 := fun heq => hnot.2 entry ⟨hentry, heq.symm⟩
    exact Int.add_one_le_iff.2 (lt_of_le_of_ne (hmodules entry hentry) hne)
  exact Int.lt_irrefl _ (Int.add_one_le_iff.1 habove)

/-! ### Written filters -/

theorem Distinct.set (h : filter.Distinct) (module : Text) (level : Level) :
    (filter.set module level).Distinct := by
  rw [Distinct, Filter.set, List.map_cons, List.nodup_cons]
  refine ⟨by simp, ?_⟩
  exact h.sublist (List.filter_sublist.map Prod.fst)

theorem Distinct.apply (h : filter.Distinct) (entry : Text) :
    (filter.apply entry).Distinct := by
  unfold Filter.apply
  split
  · dsimp only
    split
    · exact h
    · exact h.set _ _
  · split
    · exact h
    · exact h.set _ _

theorem distinct_parse (filter : Filter) (spec : Text) : (filter.parse spec).Distinct := by
  have hfold : ∀ (entries : List Text) (filter : Filter), filter.Distinct →
      (entries.foldl Filter.apply filter).Distinct := by
    intro entries
    induction entries with
    | nil => exact fun _ h => h
    | cons entry entries ih => exact fun filter h => ih _ (h.apply entry)
  exact hfold _ _ List.nodup_nil

end Filter

end LetBlocks.Log
