import LetBlocks.Log.Logger
import LetBlocks.Proofs.Log.Filters
import Mathlib.Data.List.Induction

/-!
A logger rejects a record below its own level without asking the filter. That is right as long
as this level is at or below every level of the filter. Setting up a logger and reading a
filter both see to it. Setting a level does not: it takes the place of the logger's own level
and of the default, while the levels of single modules stay, and these may be lower. From then
on such a module is muted, until a filter is read or the logger is set up anew. Whatever is
done to a logger, modules without a level of their own are heard as the filter says.
-/

namespace LetBlocks.Log.Logger

/-- What can be done to a logger. What works on files is given the storage that it finds. -/
inductive Operation
  | init (config : Config) (terminal : Terminal) (storage : Storage)
  | addSink (sink : Sink)
  | setLevel (level : Level)
  | setFilter (spec : Text)
  | write (storage : Storage) (record : Record)
  | flush (storage : Storage)

namespace Operation

def apply (logger : Logger) : Operation → Logger
  | init config terminal storage => (logger.init config terminal storage).1
  | addSink sink => logger.addSink sink
  | setLevel level => logger.setLevel level
  | setFilter spec => logger.setFilter spec
  | write storage record => (logger.write storage record).1
  | flush storage => (logger.flush storage).1

def keepsLevels : Operation → Bool
  | addSink _ | write _ _ | flush _ => true
  | init _ _ _ | setLevel _ | setFilter _ => false

def run (operations : List Operation) : Logger := operations.foldl apply {}

/-- A level was set that is above that of a module, and neither a level nor a filter was set
since. -/
def Mutes (operations : List Operation) : Prop :=
  ∃ before level after, operations = before ++ setLevel level :: after ∧
    (∀ op ∈ after, op.keepsLevels = true) ∧
    ∃ entry ∈ (run before).filter.modules, entry.2 < level

theorem run_concat (operations : List Operation) (op : Operation) :
    run (operations ++ [op]) = op.apply (run operations) := by
  rw [run, List.foldl_append]
  rfl

/-- Whether a module is muted is up to the last operation that sets a level or a filter. -/
theorem mutes_concat (operations : List Operation) (op : Operation) :
    Mutes (operations ++ [op]) ↔
      (∃ level, op = setLevel level ∧
        ∃ entry ∈ (run operations).filter.modules, entry.2 < level) ∨
        (op.keepsLevels = true ∧ Mutes operations) := by
  constructor
  · rintro ⟨before, level, after, hsplit, hafter, hentry⟩
    rcases List.eq_nil_or_concat' after with rfl | ⟨after, last, rfl⟩
    · obtain ⟨rfl, hop⟩ := List.append_inj' hsplit rfl
      exact .inl ⟨level, List.singleton_inj.1 hop, hentry⟩
    · rw [← List.cons_append, ← List.append_assoc] at hsplit
      obtain ⟨rfl, hop⟩ := List.append_inj' hsplit rfl
      obtain rfl := List.singleton_inj.1 hop
      rw [List.forall_mem_append, List.forall_mem_singleton] at hafter
      exact .inr ⟨hafter.2, before, level, after, rfl, hafter.1, hentry⟩
  · rintro (⟨level, rfl, hentry⟩ | ⟨hkeeps, before, level, after, rfl, hafter, hentry⟩)
    · exact ⟨operations, level, [], rfl, by simp, hentry⟩
    · refine ⟨before, level, after ++ [op], by simp, ?_, hentry⟩
      rw [List.forall_mem_append, List.forall_mem_singleton]
      exact ⟨hafter, hkeeps⟩

/-! ### What each operation does to the levels -/

variable {logger : Logger}

theorem levels_of_keepsLevels {op : Operation} (h : op.keepsLevels = true) (logger : Logger) :
    (op.apply logger).level = logger.level ∧ (op.apply logger).filter = logger.filter := by
  cases op with
  | addSink sink => exact ⟨rfl, rfl⟩
  | write storage record => exact ⟨rfl, rfl⟩
  | flush storage => exact ⟨rfl, rfl⟩
  | init config terminal storage => cases h
  | setLevel level => cases h
  | setFilter spec => cases h

theorem levels_init (logger : Logger) (config : Config) (terminal : Terminal)
    (storage : Storage) :
    (logger.init config terminal storage).1.level = (ofConfig config).level ∧
      (logger.init config terminal storage).1.filter = (ofConfig config).filter := by
  unfold Logger.init
  dsimp only
  split
  · exact ⟨rfl, rfl⟩
  · split <;> exact ⟨rfl, rfl⟩

theorem level_ofConfig (config : Config) :
    (ofConfig config).level = (ofConfig config).filter.lowest := by
  unfold ofConfig
  dsimp only
  split <;> rfl

theorem distinct_ofConfig (config : Config) : (ofConfig config).filter.Distinct := by
  unfold ofConfig
  dsimp only
  split
  · exact List.nodup_nil
  · exact Filter.distinct_parse _ _

theorem level_setFilter_le (logger : Logger) (spec : Text) :
    (logger.setFilter spec).level ≤ (logger.setFilter spec).filter.lowest := by
  unfold Logger.setFilter
  dsimp only
  split
  · exact Int.le_refl _
  · next h => exact Int.not_lt.1 h

theorem level_setLevel_le_iff (logger : Logger) (level : Level) :
    (logger.setLevel level).level ≤ (logger.setLevel level).filter.lowest ↔
      ∀ entry ∈ logger.filter.modules, level ≤ entry.2 := by
  rw [Filter.le_lowest_iff]
  exact and_iff_right (Int.le_refl level)

/-! ### All operations -/

/-- What holds of a logger at all times. -/
structure Consistent (logger : Logger) : Prop where
  fallback : logger.level ≤ logger.filter.fallback
  distinct : logger.filter.Distinct

theorem Consistent.apply (h : Consistent logger) (op : Operation) :
    Consistent (op.apply logger) := by
  have hlowest : ∀ filter : Filter, filter.lowest ≤ filter.fallback :=
    fun filter => (Filter.le_lowest_iff.1 (Int.le_refl _)).1
  by_cases hkeeps : op.keepsLevels = true
  · obtain ⟨hlevel, hfilter⟩ := levels_of_keepsLevels hkeeps logger
    exact ⟨by rw [hlevel, hfilter]; exact h.fallback, hfilter ▸ h.distinct⟩
  · cases op with
    | init config terminal storage =>
        obtain ⟨hlevel, hfilter⟩ := levels_init logger config terminal storage
        refine ⟨?_, hfilter ▸ distinct_ofConfig config⟩
        rw [Operation.apply, hlevel, hfilter, level_ofConfig]
        exact hlowest _
    | setLevel level => exact ⟨Int.le_refl level, h.distinct⟩
    | setFilter spec =>
        exact ⟨Int.le_trans (level_setFilter_le logger spec) (hlowest _),
          Filter.distinct_parse _ _⟩
    | addSink sink => exact absurd rfl hkeeps
    | write storage record => exact absurd rfl hkeeps
    | flush storage => exact absurd rfl hkeeps

theorem consistent_run (operations : List Operation) : Consistent (run operations) := by
  induction operations using List.reverseRecOn with
  | nil => exact ⟨Int.le_refl _, List.nodup_nil⟩
  | append_singleton operations op ih =>
      rw [run_concat]
      exact ih.apply op

/-- The logger's own level is at or below all levels of its filter unless a module is muted. -/
theorem level_le_lowest_iff (operations : List Operation) :
    (run operations).level ≤ (run operations).filter.lowest ↔ ¬ Mutes operations := by
  induction operations using List.reverseRecOn with
  | nil =>
      refine iff_of_true (Int.le_refl _) ?_
      rintro ⟨before, level, after, hsplit, -⟩
      exact List.append_ne_nil_of_right_ne_nil before (List.cons_ne_nil _ after) hsplit.symm
  | append_singleton operations op ih =>
      rw [run_concat, mutes_concat]
      by_cases hkeeps : op.keepsLevels = true
      · obtain ⟨hlevel, hfilter⟩ := levels_of_keepsLevels hkeeps (run operations)
        rw [hlevel, hfilter, ih, or_iff_right, and_iff_right hkeeps]
        rintro ⟨level, rfl, -⟩
        cases hkeeps
      · rw [or_iff_left fun h => hkeeps h.1]
        cases op with
        | init config terminal storage =>
            obtain ⟨hlevel, hfilter⟩ := levels_init (run operations) config terminal storage
            refine iff_of_true ?_ (by simp)
            rw [Operation.apply, hlevel, hfilter]
            exact Int.le_of_eq (level_ofConfig config)
        | setLevel level =>
            rw [Operation.apply, level_setLevel_le_iff]
            simp
        | setFilter spec => exact iff_of_true (level_setFilter_le _ spec) (by simp)
        | addSink sink => exact absurd rfl hkeeps
        | write storage record => exact absurd rfl hkeeps
        | flush storage => exact absurd rfl hkeeps

end Operation

/-! ### What is of interest -/

variable {logger : Logger}

theorem shouldLog_iff {level : Level} {module : Text} :
    logger.shouldLog level module = true ↔
      logger.level ≤ level ∧ logger.sinks ≠ [] ∧
        logger.filter.accepts level module = true := by
  simp [shouldLog, and_assoc]

/-- At and above the logger's own level the filter decides. -/
theorem shouldLog_of_level_le_threshold {module : Text}
    (h : logger.level ≤ logger.filter.threshold module) (level : Level) :
    logger.shouldLog level module = true ↔
      logger.sinks ≠ [] ∧ logger.filter.accepts level module = true := by
  rw [shouldLog_iff, and_iff_right_of_imp]
  rintro ⟨-, haccepts⟩
  exact Int.le_trans h (Filter.accepts_iff.1 haccepts)

/-- Whatever has been done to a logger, its own level is at or below all levels of its filter
exactly if no module is muted. Then, and otherwise only while there are no sinks, a record is
of interest exactly if there is a sink and the filter accepts it. For modules without a level
of their own that holds at all times. -/
theorem shouldLog_iff_accepts_iff (operations : List Operation) :
    let logger := Operation.run operations
    (logger.level ≤ logger.filter.lowest ↔ ¬ Operation.Mutes operations) ∧
      ((∀ level module, logger.shouldLog level module = true ↔
          logger.sinks ≠ [] ∧ logger.filter.accepts level module = true) ↔
        logger.sinks = [] ∨ ¬ Operation.Mutes operations) ∧
      ∀ level module, logger.filter.modules.lookup module = none →
        (logger.shouldLog level module = true ↔
          logger.sinks ≠ [] ∧ logger.filter.accepts level module = true) := by
  intro logger
  have hlevel := Operation.level_le_lowest_iff operations
  obtain ⟨hfallback, hdistinct⟩ := Operation.consistent_run operations
  refine ⟨hlevel, ⟨fun hall => ?_, ?_⟩, fun level module hnone => ?_⟩
  · rw [or_iff_not_imp_left, ← hlevel, Filter.le_lowest_iff]
    intro hsinks
    refine ⟨hfallback, fun entry hentry => ?_⟩
    -- a record of the module that has this level is of interest, so it is not below the
    -- logger's own level
    have haccepts : logger.filter.accepts entry.2 entry.1 = true :=
      Filter.accepts_iff.2 (Int.le_of_eq (hdistinct.threshold_of_mem hentry))
    exact (shouldLog_iff.1 ((hall entry.2 entry.1).2 ⟨hsinks, haccepts⟩)).1
  · rintro (hsinks | hmutes) level module
    · rw [shouldLog_iff]
      simp [hsinks]
    · exact shouldLog_of_level_le_threshold
        (Int.le_trans (hlevel.2 hmutes) (Filter.lowest_le_threshold _ module)) level
  · refine shouldLog_of_level_le_threshold ?_ level
    rw [Filter.threshold, hnone]
    exact hfallback

/-- The filter hears the parser from `trace` on; after the level is set, the logger does
not. -/
theorem setLevel_mutes_module :
    let logger := Operation.run
      [.addSink .capture, .setFilter (utf8 "parser=trace"), .setLevel Level.warn]
    logger.sinks ≠ [] ∧ logger.filter.accepts Level.trace (utf8 "parser") = true ∧
      logger.shouldLog Level.trace (utf8 "parser") = false ∧
      logger.filter.lowest < logger.level := by
  intro logger
  refine ⟨?_, ?_, ?_, ?_⟩
  · exact List.cons_ne_nil _ _
  · decide +kernel
  · decide +kernel
  · decide +kernel

end LetBlocks.Log.Logger
