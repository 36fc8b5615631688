import LetBlocks.Proofs.Log.FastPath

/-!
A filter can be part of the configuration that a logger is set up with, or be read afterwards.
The logger's own level is not the same in both cases: at set-up it becomes the lowest level of
the filter, later it can only go down. But all that it is there for is to reject early what the
filter rejects anyway, and so no one can tell the two loggers apart, not even by what is done
to them later.
-/

namespace LetBlocks.Log.Logger

variable {a b : Logger}

/-- Loggers that hand the same records to the same sinks. Their own levels may differ as long
as both are at or below all levels of the filter. -/
structure Alike (a b : Logger) : Prop where
  filter : a.filter = b.filter
  sinks : a.sinks = b.sinks
  levels : a.level = b.level ∨ a.level ≤ a.filter.lowest ∧ b.level ≤ b.filter.lowest

theorem Alike.refl (a : Logger) : Alike a a := ⟨rfl, rfl, .inl rfl⟩

theorem Alike.shouldLog (h : Alike a b) (level : Level) (module : Text) :
    a.shouldLog level module = b.shouldLog level module := by
  rcases h.levels with hlevel | ⟨ha, hb⟩
  · rw [Logger.shouldLog, Logger.shouldLog, hlevel, h.sinks, h.filter]
  · rw [Bool.eq_iff_iff,
      shouldLog_of_level_le_threshold (Int.le_trans ha (Filter.lowest_le_threshold _ module)),
      shouldLog_of_level_le_threshold (Int.le_trans hb (Filter.lowest_le_threshold _ module)),
      h.sinks, h.filter]

/-! ### What is done to both -/

theorem Alike.addSink (h : Alike a b) (sink : Sink) :
    Alike (a.addSink sink) (b.addSink sink) :=
  ⟨h.filter, congrArg (· ++ [sink]) h.sinks, h.levels⟩

theorem Alike.setLevel (h : Alike a b) (level : Level) :
    Alike (a.setLevel level) (b.setLevel level) where
  filter := by rw [Logger.setLevel, Logger.setLevel, h.filter]
  sinks := h.sinks
  levels := .inl rfl

theorem Alike.setFilter (h : Alike a b) (spec : Text) :
    Alike (a.setFilter spec) (b.setFilter spec) where
  filter := by rw [Logger.setFilter, Logger.setFilter, h.filter]
  sinks := h.sinks
  levels := .inr ⟨Operation.level_setFilter_le a spec, Operation.level_setFilter_le b spec⟩

/-- Setting a logger up anew asks only for the files that are open. -/
theorem Alike.init_eq (h : Alike a b) (config : Config) (terminal : Terminal)
    (storage : Storage) :
    a.init config terminal storage = b.init config terminal storage := by
  have hclose : a.close storage = b.close storage := by rw [close, close, h.sinks]
  rw [Logger.init, Logger.init, hclose]

theorem Alike.write (h : Alike a b) (storage : Storage) (record : Record) :
    Alike (a.write storage record).1 (b.write storage record).1 where
  filter := h.filter
  sinks := congrArg (fun sinks => (writeSinks storage record sinks).1) h.sinks
  levels := h.levels

theorem Alike.flush (h : Alike a b) (storage : Storage) :
    Alike (a.flush storage).1 (b.flush storage).1 where
  filter := h.filter
  sinks := congrArg (fun sinks => (flushSinks storage sinks).1) h.sinks
  levels := h.levels

theorem Alike.apply (h : Alike a b) (op : Operation) : Alike (op.apply a) (op.apply b) := by
  cases op with
  | init config terminal storage =>
      rw [Operation.apply, Operation.apply, h.init_eq]
      exact .refl _
  | addSink sink => exact h.addSink sink
  | setLevel level => exact h.setLevel level
  | setFilter spec => exact h.setFilter spec
  | write storage record => exact h.write storage record
  | flush storage => exact h.flush storage

theorem Alike.foldl_apply (h : Alike a b) (operations : List Operation) :
    Alike (operations.foldl Operation.apply a) (operations.foldl Operation.apply b) := by
  induction operations generalizing a b with
  | nil => exact h
  | cons op operations ih => exact ih (h.apply op)

theorem Alike.foldl_addSink (h : Alike a b) (sinks : List Sink) :
    Alike (sinks.foldl Logger.addSink a) (sinks.foldl Logger.addSink b) := by
  have halike := h.foldl_apply (sinks.map .addSink)
  rwa [List.foldl_map, List.foldl_map] at halike

/-! ### Setting up -/

theorem sinks_init_filter (before : Logger) (config : Config) (spec : Text)
    (terminal : Terminal) (storage : Storage) :
    (before.init { config with filter := spec } terminal storage).1.sinks =
      (before.init { config with filter := [] } terminal storage).1.sinks := by
  unfold Logger.init
  dsimp only
  split
  · rfl
  · split <;> rfl

/-- An empty filter is read as no filter. -/
theorem filter_ofConfig (config : Config) :
    (ofConfig config).filter = Filter.parse { fallback := config.level } config.filter := by
  unfold ofConfig
  dsimp only
  split
  · next hempty =>
      rw [hempty]
      rfl
  · rfl

theorem alike_init_setFilter (before : Logger) (config : Config) (spec : Text)
    (terminal : Terminal) (storage : Storage) :
    Alike (before.init { config with filter := spec } terminal storage).1
      ((before.init { config with filter := [] } terminal storage).1.setFilter spec) := by
  obtain ⟨hearly, hfilter⟩ :=
    Operation.levels_init before { config with filter := spec } terminal storage
  obtain ⟨-, hlate⟩ :=
    Operation.levels_init before { config with filter := [] } terminal storage
  refine ⟨?_, sinks_init_filter before config spec terminal storage,
    .inr ⟨?_, Operation.level_setFilter_le _ spec⟩⟩
  · rw [hfilter, filter_ofConfig, Logger.setFilter, hlate]
    rfl
  · rw [hearly, hfilter]
    exact Int.le_of_eq (Operation.level_ofConfig _)

theorem level_setFilter (logger : Logger) (spec : Text) :
    (logger.setFilter spec).level =
      min logger.level (logger.setFilter spec).filter.lowest := by
  rw [Logger.setFilter, Int.min_def]
  dsimp only
  split_ifs with hlt hle hle
  · exact absurd hlt (Int.not_lt.2 hle)
  · rfl
  · rfl
  · exact absurd (Int.not_lt.1 hlt) hle

theorem foldl_addSink_levels (sinks : List Sink) (logger : Logger) :
    (sinks.foldl addSink logger).level = logger.level ∧
      (sinks.foldl addSink logger).filter = logger.filter := by
  induction sinks generalizing logger with
  | nil => exact ⟨rfl, rfl⟩
  | cons sink sinks ih => exact ih (logger.addSink sink)

theorem foldl_addSink_setFilter (sinks : List Sink) (logger : Logger) (spec : Text) :
    sinks.foldl addSink (logger.setFilter spec) =
      (sinks.foldl addSink logger).setFilter spec := by
  induction sinks generalizing logger with
  | nil => rfl
  | cons sink sinks ih => exact ih (logger.addSink sink)

/-- A logger that is set up with a filter, and one that is set up without it and reads it
afterwards, find the same records of interest, whatever the filter is, whichever sinks they are
given and whatever is done to both later. The own level of the first is the lowest level of the
filter, and that of the second the lower one of that level and the level of the
configuration. -/
theorem shouldLog_init_eq_setFilter (before : Logger) (config : Config) (terminal : Terminal)
    (storage : Storage) (spec : Text) (sinks : List Sink) :
    let early :=
      sinks.foldl addSink (before.init { config with filter := spec } terminal storage).1
    let late :=
      (sinks.foldl addSink
        (before.init { config with filter := [] } terminal storage).1).setFilter spec
    (early.level = early.filter.lowest ∧ late.level = min config.level early.filter.lowest) ∧
      ∀ later : List Operation, ∀ level module,
        (later.foldl Operation.apply early).shouldLog level module =
          (later.foldl Operation.apply late).shouldLog level module := by
  intro early late
  have halike : Alike early late := by
    have hinit :=
      (alike_init_setFilter before config spec terminal storage).foldl_addSink sinks
    rwa [foldl_addSink_setFilter] at hinit
  obtain ⟨hlevel, hfilter⟩ :=
    foldl_addSink_levels sinks (before.init { config with filter := spec } terminal storage).1
  obtain ⟨hlevel', -⟩ :=
    foldl_addSink_levels sinks (before.init { config with filter := [] } terminal storage).1
  obtain ⟨hinit, hinit'⟩ :=
    Operation.levels_init before { config with filter := spec } terminal storage
  refine ⟨⟨?_, ?_⟩, fun later level module =>
    (halike.foldl_apply later).shouldLog level module⟩
  · rw [hlevel, hfilter, hinit, hinit', Operation.level_ofConfig]
  · rw [level_setFilter, halike.filter, hlevel',
      (Operation.levels_init before _ terminal storage).1]
    rfl

/-- A filter that only raises the default leaves the two loggers with different levels of their
own. -/
example :
    (ofConfig { level := Level.info, filter := utf8 "*=error" }).level = Level.error ∧
      ((ofConfig { level := Level.info }).setFilter (utf8 "*=error")).level = Level.info := by
  decide +kernel

end LetBlocks.Log.Logger
