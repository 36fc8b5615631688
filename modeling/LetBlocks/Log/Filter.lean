import LetBlocks.Log.Record

/-!
A filter says from which level on each module is heard: some modules have a level of their own,
and the others share a default. Filters are written as `parser=trace,lexer=debug,*=warn`; a
module without a level is heard from `trace` on, and of several levels for one module the last
counts.
-/

namespace LetBlocks.Log

/-- The levels of modules that have one of their own, and that of all others. -/
structure Filter where
  fallback : Level := Level.info
  modules : List (Text × Level) := []
  deriving DecidableEq, Repr, Inhabited

namespace Filter

def set (filter : Filter) (module : Text) (level : Level) : Filter :=
  { filter with modules := (module, level) :: filter.modules.filter (·.1 ≠ module) }

def apply (filter : Filter) (entry : Text) : Filter :=
  if Byte.equals ∈ entry then
    let module := entry.takeWhile (· ≠ Byte.equals)
    let level := Level.ofName (entry.drop (module.length + 1))
    if module = [Byte.star] then { filter with fallback := level } else filter.set module level
  else if entry = [] then filter
  else filter.set entry Level.trace

/-- Reads a written filter. The levels of modules are forgotten; the default stays unless the
text sets it. -/
def parse (filter : Filter) (spec : Text) : Filter :=
  (spec.splitOn Byte.comma).foldl apply { filter with modules := [] }

def threshold (filter : Filter) (module : Text) : Level :=
  (filter.modules.lookup module).getD filter.fallback

def accepts (filter : Filter) (level : Level) (module : Text) : Bool :=
  filter.threshold module ≤ level

/-- The lowest level from which on any module is heard. -/
def lowest (filter : Filter) : Level :=
  filter.modules.foldl (fun low entry => min low entry.2) filter.fallback

end Filter

end LetBlocks.Log
