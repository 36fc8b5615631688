import LetBlocks.Log.Logger

/-!
How the command line and the environment set up the log. The last argument of a kind counts,
but for the verbosity flags, of which the strongest does. A level that is named goes before one
that verbosity implies, and the environment is asked only if the command line gives neither a
level nor a filter.
-/

namespace LetBlocks.Log

inductive Setting
  | level (name : Text)
  | filter (spec : Text)
  | file (path : Text)
  | format (name : Text)
  | quiet
  | verbosity (count : Int32)
  deriving DecidableEq, Repr

namespace Setting

/-- The number of `v`s in `-v`, `-vv` and so on, cut to a machine integer. -/
def verbosity? : Text → Option Int32
  | dash :: v :: rest =>
    if dash = Byte.dash ∧ (v :: rest).all (· == 0x76) then some (Int32.ofNat (rest.length + 1))
    else none
  | _ => none

def ofArgument? (argument : Text) : Option Setting :=
  (argument.after? "--log-level=").map level <|>
    (argument.after? "--log-filter=").map filter <|>
    (argument.after? "--log-file=").map file <|>
    (argument.after? "--log-format=").map format <|>
    (if argument = utf8 "-q" ∨ argument = utf8 "--quiet" then some quiet else none) <|>
    (if argument = utf8 "--verbose" then some (verbosity 1) else none) <|>
    (verbosity? argument).map verbosity

def levelOfVerbosity (count : Int32) : Level :=
  if count ≥ 3 then Level.trace else if count = 2 then Level.debug else Level.info

def formatOf (name : Text) : Format :=
  if name = utf8 "json" ∨ name = utf8 "JSON" then .json else .text

/-- What the arguments have said so far. -/
structure Gathered where
  level : Option Level := none
  filter : Option Text := none
  file : Text := []
  format : Format := .text
  verbosity : Int32 := 0
  deriving DecidableEq, Repr, Inhabited

def gather (g : Gathered) : Setting → Gathered
  | .level name => { g with level := some (Level.ofName name) }
  | .filter spec => { g with filter := some spec }
  | .file path => { g with file := path }
  | .format name => { g with format := formatOf name }
  | .quiet => { g with level := some Level.error }
  | .verbosity count =>
    { g with verbosity := if g.verbosity < count then count else g.verbosity }

def Gathered.level? (g : Gathered) : Option Level :=
  g.level <|> if 0 < g.verbosity then some (levelOfVerbosity g.verbosity) else none

end Setting

namespace Config

def defaultLevel : Level := Level.warn

/-- The configuration that arguments and the environment ask for. The variable holds a level
or, if there is a `=` or a comma in it, a filter. -/
def ofArguments (arguments : List Text) (logValue : Option Text) : Config :=
  let g := (arguments.filterMap Setting.ofArgument?).foldl Setting.gather {}
  let config : Config := { level := defaultLevel, format := g.format, file := g.file }
  match g.level?, g.filter, logValue.getD [] with
  | none, none, [] => config
  | none, none, value =>
    if Byte.equals ∈ value ∨ Byte.comma ∈ value then { config with filter := value }
    else { config with level := Level.ofName value }
  | level, filter, _ =>
    { config with level := level.getD defaultLevel, filter := filter.getD [] }

end Config

end LetBlocks.Log
