import LetBlocks.Console
import LetBlocks.Log.Setting
import LetBlocks.Output
import LetBlocks.Suggestion

/-!
Every argument is read on its own, and the first one that cannot be accepted decides the error.
Options about the log are checked here as far as their values go and otherwise left to
`LetBlocks.Log.Setting`.
-/

namespace LetBlocks.Cli

/-- Something to compile: a file, or the standard input under the name `path`. -/
structure Input where
  path : Text
  fromStdin : Bool := false
  deriving DecidableEq, Repr, Inhabited

structure Options where
  showHelp : Bool := false
  showVersion : Bool := false
  ignoreWarnings : Bool := false
  color : Bool := true
  style : Style := { es3 := true }
  inputs : List Input := []
  format : Format := .text
  log : Log.Config := {}
  deriving DecidableEq, Repr, Inhabited

inductive Argument
  | help
  | version
  | ignoreWarnings
  | noAnnotate
  | es6
  | compileStdin
  | compileFile (path : Text)
  | errorFormat (format : Format)
  | noColor
  /-- Something about the log. -/
  | logging
  deriving DecidableEq, Repr

inductive ArgumentError
  | stdinTwice
  | pathMissing
  | badErrorFormat (value : Text)
  | badLogLevel (value : Text)
  | badLogFormat (value : Text)
  /-- An argument that is no option. -/
  | unexpected (argument : Text)
  | unknown (argument : Text)
  deriving DecidableEq, Repr

/-- The options to suggest from. Those that end in `=` take a value. -/
def knownOptions : List Text :=
  ["--help", "--version", "--ignore-warnings", "--no-annotate", "--es6", "--compile",
    "--compile=",
    "--error-format=", "--no-color", "--log-level=", "--log-filter=", "--log-file=",
    "--log-format=", "--verbose", "--quiet"].map utf8

/-- The known option that an unknown one may have been meant for. Only options of the same
shape are considered, with a value or without. -/
def suggestion (argument : Text) : Text :=
  if Byte.equals ∈ argument then
    Suggestion.nearest (argument.takeWhile (· ≠ Byte.equals) ++ [Byte.equals])
      (knownOptions.filter (·.getLast? = some Byte.equals))
  else Suggestion.nearest argument (knownOptions.filter (·.getLast? ≠ some Byte.equals))

def ArgumentError.message : ArgumentError → Text
  | stdinTwice => utf8 "'--compile' (standard input) given more than once"
  | pathMissing => utf8 "option '--compile=' requires a file path"
  | badErrorFormat value =>
    utf8 "invalid value '" ++ value ++ utf8 "' for '--error-format' (expected text or json)"
  | badLogLevel value => utf8 "invalid log level '" ++ value ++ utf8 "'"
  | badLogFormat value =>
    utf8 "invalid value '" ++ value ++ utf8 "' for '--log-format' (expected text or json)"
  | unexpected argument =>
    utf8 "unexpected argument '" ++ argument ++ utf8 "'; use --compile=" ++ argument
  | unknown argument =>
    utf8 "unknown option '" ++ argument ++ utf8 "'" ++
      if suggestion argument = [] then []
      else utf8 "; did you mean '" ++ suggestion argument ++ utf8 "'?"

namespace Argument

def flags : List (Text × Argument) :=
  [("--help", help), ("-h", help), ("--version", version), ("-V", version),
    ("--ignore-warnings", ignoreWarnings),
    ("--no-annotate", noAnnotate), ("--es6", es6), ("--compile", compileStdin),
    ("--no-color", noColor)].map
    fun (name, argument) => (utf8 name, argument)

def checkSetting : Log.Setting → Except ArgumentError Argument
  | .level name =>
    if (Log.Level.ofName? name).isSome then .ok logging else .error (.badLogLevel name)
  | .format name =>
    if name = utf8 "text" ∨ Log.Setting.formatOf name = .json then .ok logging
    else .error (.badLogFormat name)
  | _ => .ok logging

def read (argument : Text) : Except ArgumentError Argument :=
  match flags.lookup argument, argument.after? "--compile=",
    argument.after? "--error-format=" with
  | some flag, _, _ => .ok flag
  | none, some path, _ => if path = [] then .error .pathMissing else .ok (compileFile path)
  | none, none, some name =>
    if name = utf8 "json" then .ok (errorFormat .json)
    else if name = utf8 "text" then .ok (errorFormat .text)
    else .error (.badErrorFormat name)
  | none, none, none =>
    match Log.Setting.ofArgument? argument with
    | some setting => checkSetting setting
    | none =>
      if argument.head?.any (· ≠ Byte.dash) then .error (.unexpected argument)
      else .error (.unknown argument)

end Argument

namespace Options

/-- Does what an argument asks for. The standard input can be compiled only once. -/
def apply (options : Options) : Argument → Except ArgumentError Options
  | .help => .ok { options with showHelp := true }
  | .version => .ok { options with showVersion := true }
  | .ignoreWarnings => .ok { options with ignoreWarnings := true }
  | .noAnnotate => .ok { options with style := { options.style with annotate := false } }
  | .es6 => .ok { options with style := { options.style with es3 := false } }
  | .compileStdin =>
    if options.inputs.any Input.fromStdin then .error .stdinTwice
    else
      .ok
        { options with
          inputs := options.inputs ++ [{ path := utf8 "<stdin>", fromStdin := true }] }
  | .compileFile path => .ok { options with inputs := options.inputs ++ [{ path }] }
  | .errorFormat format => .ok { options with format }
  | .noColor => .ok { options with color := false }
  | .logging => .ok options

def applyAll (options : Options) : List Text → Except ArgumentError Options
  | [] => .ok options
  | argument :: arguments =>
    match Argument.read argument with
    | .error e => .error e
    | .ok asked =>
      match options.apply asked with
      | .error e => .error e
      | .ok options => applyAll options arguments

/-- Reads the arguments of the program; `logValue` is the value of the environment variable for
the log. -/
def ofArguments (arguments : List Text) (logValue : Option Text) :
    Except ArgumentError Options :=
  match applyAll {} arguments with
  | .error e => .error e
  | .ok options =>
    .ok
      { options with
        log := { Log.Config.ofArguments arguments logValue with colors := options.color } }

end Options

end LetBlocks.Cli
