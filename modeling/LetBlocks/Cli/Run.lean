import LetBlocks.Cli.Options
import LetBlocks.Cli.Usage
import LetBlocks.Log.Trail
import LetBlocks.Report
import LetBlocks.Source.Load
import LetBlocks.Storage

/-!
A run compiles its inputs one after another. What it does is a list of events: output, reports,
and entries for the log. What becomes of the entries is the logger's business (`Session.play`),
so what happens to one input depends on nothing but the options, the files and the standard
input.

The log may go to a file that is an input as well. The whole program therefore lets the events
of one input happen before it reads the next (`Session.playInputs`); where files do not change,
that is the same as `run`.

A run fails if an input cannot be loaded, or if one has diagnostics and warnings are not to be
ignored.
-/

namespace LetBlocks.Cli

inductive Event
  | out (text : Text)
  | report (text : Text)
  | log (entry : Log.Entry)
  deriving DecidableEq, Repr

structure Outcome where
  events : List Event := []
  failed : Bool := false
  deriving DecidableEq, Repr, Inhabited

namespace Outcome

def andThen (first second : Outcome) : Outcome :=
  ⟨first.events ++ second.events, first.failed || second.failed⟩

def out (outcome : Outcome) : Text :=
  outcome.events.flatMap fun
    | .out text => text
    | _ => []

def reports (outcome : Outcome) : Text :=
  outcome.events.flatMap fun
    | .report text => text
    | _ => []

def entries (outcome : Outcome) : List Log.Entry :=
  outcome.events.filterMap fun
    | .log entry => some entry
    | _ => none

def exitCode (outcome : Outcome) : Nat := if outcome.failed then 1 else 0

end Outcome

def entry (level : Log.Level) (message : Text) : Event :=
  .log { level, module := utf8 "cli", message }

/-- What a run goes on with from one input to the next. All diagnostics of the run go into one
journal. -/
structure State where
  stdin : InputStream := {}
  reporter : Reporter := {}
  journal : Journal := {}
  deriving Inhabited

/-- Loads an input. The standard input can be read only once. -/
def load (read? : Text → Option Text) (state : State) (input : Input) :
    Except LoadError Source × State :=
  if input.fromStdin then
    (Source.ofStream state.stdin, { state with stdin := state.stdin.drained })
  else (Source.ofFile read? input.path, state)

def loadFailure (input : Input) (e : LoadError) : Diagnostic :=
  { severity := .error
    code := utf8 (if input.fromStdin then "E002" else "E001")
    message := e.message
    file := input.path }

def failInput (state : State) (input : Input) (e : LoadError) : Outcome × State :=
  let journal := state.journal.record (loadFailure input e)
  let (text, reporter) := state.reporter.emit (loadFailure input e)
  ({ events := [.report text, entry Log.Level.error e.message], failed := true },
    { state with reporter, journal })

/-- What is said about an input that was compiled; `raised` are the diagnostics it has added to
the journal. -/
def summary (input : Input) (c : Compilation) (raised : List Diagnostic) : Text :=
  input.path ++ utf8 ": " ++ Text.ofNat (Node.blockCount c.nodes) ++ utf8 " let-block(s), " ++
    Text.ofNat raised.length ++ utf8 " diagnostic(s)"

/-- Compiles a source that was loaded. Its diagnostics are those that the journal has gained by
it. -/
def compileInput (options : Options) (state : State) (input : Input) (source : Source) :
    Outcome × State :=
  let reporter := state.reporter.addSource source.name source.content
  let (c, journal) :=
    state.journal.compilation options.style source (Region.scan source.content)
  let raised := journal.since state.journal.size
  let done : Outcome :=
    { events := (Log.Trail.stages options.style c).map .log ++
        [.out c.output, entry Log.Level.info (summary input c raised)] }
  if raised = [] ∨ options.ignoreWarnings = true then (done, { state with reporter, journal })
  else
    let (text, reporter) := reporter.emitAll raised
    (done.andThen { events := [.report text], failed := true },
      { state with reporter, journal })

def process (options : Options) (read? : Text → Option Text) (state : State) (input : Input) :
    Outcome × State :=
  let (loaded, state) := load read? state input
  match loaded with
  | .error e => failInput state input e
  | .ok source => compileInput options state input source

def announce (input : Input) : Event := entry Log.Level.info (utf8 "compiling " ++ input.path)

def runInput (options : Options) (read? : Text → Option Text) (state : State) (input : Input) :
    Outcome × State :=
  let (outcome, state) := process options read? state input
  (Outcome.andThen { events := [announce input] } outcome, state)

def runInputs (options : Options) (read? : Text → Option Text) (state : State) :
    List Input → Outcome
  | [] => {}
  | input :: inputs =>
    let (outcome, state) := runInput options read? state input
    outcome.andThen (runInputs options read? state inputs)

def Options.notice? (options : Options) : Option Text :=
  if options.showHelp then some usageText
  else if options.showVersion then some versionText
  else if options.inputs = [] then some usageText
  else none

/-- What a run starts with. Reports are coloured if `colors` can be shown and are wanted. -/
def State.initial (options : Options) (stdin : InputStream) (colors : Bool) : State :=
  { stdin, reporter := { colors := colors && options.color, format := options.format } }

/-- Runs the program with given options on files that stay as they are. -/
def run (options : Options) (read? : Text → Option Text) (stdin : InputStream)
    (colors : Bool) : Outcome :=
  match options.notice? with
  | some text => { events := [.out text] }
  | none => runInputs options read? (State.initial options stdin colors) options.inputs

/-! ### The whole program -/

structure Surroundings where
  storage : Storage := {}
  stdin : InputStream := {}
  terminal : Terminal := {}
  /-- The value of the environment variable for the log. -/
  logVariable : Option Text := none
  stamp : Log.Stamp
  deriving Inhabited

structure Result where
  code : Nat
  out : Text
  err : Text
  storage : Storage
  deriving Inhabited

namespace Program

inductive Written
  | out (text : Text)
  | err (text : Text)

def onError (effects : List Log.Effect) : Text :=
  effects.flatMap fun
    | .wrote .standardError text => text
    | _ => []

/-- A program under way: its logger, the files as they are now, and what it has written. -/
structure Session where
  logger : Log.Logger
  storage : Storage
  written : Array Written := #[]
  failed : Bool := false

def Session.hear (stamp : Log.Stamp) (session : Session) : Event → Session
  | .out text => { session with written := session.written.push (.out text) }
  | .report text => { session with written := session.written.push (.err text) }
  | .log entry =>
    let (logger, storage, effects) := session.logger.log session.storage stamp entry
    { session with logger, storage, written := session.written.push (.err (onError effects)) }

/-- Lets what was done happen, one event after another. -/
def Session.play (stamp : Log.Stamp) (session : Session) (outcome : Outcome) : Session :=
  let session := outcome.events.foldl (Session.hear stamp) session
  { session with failed := session.failed || outcome.failed }

/-- Compiles inputs one after another. Each is read when the log has been told of it. -/
def Session.playInputs (options : Options) (stamp : Log.Stamp) (session : Session)
    (state : State) : List Input → Session
  | [] => session
  | input :: inputs =>
    let session := session.hear stamp (announce input)
    let (outcome, state) := process options session.storage.read? state input
    playInputs options stamp (session.play stamp outcome) state inputs

def outText (written : List Written) : Text :=
  written.flatMap fun
    | .out text => text
    | .err _ => []

def errText (written : List Written) : Text :=
  written.flatMap fun
    | .err text => text
    | .out _ => []

def usageError (e : ArgumentError) : Diagnostic :=
  { severity := .error, code := utf8 "E003", message := e.message }

def refuse (around : Surroundings) (e : ArgumentError) : Result :=
  let reporter : Reporter := { colors := around.terminal.supportsColors }
  { code := 1
    out := []
    err := reporter.describe (usageError e) ++ utf8 "Run 'letc --help' for usage.\n"
    storage := around.storage }

def started (options : Options) : Event :=
  entry Log.Level.debug
    (utf8 "target " ++ utf8 (if options.style.es3 then "ES3" else "native") ++
      utf8 ", annotate " ++ utf8 (if options.style.annotate then "1" else "0") ++ utf8 ", " ++
      Text.ofNat options.inputs.length ++ utf8 " unit(s)")

def accept (around : Surroundings) (options : Options) : Result :=
  let (logger, storage, effects) :=
    ({} : Log.Logger).init options.log around.terminal around.storage
  let session : Session := { logger, storage, written := #[.err (onError effects)] }
  let session := session.hear around.stamp (started options)
  let session :=
    match options.notice? with
    | some text => session.hear around.stamp (.out text)
    | none =>
      session.playInputs options around.stamp
        (State.initial options around.stdin around.terminal.supportsColors) options.inputs
  { code := if session.failed then 1 else 0
    out := outText session.written.toList
    err := errText session.written.toList
    storage := session.logger.close session.storage }

def invoke (around : Surroundings) (arguments : List Text) : Result :=
  match Options.ofArguments arguments around.logVariable with
  | .error e => refuse around e
  | .ok options => accept around options

end Program

end LetBlocks.Cli
