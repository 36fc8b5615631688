import LetBlocks.Cli.Run
import LetBlocks.Proofs.Output.Twins
import LetBlocks.Proofs.Report.Filing

/-!
The inputs of a run share a journal, a reporter and the standard input. What comes of an input
depends on none of this but the manner of the reporter, which never changes, and, if it is the
standard input, on that not having been read before. So a run that reads the standard input at
most once is the sum of the runs on its inputs, each alone.
-/

namespace LetBlocks.Cli

/-! ### Outcomes -/

namespace Outcome

@[simp] theorem out_andThen (first second : Outcome) :
    (first.andThen second).out = first.out ++ second.out :=
  List.flatMap_append

@[simp] theorem reports_andThen (first second : Outcome) :
    (first.andThen second).reports = first.reports ++ second.reports :=
  List.flatMap_append

@[simp] theorem andThen_nothing (outcome : Outcome) : outcome.andThen {} = outcome := by
  simp [andThen]

theorem exitCode_eq_one_iff {outcome : Outcome} :
    outcome.exitCode = 1 ↔ outcome.failed = true := by
  unfold exitCode
  split <;> simp_all

end Outcome

/-! ### One input -/

variable {options : Options} {read? : Text → Option Text} {state state' : State}
    {input : Input}

/-- What is done for a source that is compiled, apart from reporting its diagnostics. -/
def compiled (options : Options) (input : Input) (source : Source) : Outcome :=
  let c := Compilation.of options.style source
  { events := (Log.Trail.stages options.style c).map .log ++
      [.out c.output, entry Log.Level.info (summary input c c.diagnostics)] }

/-- The journal has gained all the diagnostics of the source and no others. -/
theorem outcome_compileInput (options : Options) (state : State) (input : Input)
    (source : Source) :
    (compileInput options state input source).1 =
      if (Compilation.of options.style source).diagnostics = [] ∨
        options.ignoreWarnings = true then
        compiled options input source
      else
        (compiled options input source).andThen
          { events := [.report ((Compilation.of options.style source).diagnostics.flatMap
              (state.reporter.addSource source.name source.content).describe)]
            failed := true } := by
  have hcompiled : state.journal.compilation options.style source
      (Region.scan source.content) = (Compilation.of options.style source,
        state.journal.recordAll (Compilation.of options.style source).diagnostics) :=
    state.journal.compilation_eq options.style source (Region.scan source.content)
  have hraised :
      (state.journal.recordAll (Compilation.of options.style source).diagnostics).since
        state.journal.size = (Compilation.of options.style source).diagnostics := by
    have hsince := state.journal.since_compilation options.style source
      (Region.scan source.content)
    rwa [hcompiled] at hsince
  unfold compileInput
  rw [hcompiled]
  simp only [hraised]
  split <;> rfl

theorem out_compiled (options : Options) (input : Input) (source : Source) :
    (compiled options input source).out = compile options.style source.content := by
  rw [← Compilation.output_of_eq_compile]
  simp [compiled, Outcome.out, entry, List.flatMap_map]

theorem reports_compiled (options : Options) (input : Input) (source : Source) :
    (compiled options input source).reports = [] := by
  simp [compiled, Outcome.reports, entry, List.flatMap_map]

/-- A source is written out in any case, and its diagnostics are reported and make the run fail
unless they are to be ignored. -/
theorem compileInput_spec (options : Options) (state : State) (input : Input)
    (source : Source) :
    let outcome := (compileInput options state input source).1
    let raised := (Compilation.of options.style source).diagnostics
    outcome.out = compile options.style source.content ∧
      outcome.reports =
        (if options.ignoreWarnings then []
        else raised.flatMap (state.reporter.addSource source.name source.content).describe) ∧
      (outcome.failed = true ↔ raised ≠ [] ∧ options.ignoreWarnings = false) := by
  intro outcome raised
  have houtcome : outcome = _ := outcome_compileInput options state input source
  rw [houtcome]
  split
  · next hquiet =>
    refine ⟨out_compiled options input source, ?_, ?_⟩
    · rw [reports_compiled]
      rcases hquiet with hnone | hignore
      · simp [raised, hnone]
      · simp [hignore]
    · have hfailed : (compiled options input source).failed = false := rfl
      rcases hquiet with hnone | hignore
      · simp [hfailed, raised, hnone]
      · simp [hfailed, hignore]
  · next hloud =>
    rw [not_or] at hloud
    have hignore : options.ignoreWarnings = false := by simpa using hloud.2
    refine ⟨?_, ?_, ?_⟩
    · rw [Outcome.out_andThen, out_compiled]
      simp [Outcome.out]
    · rw [Outcome.reports_andThen, reports_compiled]
      simp [Outcome.reports, hignore, raised]
    · simp [Outcome.andThen, hignore, raised, hloud.1]

theorem compileInput_congr (h : state.reporter.SameManner state'.reporter) (input : Input)
    (source : Source) :
    (compileInput options state input source).1 =
      (compileInput options state' input source).1 := by
  have hdescribe : (Compilation.of options.style source).diagnostics.flatMap
        (state.reporter.addSource source.name source.content).describe =
      (Compilation.of options.style source).diagnostics.flatMap
        (state'.reporter.addSource source.name source.content).describe := by
    apply List.flatMap_congr
    intro d hd
    exact h.describe_addSource source.content (Compilation.file_of_mem_diagnostics hd).1
  rw [outcome_compileInput, outcome_compileInput, hdescribe]

theorem failInput_spec (state : State) (input : Input) (e : LoadError) :
    let outcome := (failInput state input e).1
    outcome.out = [] ∧ outcome.reports = state.reporter.describe (loadFailure input e) ∧
      outcome.failed = true := by
  refine ⟨rfl, ?_, rfl⟩
  simp [failInput, Reporter.emit, Outcome.reports, entry]

theorem failInput_congr (h : state.reporter.SameManner state'.reporter) (input : Input)
    (e : LoadError) : (failInput state input e).1 = (failInput state' input e).1 := by
  -- a failure to load has no place, so no source is looked up for it
  have hdescribe : state.reporter.describe (loadFailure input e) =
      state'.reporter.describe (loadFailure input e) := h.describe rfl
  unfold failInput Reporter.emit
  rw [hdescribe]

namespace Input

/-- What there is to compile for an input: the content of its file, if that can be opened, or
what is left of the standard input, unless that is broken. -/
def content? (input : Input) (read? : Text → Option Text) (stdin : InputStream) :
    Option Text :=
  if input.fromStdin then if stdin.broken then none else some stdin.content
  else read? input.path

def sourceName (input : Input) : Text := if input.fromStdin then utf8 "<stdin>" else input.path

/-- Why an input cannot be loaded, if it cannot. -/
def loadError (input : Input) : LoadError :=
  if input.fromStdin then .cannotRead (utf8 "<stdin>") else .cannotOpen input.path

end Input

theorem load_eq (read? : Text → Option Text) (state : State) (input : Input) :
    load read? state input =
      ((input.content? read? state.stdin).elim (.error input.loadError)
          fun content => .ok (Source.ofText content input.sourceName),
        { state with
          stdin := if input.fromStdin then state.stdin.drained else state.stdin }) := by
  unfold load Input.content? Input.sourceName Input.loadError
  split
  · unfold Source.ofStream
    split <;> rfl
  · unfold Source.ofFile
    split <;> simp_all

theorem process_of_content?_eq_none (h : input.content? read? state.stdin = none) :
    (process options read? state input).1 = (failInput state input input.loadError).1 := by
  rw [process, load_eq, h]
  apply failInput_congr
  exact ⟨rfl, rfl⟩

theorem process_of_content?_eq_some {content : Text}
    (h : input.content? read? state.stdin = some content) :
    (process options read? state input).1 =
      (compileInput options state input (Source.ofText content input.sourceName)).1 := by
  rw [process, load_eq, h]
  apply compileInput_congr
  exact ⟨rfl, rfl⟩

/-- What comes of an input depends on the manner of reporting, and on the standard input if
that is the input. -/
theorem process_congr (h : state.reporter.SameManner state'.reporter)
    (hstdin : input.fromStdin = true → state.stdin = state'.stdin) :
    (process options read? state input).1 = (process options read? state' input).1 := by
  have hcontent : input.content? read? state.stdin = input.content? read? state'.stdin := by
    unfold Input.content?
    split
    · next hinput => rw [hstdin hinput]
    · rfl
  cases hstate' : input.content? read? state'.stdin with
  | none =>
      rw [process_of_content?_eq_none (hcontent.trans hstate'),
        process_of_content?_eq_none hstate']
      exact failInput_congr h _ _
  | some content =>
      rw [process_of_content?_eq_some (hcontent.trans hstate'),
        process_of_content?_eq_some hstate']
      exact compileInput_congr h _ _

/-- The entry that announces an input is neither written nor reported. -/
theorem runInput_alike (options : Options) (read? : Text → Option Text) (state : State)
    (input : Input) :
    let outcome := (runInput options read? state input).1
    outcome.out = (process options read? state input).1.out ∧
      outcome.reports = (process options read? state input).1.reports ∧
      outcome.failed = (process options read? state input).1.failed :=
  ⟨Outcome.out_andThen _ _, Outcome.reports_andThen _ _, rfl⟩

/-- An input that can be loaded. -/
theorem runInput_of_content?_eq_some {content : Text}
    (h : input.content? read? state.stdin = some content) :
    let outcome := (runInput options read? state input).1
    let source := Source.ofText content input.sourceName
    let raised := (Compilation.of options.style source).diagnostics
    outcome.out = compile options.style content ∧
      outcome.reports =
        (if options.ignoreWarnings then []
        else raised.flatMap (state.reporter.addSource input.sourceName content).describe) ∧
      (outcome.failed = true ↔ raised ≠ [] ∧ options.ignoreWarnings = false) := by
  obtain ⟨hout, hreports, hfailed⟩ := runInput_alike options read? state input
  dsimp only
  rw [hout, hreports, hfailed, process_of_content?_eq_some h]
  exact compileInput_spec options state input (Source.ofText content input.sourceName)

/-- An input that cannot be loaded. -/
theorem runInput_of_content?_eq_none (h : input.content? read? state.stdin = none) :
    let outcome := (runInput options read? state input).1
    outcome.out = [] ∧
      outcome.reports = state.reporter.describe (loadFailure input input.loadError) ∧
      outcome.failed = true := by
  obtain ⟨hout, hreports, hfailed⟩ := runInput_alike options read? state input
  dsimp only
  rw [hout, hreports, hfailed, process_of_content?_eq_none h]
  exact failInput_spec state input input.loadError

theorem loadFailure_loadError (input : Input) :
    loadFailure input input.loadError =
      { severity := .error
        code := utf8 (if input.fromStdin then "E002" else "E001")
        message :=
          if input.fromStdin then utf8 "Failed to read <stdin>"
          else utf8 "Failed to open file: " ++ input.path
        file := input.path
        span := {} } := by
  unfold loadFailure Input.loadError
  cases input.fromStdin <;> rfl

/-- The manner of reporting stays, and the standard input stays unless it was the input. -/
theorem state_process (options : Options) (read? : Text → Option Text) (state : State)
    (input : Input) :
    (process options read? state input).2.reporter.SameManner state.reporter ∧
      (input.fromStdin = false →
        (process options read? state input).2.stdin = state.stdin) := by
  rw [process, load_eq]
  dsimp only
  have hstdin (hinput : input.fromStdin = false) :
      (if input.fromStdin then state.stdin.drained else state.stdin) = state.stdin := by
    rw [hinput]
    rfl
  split
  · next e _ => exact ⟨state.reporter.sameManner_foldl_counted [loadFailure input e], hstdin⟩
  · next source _ =>
    unfold compileInput
    dsimp only
    split
    · exact ⟨⟨rfl, rfl⟩, hstdin⟩
    · exact ⟨(state.reporter.addSource source.name source.content).sameManner_foldl_counted _,
        hstdin⟩

/-! ### All inputs -/

/-- Inputs among which the standard input is at most once do what each of them does when the
run starts with it. -/
theorem runInputs_eq_sum (start : State) (inputs : List Input)
    (hmanner : state.reporter.SameManner start.reporter)
    (hcount : inputs.countP Input.fromStdin ≤ 1)
    (hstdin : (∃ input ∈ inputs, input.fromStdin = true) → state.stdin = start.stdin) :
    runInputs options read? state inputs =
      ⟨inputs.flatMap fun input => (runInput options read? start input).1.events,
        inputs.any fun input => (runInput options read? start input).1.failed⟩ := by
  induction inputs generalizing state with
  | nil => rfl
  | cons input inputs ih =>
      obtain ⟨hnext, hkept⟩ := state_process options read? state input
      have hfirst : (runInput options read? state input).1 =
          (runInput options read? start input).1 := by
        have hprocess : (process options read? state input).1 =
            (process options read? start input).1 :=
          process_congr hmanner fun hinput => hstdin ⟨input, List.mem_cons_self, hinput⟩
        unfold runInput
        dsimp only
        rw [hprocess]
      -- if the first input is the standard input, there is none among the others
      have hrest : (∃ input ∈ inputs, input.fromStdin = true) →
          (process options read? state input).2.stdin = start.stdin := by
        rintro ⟨other, hother, hfrom⟩
        have hpos : 0 < inputs.countP Input.fromStdin :=
          List.countP_pos_iff.2 ⟨other, hother, hfrom⟩
        have hinput : input.fromStdin = false := by
          by_contra hne
          rw [List.countP_cons_of_pos (by simpa using hne)] at hcount
          omega
        rw [hkept hinput]
        exact hstdin ⟨other, List.mem_cons_of_mem _ hother, hfrom⟩
      have hcount' : inputs.countP Input.fromStdin ≤ 1 := by
        rw [List.countP_cons] at hcount
        omega
      have hmore := ih ⟨hnext.1.trans hmanner.1, hnext.2.trans hmanner.2⟩ hcount' hrest
      have hrun : runInputs options read? state (input :: inputs) =
          (runInput options read? state input).1.andThen
            (runInputs options read? (process options read? state input).2 inputs) := rfl
      rw [hrun, hmore, hfirst]
      rfl

theorem run_eq_runInputs (options : Options) (hhelp : options.showHelp = false)
    (hversion : options.showVersion = false) (hinputs : options.inputs ≠ [])
    (read? : Text → Option Text) (stdin : InputStream) (colors : Bool) :
    run options read? stdin colors =
      runInputs options read? (State.initial options stdin colors) options.inputs := by
  have hnotice : options.notice? = none := by simp [Options.notice?, hhelp, hversion, hinputs]
  rw [run, hnotice]

/-- A run on one input starts with that input. -/
theorem run_alone (hhelp : options.showHelp = false) (hversion : options.showVersion = false)
    (read? : Text → Option Text) (stdin : InputStream) (colors : Bool) (input : Input) :
    run { options with inputs := [input] } read? stdin colors =
      (runInput options read? (State.initial options stdin colors) input).1 := by
  rw [run_eq_runInputs { options with inputs := [input] } hhelp hversion
      (List.cons_ne_nil input [])]
  exact Outcome.andThen_nothing _

/-- A run on several inputs is the sum of the runs on each of them alone: what is written and
what is reported stands one after another, and it fails if one of them does. An input that can
be loaded is compiled as its content is alone, and its diagnostics are reported with lines of
that content. One that cannot be loaded is reported by one error without a place, and fails,
whatever the options say about warnings. -/
theorem run_eq_sum_of_inputs (options : Options) (read? : Text → Option Text)
    (stdin : InputStream) (colors : Bool) (hhelp : options.showHelp = false)
    (hversion : options.showVersion = false) (hinputs : options.inputs ≠ [])
    (hstdin : options.inputs.countP Input.fromStdin ≤ 1) :
    let whole := run options read? stdin colors
    let alone (input : Input) := run { options with inputs := [input] } read? stdin colors
    let reporter : Reporter := { colors := colors && options.color, format := options.format }
    whole.out = options.inputs.flatMap (fun input => (alone input).out) ∧
      whole.reports = options.inputs.flatMap (fun input => (alone input).reports) ∧
      (whole.exitCode = 1 ↔ ∃ input ∈ options.inputs, (alone input).exitCode = 1) ∧
      ∀ input ∈ options.inputs,
        (∀ content, input.content? read? stdin = some content →
          let source := Source.ofText content input.sourceName
          let raised := (Compilation.of options.style source).diagnostics
          (alone input).out = compile options.style content ∧
            (alone input).reports =
              (if options.ignoreWarnings then []
              else raised.flatMap (reporter.addSource input.sourceName content).describe) ∧
            ((alone input).exitCode = 1 ↔ raised ≠ [] ∧ options.ignoreWarnings = false)) ∧
        (input.content? read? stdin = none →
          (alone input).out = [] ∧
            (alone input).reports =
              reporter.describe
                { severity := .error
                  code := utf8 (if input.fromStdin then "E002" else "E001")
                  message :=
                    if input.fromStdin then utf8 "Failed to read <stdin>"
                    else utf8 "Failed to open file: " ++ input.path
                  file := input.path
                  span := {} } ∧
            (alone input).exitCode = 1) := by
  intro whole alone reporter
  have halone (input : Input) :
      alone input = (runInput options read? (State.initial options stdin colors) input).1 :=
    run_alone hhelp hversion read? stdin colors input
  have hwhole : whole =
      ⟨options.inputs.flatMap fun input => (alone input).events,
        options.inputs.any fun input => (alone input).failed⟩ := by
    simp only [halone]
    rw [← runInputs_eq_sum _ options.inputs ⟨rfl, rfl⟩ hstdin fun _ => rfl]
    exact run_eq_runInputs options hhelp hversion hinputs read? stdin colors
  refine ⟨?_, ?_, ?_, fun input _ => ⟨fun content hcontent => ?_, fun hcontent => ?_⟩⟩
  · rw [hwhole, Outcome.out, List.flatMap_assoc]
    rfl
  · rw [hwhole, Outcome.reports, List.flatMap_assoc]
    rfl
  · simp only [Outcome.exitCode_eq_one_iff, hwhole, List.any_eq_true]
  · simp only [Outcome.exitCode_eq_one_iff, halone]
    exact runInput_of_content?_eq_some hcontent
  · simp only [Outcome.exitCode_eq_one_iff, halone]
    rw [← loadFailure_loadError]
    exact runInput_of_content?_eq_none hcontent

/-- The first file has the name that the standard input is reported under, with other content,
and the last file does not exist. Each of the three is shown and counted as when it is
alone. -/
theorem run_eq_sum_of_inputs_shared_name :
    let stdin : InputStream := { content := utf8 "let (" }
    let read? (path : Text) : Option Text :=
      if path = utf8 "<stdin>" then some (utf8 "x;\nlet (a) \x7b") else none
    let options : Options :=
      { inputs := [⟨utf8 "<stdin>", false⟩, ⟨utf8 "<stdin>", true⟩, ⟨utf8 "b.js", false⟩] }
    let alone (input : Input) := run { options with inputs := [input] } read? stdin false
    options.inputs.countP Input.fromStdin = 1 ∧
      (run options read? stdin false).reports =
        options.inputs.flatMap (fun input => (alone input).reports) ∧
      ((run options read? stdin false).exitCode = 1 ↔
        ∃ input ∈ options.inputs, (alone input).exitCode = 1) ∧
      (alone ⟨utf8 "<stdin>", true⟩).out = compile options.style (utf8 "let (") ∧
      (alone ⟨utf8 "b.js", false⟩).reports =
        utf8 "error[E001]: Failed to open file: b.js\n  --> b.js\n" ∧
      (alone ⟨utf8 "b.js", false⟩).exitCode = 1 := by
  intro stdin read? options alone
  have hcount : options.inputs.countP Input.fromStdin = 1 := by decide
  obtain ⟨-, hreports, hexit, heach⟩ :=
    run_eq_sum_of_inputs options read? stdin false rfl rfl (List.cons_ne_nil _ _) hcount.le
  obtain ⟨hloaded, -⟩ := heach ⟨utf8 "<stdin>", true⟩ (by decide)
  obtain ⟨-, hmissing⟩ := heach ⟨utf8 "b.js", false⟩ (by decide)
  obtain ⟨-, hreport, hfailed⟩ := hmissing (by decide)
  refine ⟨hcount, hreports, hexit, (hloaded (utf8 "let (") rfl).1, hreport.trans ?_, hfailed⟩
  decide +kernel

end LetBlocks.Cli
