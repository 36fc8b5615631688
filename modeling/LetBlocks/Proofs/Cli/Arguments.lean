import LetBlocks.Cli.Options
import LetBlocks.Proofs.Log.Precedence
import Mathlib.Data.List.Induction

/-!
The arguments of a command line are read one after another, and reading stops at the first one
that is refused. Here the outcome is told from the list of arguments as a whole: `Admissible`
says which lists are accepted, and `Options.asked` what they ask for, each option by the
arguments that have a say in it. The error of any other list comes from its first argument that
cannot be accepted, and `Argument.Refused` gives it for that argument alone.

The induction is from the end of the list, since what has been read so far is what the
arguments in front ask for, and all that the next argument needs to know of them is whether the
standard input is taken.
-/

namespace LetBlocks.Cli

open Log (lastOf? lastOf?_concat)

namespace Argument

/-! ### Arguments -/

/-- The options without a value, but for `--compile` and those about the log. -/
def switches : List Text :=
  ["--help", "-h", "--version", "-V", "--ignore-warnings", "--no-annotate", "--es6",
    "--no-color"].map utf8

def errorFormats : List Text := ["text", "json"].map utf8

def logFormats : List Text := ["text", "json", "JSON"].map utf8

def logLevels : List Text :=
  ["TRACE", "trace", "DEBUG", "debug", "INFO", "info", "WARN", "warn", "ERROR", "error",
    "FATAL", "fatal", "OFF", "off"].map utf8

inductive Valid : Text → Prop
  | switch {argument : Text} (h : argument ∈ switches) : Valid argument
  | stdin : Valid (utf8 "--compile")
  | file {path : Text} (h : path ≠ []) : Valid (utf8 "--compile=" ++ path)
  | errorFormat {name : Text} (h : name ∈ errorFormats) :
      Valid (utf8 "--error-format=" ++ name)
  | logLevel {name : Text} (h : name ∈ logLevels) : Valid (utf8 "--log-level=" ++ name)
  | logFormat {name : Text} (h : name ∈ logFormats) : Valid (utf8 "--log-format=" ++ name)
  /-- Any other argument about the log. -/
  | logging {argument : Text} (h : Log.Setting.isLogOption argument = true)
      (hlevel : ¬ utf8 "--log-level=" <+: argument)
      (hformat : ¬ utf8 "--log-format=" <+: argument) : Valid argument

/-- An argument that is an option, whatever its value. -/
def Recognized (argument : Text) : Prop :=
  argument ∈ switches ∨ argument = utf8 "--compile" ∨ utf8 "--compile=" <+: argument ∨
    utf8 "--error-format=" <+: argument ∨ Log.Setting.isLogOption argument = true

/-- Why an argument is refused; `stdinTaken` says whether an earlier one is `--compile`. -/
inductive Refused (stdinTaken : Bool) : Text → ArgumentError → Prop
  | stdinTwice (h : stdinTaken = true) : Refused stdinTaken (utf8 "--compile") .stdinTwice
  | pathMissing : Refused stdinTaken (utf8 "--compile=") .pathMissing
  | errorFormat {name : Text} (h : name ∉ errorFormats) :
      Refused stdinTaken (utf8 "--error-format=" ++ name) (.badErrorFormat name)
  | logLevel {name : Text} (h : name ∉ logLevels) :
      Refused stdinTaken (utf8 "--log-level=" ++ name) (.badLogLevel name)
  | logFormat {name : Text} (h : name ∉ logFormats) :
      Refused stdinTaken (utf8 "--log-format=" ++ name) (.badLogFormat name)
  | unexpected {b : Byte} {rest : Text} (h : b ≠ Byte.dash) :
      Refused stdinTaken (b :: rest) (.unexpected (b :: rest))
  | unknown {argument : Text} (hdash : ∀ b ∈ argument.head?, b = Byte.dash)
      (h : ¬ Recognized argument) :
      Refused stdinTaken argument (.unknown argument)

def inputNamed? (argument : Text) : Option Input :=
  if argument = utf8 "--compile" then some { path := utf8 "<stdin>", fromStdin := true }
  else (argument.after? "--compile=").map fun path => { path }

def formatNamed? (argument : Text) : Option Format :=
  (argument.after? "--error-format=").map fun name =>
    if name = utf8 "json" then .json else .text

end Argument

/-- A list of arguments that can be accepted: each of them can, and the standard input is asked
for at most once. -/
def Admissible (arguments : List Text) : Prop :=
  (∀ argument ∈ arguments, Argument.Valid argument) ∧ arguments.count (utf8 "--compile") ≤ 1

/-- What arguments ask for, apart from the log. -/
def Options.asked (arguments : List Text) : Options where
  showHelp := arguments.contains (utf8 "--help") || arguments.contains (utf8 "-h")
  showVersion := arguments.contains (utf8 "--version") || arguments.contains (utf8 "-V")
  ignoreWarnings := arguments.contains (utf8 "--ignore-warnings")
  color := !arguments.contains (utf8 "--no-color")
  style :=
    { es3 := !arguments.contains (utf8 "--es6")
      annotate := !arguments.contains (utf8 "--no-annotate") }
  inputs := arguments.filterMap Argument.inputNamed?
  format := (lastOf? Argument.formatNamed? arguments).getD .text

namespace Argument

/-! ### Reading one argument -/

def input? : Argument → Option Input
  | compileStdin => some { path := utf8 "<stdin>", fromStdin := true }
  | compileFile path => some { path }
  | _ => none

def format? : Argument → Option Format
  | errorFormat format => some format
  | _ => none

/-- What is read from an argument is what the argument asks for. -/
structure Agrees (argument : Text) (asked : Argument) : Prop where
  help : (argument == utf8 "--help" || argument == utf8 "-h") = decide (asked = .help)
  version : (argument == utf8 "--version" || argument == utf8 "-V") = decide (asked = .version)
  ignoreWarnings : (argument == utf8 "--ignore-warnings") = decide (asked = .ignoreWarnings)
  noColor : (argument == utf8 "--no-color") = decide (asked = .noColor)
  es6 : (argument == utf8 "--es6") = decide (asked = .es6)
  noAnnotate : (argument == utf8 "--no-annotate") = decide (asked = .noAnnotate)
  stdin : (argument == utf8 "--compile") = decide (asked = .compileStdin)
  input : inputNamed? argument = asked.input?
  format : formatNamed? argument = asked.format?

theorem isSome_ofName?_iff {name : Text} :
    (Log.Level.ofName? name).isSome = true ↔ name ∈ logLevels := by
  simp only [Log.Level.ofName?, Log.Level.names, logLevels, Option.isSome_map,
    List.find?_isSome, List.mem_cons, List.not_mem_nil, List.map_cons, List.map_nil, or_false,
    exists_eq_or_imp, exists_eq_left, Bool.or_eq_true, beq_iff_eq, or_assoc]

theorem formatOf_eq_json_iff {name : Text} :
    Log.Setting.formatOf name = .json ↔ name = utf8 "json" ∨ name = utf8 "JSON" := by
  rw [Log.Setting.formatOf]
  split_ifs with h
  · exact iff_of_true rfl h
  · exact iff_of_false (by decide) h

theorem mem_logFormats_iff {name : Text} :
    name ∈ logFormats ↔ name = utf8 "text" ∨ Log.Setting.formatOf name = .json := by
  rw [formatOf_eq_json_iff]
  simp [logFormats]

theorem after?_eq_none {option : String} {argument : Text} (h : ¬ utf8 option <+: argument) :
    argument.after? option = none :=
  (Log.Setting.exists_append_or_after?_eq_none option argument).resolve_left
    fun ⟨value, hvalue⟩ =>
    h ⟨value, hvalue.symm⟩

/-- All flags are switches or ask for the standard input. -/
theorem lookup_flags_eq_none {argument : Text} (hswitch : argument ∉ switches)
    (hstdin : argument ≠ utf8 "--compile") : flags.lookup argument = none := by
  have hflags : ∀ flag ∈ flags, flag.1 ∈ switches ∨ flag.1 = utf8 "--compile" := by decide
  rw [List.lookup_eq_none_iff]
  intro flag hflag
  rw [bne_iff_ne]
  rintro rfl
  exact (hflags flag hflag).elim hswitch hstdin

section LogOption

variable {argument : Text} (h : Log.Setting.isLogOption argument = true)
include h

/-- An option about the log is none that can be seen not to be one. -/
theorem ne_of_isLogOption {other : Text} (hother : Log.Setting.isLogOption other = false) :
    argument ≠ other := by
  rintro rfl
  rw [hother] at h
  cases h

theorem notMem_switches_of_isLogOption : argument ∉ switches := by
  have hswitches : ∀ switch ∈ switches, Log.Setting.isLogOption switch = false := by decide
  exact fun hswitch => ne_of_isLogOption h (hswitches argument hswitch) rfl

theorem after?_compile_of_isLogOption : argument.after? "--compile=" = none :=
  after?_eq_none fun ⟨_, happend⟩ => ne_of_isLogOption h (by rfl) happend.symm

theorem after?_errorFormat_of_isLogOption : argument.after? "--error-format=" = none :=
  after?_eq_none fun ⟨_, happend⟩ => ne_of_isLogOption h (by rfl) happend.symm

theorem beq_of_isLogOption {other : Text} (hother : Log.Setting.isLogOption other = false) :
    (argument == other) = false :=
  beq_eq_false_iff_ne.2 (ne_of_isLogOption h hother)

theorem agrees_logging : Agrees argument logging where
  help := Bool.or_eq_false_iff.2 ⟨beq_of_isLogOption h rfl, beq_of_isLogOption h rfl⟩
  version := Bool.or_eq_false_iff.2 ⟨beq_of_isLogOption h rfl, beq_of_isLogOption h rfl⟩
  ignoreWarnings := beq_of_isLogOption h rfl
  noColor := beq_of_isLogOption h rfl
  es6 := beq_of_isLogOption h rfl
  noAnnotate := beq_of_isLogOption h rfl
  stdin := beq_of_isLogOption h rfl
  input := by
    rw [inputNamed?, if_neg (ne_of_isLogOption h rfl), after?_compile_of_isLogOption h]
    rfl
  format := by
    rw [formatNamed?, after?_errorFormat_of_isLogOption h]
    rfl

theorem head?_of_isLogOption : argument.head? = some Byte.dash := by
  simp only [Log.Setting.isLogOption, Log.Setting.isVerbosityFlag, Log.Setting.isVs,
    List.any_cons, List.any_nil, Bool.or_eq_true, Bool.and_eq_true, beq_iff_eq,
    List.isPrefixOf_iff_prefix, Bool.or_false] at h
  rcases h with ((((⟨_, rfl⟩ | ⟨_, rfl⟩ | ⟨_, rfl⟩ | ⟨_, rfl⟩) | rfl) | rfl) | rfl | ⟨⟨-,
    hdash⟩, -⟩)
  case inr.inr => exact hdash
  all_goals rfl

end LogOption

theorem read_of_setting {argument : Text} {setting : Log.Setting}
    (h : Log.Setting.ofArgument? argument = some setting) :
    read argument = checkSetting setting := by
  have hlog : Log.Setting.isLogOption argument = true := by
    rw [(Log.Setting.reads_ofArgument? argument).isSome, h, Option.isSome_some]
  have hflag :=
    lookup_flags_eq_none (notMem_switches_of_isLogOption hlog) (ne_of_isLogOption hlog rfl)
  simp only [read, hflag, after?_compile_of_isLogOption hlog,
    after?_errorFormat_of_isLogOption hlog, h]

theorem read_logLevel (name : Text) :
    read (utf8 "--log-level=" ++ name) = checkSetting (.level name) :=
  read_of_setting rfl

theorem read_logFormat (name : Text) :
    read (utf8 "--log-format=" ++ name) = checkSetting (.format name) :=
  read_of_setting rfl

/-- Only levels and formats are checked. -/
theorem checkSetting_of_other {argument : Text} {setting : Log.Setting}
    (h : Log.Setting.ofArgument? argument = some setting)
    (hlevel : argument.after? "--log-level=" = none)
    (hformat : argument.after? "--log-format=" = none) :
    checkSetting setting = .ok logging := by
  cases setting with
  | level name => simp [Log.Setting.ofArgument?, hlevel] at h
  | format name => simp [Log.Setting.ofArgument?, hformat] at h
  | _ => rfl

theorem read_of_valid {argument : Text} (h : Valid argument) :
    ∃ asked, read argument = .ok asked ∧ Agrees argument asked := by
  cases h with
  | switch h =>
      simp only [switches, List.map_cons, List.map_nil, List.mem_cons, List.not_mem_nil,
        or_false] at h
      rcases h with rfl | rfl | rfl | rfl | rfl | rfl | rfl | rfl <;>
        exact ⟨_, rfl, by constructor <;> rfl⟩
  | stdin => exact ⟨compileStdin, rfl, by constructor <;> rfl⟩
  | file h => exact ⟨compileFile _, if_neg h, by constructor <;> rfl⟩
  | errorFormat h =>
      simp only [errorFormats, List.map_cons, List.map_nil, List.mem_cons, List.not_mem_nil,
        or_false] at h
      rcases h with rfl | rfl <;> exact ⟨_, rfl, by constructor <;> rfl⟩
  | logLevel h =>
      exact ⟨logging, (read_logLevel _).trans (if_pos (isSome_ofName?_iff.2 h)),
        agrees_logging rfl⟩
  | logFormat h =>
      exact ⟨logging, (read_logFormat _).trans (if_pos (mem_logFormats_iff.1 h)),
        agrees_logging rfl⟩
  | logging h hlevel hformat =>
      have hsome := (Log.Setting.reads_ofArgument? argument).isSome
      rw [h] at hsome
      obtain ⟨setting, hsetting⟩ := Option.isSome_iff_exists.1 hsome.symm
      have hcheck :=
        checkSetting_of_other hsetting (after?_eq_none hlevel) (after?_eq_none hformat)
      exact ⟨logging, (read_of_setting hsetting).trans hcheck, agrees_logging h⟩

theorem head?_of_recognized {argument : Text} (h : Recognized argument) :
    argument.head? = some Byte.dash := by
  have hswitches : ∀ switch ∈ switches, switch.head? = some Byte.dash := by decide
  rcases h with hswitch | rfl | ⟨_, rfl⟩ | ⟨_, rfl⟩ | hlog
  · exact hswitches argument hswitch
  · rfl
  · rfl
  · rfl
  · exact head?_of_isLogOption hlog

theorem read_of_not_recognized {argument : Text} (h : ¬ Recognized argument) :
    read argument = if argument.head?.any (· ≠ Byte.dash) then .error (.unexpected argument)
      else .error (.unknown argument) := by
  simp only [Recognized, not_or] at h
  obtain ⟨hswitch, hstdin, hfile, hformat, hlog⟩ := h
  have hnone : Log.Setting.ofArgument? argument = none := by
    rw [(Log.Setting.reads_ofArgument? argument).isSome] at hlog
    simpa using hlog
  simp only [read, lookup_flags_eq_none hswitch hstdin, after?_eq_none hfile,
    after?_eq_none hformat, hnone]

theorem read_of_refused {stdinTaken : Bool} {argument : Text} {e : ArgumentError}
    (h : Refused stdinTaken argument e) :
    read argument = .error e ∨
      stdinTaken = true ∧ argument = utf8 "--compile" ∧ e = .stdinTwice := by
  cases h with
  | stdinTwice h => exact .inr ⟨h, rfl, rfl⟩
  | pathMissing => exact .inl rfl
  | @errorFormat name h =>
      simp only [errorFormats, List.map_cons, List.map_nil, List.mem_cons, List.not_mem_nil,
        or_false, not_or] at h
      exact .inl ((if_neg h.2).trans (if_neg h.1))
  | logLevel h => exact .inl ((read_logLevel _).trans (if_neg (mt isSome_ofName?_iff.1 h)))
  | logFormat h => exact .inl ((read_logFormat _).trans (if_neg (mt mem_logFormats_iff.2 h)))
  | @unexpected b rest h =>
      have hnot : ¬ Recognized (b :: rest) :=
        fun hrec => h (Option.some.inj (head?_of_recognized hrec))
      refine .inl ((read_of_not_recognized hnot).trans (if_pos ?_))
      simpa using h
  | unknown hdash h =>
      refine .inl ((read_of_not_recognized h).trans (if_neg ?_))
      cases hhead : argument.head? with
      | none => simp
      | some b => simp [hdash b hhead]

/-- Every argument is valid or refused. -/
theorem valid_or_refused (argument : Text) :
    Valid argument ∨ ∃ e, ∀ stdinTaken, Refused stdinTaken argument e := by
  -- an option is valid if its value is, and anything else is refused by its first byte
  by_cases hrec : Recognized argument
  · rcases hrec with hswitch | rfl | ⟨path, rfl⟩ | ⟨name, rfl⟩ | hlog
    · exact .inl (.switch hswitch)
    · exact .inl .stdin
    · by_cases hpath : path = []
      · subst hpath
        exact .inr ⟨_, fun _ => .pathMissing⟩
      · exact .inl (.file hpath)
    · by_cases hname : name ∈ errorFormats
      · exact .inl (.errorFormat hname)
      · exact .inr ⟨_, fun _ => .errorFormat hname⟩
    · by_cases hlevel : utf8 "--log-level=" <+: argument
      · obtain ⟨name, rfl⟩ := hlevel
        by_cases hname : name ∈ logLevels
        · exact .inl (.logLevel hname)
        · exact .inr ⟨_, fun _ => .logLevel hname⟩
      · by_cases hformat : utf8 "--log-format=" <+: argument
        · obtain ⟨name, rfl⟩ := hformat
          by_cases hname : name ∈ logFormats
          · exact .inl (.logFormat hname)
          · exact .inr ⟨_, fun _ => .logFormat hname⟩
        · exact .inl (.logging hlog hlevel hformat)
  · cases argument with
    | nil => exact .inr ⟨_, fun _ => .unknown (by simp) hrec⟩
    | cons b rest =>
        by_cases hdash : b = Byte.dash
        · exact .inr ⟨_, fun _ => .unknown (by simpa using hdash) hrec⟩
        · exact .inr ⟨_, fun _ => .unexpected hdash⟩

theorem exists_refused_iff {stdinTaken : Bool} {argument : Text} :
    (∃ e, Refused stdinTaken argument e) ↔
      ¬ Valid argument ∨ stdinTaken = true ∧ argument = utf8 "--compile" := by
  constructor
  · rintro ⟨e, he⟩
    rcases read_of_refused he with hread | ⟨htaken, hstdin, -⟩
    · refine .inl fun hvalid => ?_
      obtain ⟨asked, hasked, -⟩ := read_of_valid hvalid
      rw [hread] at hasked
      cases hasked
    · exact .inr ⟨htaken, hstdin⟩
  · rintro (hvalid | ⟨htaken, rfl⟩)
    · obtain ⟨e, he⟩ := (valid_or_refused argument).resolve_left hvalid
      exact ⟨e, he stdinTaken⟩
    · exact ⟨_, .stdinTwice htaken⟩

theorem Valid.not_refused {argument : Text} (h : Valid argument) (e : ArgumentError) :
    ¬ Refused false argument e :=
  fun he => (exists_refused_iff.1 ⟨e, he⟩).elim (fun hnot => hnot h) fun htaken =>
    nomatch htaken.1

theorem Refused.unique {stdinTaken : Bool} {argument : Text} {e e' : ArgumentError}
    (h : Refused stdinTaken argument e) (h' : Refused stdinTaken argument e') : e = e' := by
  have hstdin : read (utf8 "--compile") = .ok compileStdin := rfl
  rcases read_of_refused h with hread | ⟨-, rfl, rfl⟩ <;> rcases read_of_refused h' with
    hread' | ⟨-, heq, rfl⟩
  · rw [hread] at hread'
    exact Except.error.inj hread'
  · rw [heq, hstdin] at hread
    cases hread
  · rw [hstdin] at hread'
    cases hread'
  · rfl

theorem ofName?_of_valid {name : Text} (h : Valid (utf8 "--log-level=" ++ name)) :
    Log.Level.ofName? name = some (Log.Level.ofName name) := by
  have hname : name ∈ logLevels := by
    by_contra hname
    exact h.not_refused _ (.logLevel hname)
  obtain ⟨level, hlevel⟩ := Option.isSome_iff_exists.1 (isSome_ofName?_iff.2 hname)
  rw [Log.Level.ofName, hlevel, Option.getD_some]

theorem mem_logFormats_of_valid {name : Text} (h : Valid (utf8 "--log-format=" ++ name)) :
    name ∈ logFormats := by
  by_contra hname
  exact h.not_refused _ (.logFormat hname)

end Argument

/-! ### Reading all arguments -/

theorem admissible_concat {before : List Text} {argument : Text} :
    Admissible (before ++ [argument]) ↔
      Admissible before ∧ Argument.Valid argument ∧
        (argument = utf8 "--compile" → utf8 "--compile" ∉ before) := by
  simp only [Admissible, List.forall_mem_append, List.forall_mem_singleton, List.count_append]
  by_cases hstdin : argument = utf8 "--compile"
  · subst hstdin
    rw [List.count_singleton_self, ← List.count_eq_zero]
    constructor
    · rintro ⟨⟨hbefore, hvalid⟩, hcount⟩
      exact ⟨⟨hbefore, by omega⟩, hvalid, fun _ => by omega⟩
    · rintro ⟨⟨hbefore, -⟩, hvalid, hcount⟩
      exact ⟨⟨hbefore, hvalid⟩, Nat.le_of_eq (by rw [hcount rfl])⟩
  · rw [List.count_eq_zero.2
        (show utf8 "--compile" ∉ [argument] by simpa using Ne.symm hstdin)]
    simp only [hstdin, false_implies, and_true, Nat.add_zero]
    rw [and_right_comm]

namespace Options

open Argument

theorem applyAll_append (options : Options) (before after : List Text) :
    options.applyAll (before ++ after) =
      (options.applyAll before).bind fun options => options.applyAll after := by
  induction before generalizing options with
  | nil => rfl
  | cons argument before ih =>
      simp only [List.cons_append, applyAll]
      cases read argument with
      | error e => rfl
      | ok asked =>
          dsimp only
          cases options.apply asked with
          | error e => rfl
          | ok options => exact ih options

theorem any_fromStdin_asked (arguments : List Text) :
    (asked arguments).inputs.any Input.fromStdin = arguments.contains (utf8 "--compile") := by
  have hnamed : ∀ argument, (inputNamed? argument).any Input.fromStdin =
      (utf8 "--compile" == argument) := by
    intro argument
    rw [inputNamed?]
    split_ifs with h
    · rw [h]
      rfl
    · rw [beq_eq_false_iff_ne.2 (Ne.symm h)]
      cases argument.after? "--compile=" <;> rfl
  rw [asked, List.any_filterMap, List.contains_eq_any_beq]
  exact congrArg arguments.any (funext hnamed)

theorem asked_concat (before : List Text) (argument : Text) :
    asked (before ++ [argument]) =
      { asked before with
        showHelp := (asked before).showHelp ||
          (argument == utf8 "--help" || argument == utf8 "-h")
        showVersion := (asked before).showVersion ||
          (argument == utf8 "--version" || argument == utf8 "-V")
        ignoreWarnings := (asked before).ignoreWarnings || argument == utf8 "--ignore-warnings"
        color := (asked before).color && !(argument == utf8 "--no-color")
        style :=
          { es3 := (asked before).style.es3 && !(argument == utf8 "--es6")
            annotate := (asked before).style.annotate && !(argument == utf8 "--no-annotate") }
        inputs := (asked before).inputs ++ (inputNamed? argument).toList
        format := (formatNamed? argument).getD (asked before).format } := by
  have hcontains : ∀ other : Text,
      (before ++ [argument]).contains other = (before.contains other || argument == other) :=
        fun other => by
    rw [List.contains_append, List.contains_cons, List.contains_nil, Bool.or_false, BEq.comm]
  have hor : ∀ a b c d : Bool, ((a || b) || (c || d)) = ((a || c) || (b || d)) := by decide
  have hinputs : [argument].filterMap inputNamed? = (inputNamed? argument).toList := by
    cases h : inputNamed? argument <;> simp [h]
  simp only [asked, hcontains, hinputs, List.filterMap_append, Bool.not_or, lastOf?_concat,
    Option.getD_or]
  rw [hor, hor (before.contains (utf8 "--version"))]

theorem apply_asked {before : List Text} {argument : Text} {asked : Argument}
    (h : Agrees argument asked) (hstdin : asked = .compileStdin → utf8 "--compile" ∉ before) :
    (Options.asked before).apply asked = .ok (Options.asked (before ++ [argument])) := by
  rw [asked_concat, h.help, h.version, h.ignoreWarnings, h.noColor, h.es6, h.noAnnotate,
    h.input, h.format]
  cases asked with
  | compileStdin =>
      have hfree : (Options.asked before).inputs.any Input.fromStdin = false := by
        rw [any_fromStdin_asked, List.contains_eq_mem]
        exact decide_eq_false (hstdin rfl)
      simp [apply, hfree, Argument.input?, Argument.format?]
  | _ => simp [apply, Argument.input?, Argument.format?]

/-- Arguments that can be accepted are, and nothing but what they ask for is done. -/
theorem applyAll_of_admissible {arguments : List Text} (h : Admissible arguments) :
    applyAll {} arguments = .ok (asked arguments) := by
  induction arguments using List.reverseRecOn with
  | nil => rfl
  | append_singleton before argument ih =>
      obtain ⟨hbefore, hvalid, hstdin⟩ := admissible_concat.1 h
      obtain ⟨asked, hread, hagrees⟩ := read_of_valid hvalid
      -- the standard input is asked for by no other argument than `--compile`
      have hfree : asked = .compileStdin → utf8 "--compile" ∉ before := fun heq =>
        hstdin (beq_iff_eq.1 (hagrees.stdin.trans (decide_eq_true heq)))
      rw [applyAll_append, ih hbefore]
      simp only [Except.bind, applyAll, hread, apply_asked hagrees hfree]

/-- What follows an argument that is refused is not looked at. -/
theorem applyAll_of_refused {before : List Text} {argument : Text} {e : ArgumentError}
    (hbefore : Admissible before) (h : Refused (before.contains (utf8 "--compile")) argument e)
    (after : List Text) : applyAll {} (before ++ argument :: after) = .error e := by
  rw [applyAll_append, applyAll_of_admissible hbefore]
  rcases read_of_refused h with hread | ⟨htaken, rfl, rfl⟩
  · simp only [Except.bind, applyAll, hread]
  · have hread : read (utf8 "--compile") = .ok compileStdin := rfl
    have htwice : (asked before).apply compileStdin = .error .stdinTwice :=
      if_pos ((any_fromStdin_asked before).trans htaken)
    simp only [Except.bind, applyAll, hread, htwice]

/-- Arguments that cannot be accepted together have a first one that is refused. -/
theorem exists_refused {arguments : List Text} (h : ¬ Admissible arguments) :
    ∃ before argument after e, arguments = before ++ argument :: after ∧ Admissible before ∧
      Refused (before.contains (utf8 "--compile")) argument e := by
  induction arguments using List.reverseRecOn with
  | nil => exact absurd ⟨nofun, Nat.zero_le 1⟩ h
  | append_singleton front argument ih =>
      -- if those in front can be accepted it is the last one, and otherwise it is among them
      by_cases hfront : Admissible front
      · refine ⟨front, argument, [], ?_⟩
        rcases valid_or_refused argument with hvalid | ⟨e, he⟩
        · have htaken : argument = utf8 "--compile" ∧ utf8 "--compile" ∈ front := by
            by_contra hnot
            exact h (admissible_concat.2 ⟨hfront, hvalid, fun heq hmem => hnot ⟨heq, hmem⟩⟩)
          rw [htaken.1]
          exact ⟨.stdinTwice, rfl, hfront, .stdinTwice (List.contains_iff_mem.2 htaken.2)⟩
        · exact ⟨e, rfl, hfront, he _⟩
      · obtain ⟨before, refused, after, e, rfl, hbefore, he⟩ := ih hfront
        exact ⟨before, refused, after ++ [argument], e, by simp, hbefore, he⟩

theorem ofArguments_of_admissible {arguments : List Text} (h : Admissible arguments)
    (logValue : Option Text) :
    ofArguments arguments logValue = .ok
      { asked arguments with
        log :=
          { Log.Config.ofArguments arguments logValue with colors := (asked arguments).color }
            } := by
  simp only [ofArguments, applyAll_of_admissible h]

theorem ofArguments_of_refused {before : List Text} {argument : Text} {e : ArgumentError}
    (hbefore : Admissible before) (h : Refused (before.contains (utf8 "--compile")) argument e)
    (after : List Text) (logValue : Option Text) :
    ofArguments (before ++ argument :: after) logValue = .error e := by
  simp only [ofArguments, applyAll_of_refused hbefore h]

/-- The program accepts the admissible lists of arguments and no others. What it then does is
asked for by the arguments: an option without a value counts if it occurs anywhere, the inputs
are those named, in their order, of several error formats the last one counts, and the log is
set up from the same arguments, with colors if errors have them.

A list that is not accepted gives the error of its first argument that is refused, which
depends on nothing but that argument and whether the standard input was asked for before it. An
argument is refused exactly if it is not valid or asks for the standard input once more, and it
has one error.

In an admissible list all levels and formats of the log are known ones, so none is read as what
stands for those that are not. -/
theorem ofArguments_accepts_admissible (arguments : List Text) (logValue : Option Text) :
    (∀ options, ofArguments arguments logValue = .ok options ↔
      Admissible arguments ∧ options =
        { asked arguments with
          log :=
            { Log.Config.ofArguments arguments logValue with
              colors := (asked arguments).color } }) ∧
    (∀ e, ofArguments arguments logValue = .error e ↔
      ∃ before argument after, arguments = before ++ argument :: after ∧ Admissible before ∧
        Refused (before.contains (utf8 "--compile")) argument e) ∧
    (∀ stdinTaken argument, (∃ e, Refused stdinTaken argument e) ↔
      ¬ Valid argument ∨ stdinTaken = true ∧ argument = utf8 "--compile") ∧
    (∀ stdinTaken argument e e', Refused stdinTaken argument e →
      Refused stdinTaken argument e' → e = e') ∧
    (Admissible arguments →
      (∀ name, utf8 "--log-level=" ++ name ∈ arguments →
        Log.Level.ofName? name = some (Log.Level.ofName name)) ∧
      ∀ name, utf8 "--log-format=" ++ name ∈ arguments →
        name ∈ logFormats ∧ (Log.Setting.formatOf name = .text → name = utf8 "text")) := by
  refine ⟨fun options => ?_, fun e => ?_, fun _ _ => exists_refused_iff,
    fun _ _ _ _ => Refused.unique, fun h => ?_⟩
  · by_cases h : Admissible arguments
    · rw [ofArguments_of_admissible h, Except.ok.injEq, eq_comm]
      exact (and_iff_right h).symm
    · obtain ⟨before, argument, after, e, rfl, hbefore, he⟩ := exists_refused h
      rw [ofArguments_of_refused hbefore he]
      exact iff_of_false nofun fun hboth => h hboth.1
  · constructor
    · intro herror
      have h : ¬ Admissible arguments := by
        intro h
        rw [ofArguments_of_admissible h] at herror
        cases herror
      obtain ⟨before, argument, after, e', rfl, hbefore, he⟩ := exists_refused h
      rw [ofArguments_of_refused hbefore he] at herror
      cases herror
      exact ⟨before, argument, after, rfl, hbefore, he⟩
    · rintro ⟨before, argument, after, rfl, hbefore, he⟩
      exact ofArguments_of_refused hbefore he after logValue
  · refine ⟨fun name hname => ?_, fun name hname => ?_⟩
    · exact ofName?_of_valid (h.1 _ hname)
    · have hknown := mem_logFormats_of_valid (h.1 _ hname)
      refine ⟨hknown, fun htext => (mem_logFormats_iff.1 hknown).resolve_right fun hjson => ?_⟩
      rw [htext] at hjson
      cases hjson

theorem ofArguments_accepts_admissible_mixed :
    let arguments := [utf8 "--compile=" ++ utf8 "b.js", utf8 "-vv", utf8 "--compile",
      utf8 "--log-level=" ++ utf8 "debug", utf8 "--error-format=" ++ utf8 "json", utf8 "--es6",
      utf8 "--log-format=" ++ utf8 "JSON"]
    Admissible arguments ∧
      (∃ options, ofArguments arguments none = .ok options ∧
        options.inputs = [{ path := utf8 "b.js" },
          { path := utf8 "<stdin>", fromStdin := true }]) ∧
      Log.Level.ofName? (utf8 "debug") = some (Log.Level.ofName (utf8 "debug")) ∧
      utf8 "JSON" ∈ logFormats ∧
      ofArguments (arguments ++ [utf8 "--compile", utf8 "app.js"]) none = .error .stdinTwice ∧
      ∀ e, Refused true (utf8 "--compile") e → e = .stdinTwice := by
  intro arguments
  have hadmissible : Admissible arguments := by
    refine ⟨?_, by decide⟩
    simp only [arguments, List.forall_mem_cons]
    exact ⟨.file (by decide), .logging rfl (by decide) (by decide), .stdin,
      .logLevel (by decide),
      .errorFormat (by decide), .switch (by decide), .logFormat (by decide), nofun⟩
  obtain ⟨hok, -, -, hunique, hlog⟩ := ofArguments_accepts_admissible arguments none
  obtain ⟨hlevel, hformat⟩ := hlog hadmissible
  have htwice :=
    (ofArguments_accepts_admissible (arguments ++ [utf8 "--compile", utf8 "app.js"]) none).2.1
      .stdinTwice
  refine ⟨hadmissible, ⟨_, (hok _).2 ⟨hadmissible, rfl⟩, by decide⟩, hlevel _ (by decide),
    (hformat _ (by decide)).1,
    htwice.2 ⟨arguments, utf8 "--compile", [utf8 "app.js"], rfl, hadmissible,
      .stdinTwice (by decide)⟩, fun e he => ?_⟩
  exact hunique true _ _ _ he (.stdinTwice rfl)

end Options

end LetBlocks.Cli
