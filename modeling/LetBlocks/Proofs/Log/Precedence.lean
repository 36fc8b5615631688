import LetBlocks.Log.Setting
import LetBlocks.Proofs.Log.Filters
import Mathlib.Data.List.Perm.Basic

/-!
The arguments that are about the log are gathered one after another, and what they leave open
is asked of the environment. Here the outcome is told from the list of arguments as a whole:
for each part of the configuration, which argument decides it, and what decides it if there is
no such argument. Arguments that are not about the log count for nothing, and it does not
matter where the verbosity flags stand.
-/

namespace LetBlocks.Log

namespace Setting

/-! ### Arguments -/

def isVs (argument : Text) : Bool :=
  2 ≤ argument.length && argument.head? == some Byte.dash && argument.tail.all (· == 0x76)

/-- How many `v`s an argument has, if it is a verbosity flag; `--verbose` counts for one. -/
def flagCount (argument : Text) : Nat :=
  if argument = utf8 "--verbose" then 1 else if isVs argument then argument.length - 1 else 0

/-- How much an argument asks to be told: what is left of its count in a signed integer of 32
bits. -/
def verbosityOf (argument : Text) : Int := (flagCount argument : Int).bmod UInt32.size

def isVerbosityFlag (argument : Text) : Bool := argument == utf8 "--verbose" || isVs argument

/-- Is an argument about the log? -/
def isLogOption (argument : Text) : Bool :=
  ["--log-level=", "--log-filter=", "--log-file=", "--log-format="].any
      (fun option => (utf8 option).isPrefixOf argument) ||
    argument == utf8 "-q" || argument == utf8 "--quiet" || isVerbosityFlag argument

def namedLevel? (argument : Text) : Option Level :=
  match argument.after? "--log-level=" with
  | some name => some (Level.ofName name)
  | none => if argument = utf8 "-q" ∨ argument = utf8 "--quiet" then some Level.error else none

def namedFormat? (argument : Text) : Option Format :=
  (argument.after? "--log-format=").map fun name =>
    if name = utf8 "json" ∨ name = utf8 "JSON" then .json else .text

/-- The largest verbosity that is asked for; zero if none is positive. -/
def strongest (arguments : List Text) : Int := (arguments.map verbosityOf).foldl max 0

def verbosityLevel (verbosity : Int) : Level :=
  if verbosity = 1 then Level.info else if verbosity = 2 then Level.debug else Level.trace

end Setting

namespace Config

open Setting

/-- The configuration for some arguments and a value of the environment variable, each part of
it by what decides it. A value with a `=` or a comma in it is a filter, any other one names a
level. -/
def byPrecedence (arguments : List Text) (logValue : Option Text) : Config :=
  let named := lastOf? namedLevel? arguments
  let verbosity := strongest arguments
  let spec := lastOf? (Text.after? "--log-filter=") arguments
  let value := logValue.getD []
  let isFilter := value.contains Byte.equals || value.contains Byte.comma
  { level :=
      named.getD <|
        if 0 < verbosity then verbosityLevel verbosity
        else if spec.isNone && !value.isEmpty && !isFilter then Level.ofName value
        else Level.warn
    filter := spec.getD (if isFilter && named.isNone && verbosity ≤ 0 then value else [])
    file := (lastOf? (Text.after? "--log-file=") arguments).getD []
    format := (lastOf? namedFormat? arguments).getD .text }

end Config

namespace Setting

/-! ### What a setting says -/

def level? : Setting → Option Level
  | level name => some (Level.ofName name)
  | quiet => some Level.error
  | _ => none

def filter? : Setting → Option Text
  | filter spec => some spec
  | _ => none

def file? : Setting → Option Text
  | file path => some path
  | _ => none

def format? : Setting → Option Format
  | format name => some (formatOf name)
  | _ => none

def count : Setting → Int32
  | verbosity n => n
  | _ => 0

def isVerbosity : Setting → Bool
  | verbosity _ => true
  | _ => false

structure Reads (argument : Text) (setting : Option Setting) : Prop where
  level : namedLevel? argument = setting.bind level?
  filter : argument.after? "--log-filter=" = setting.bind filter?
  file : argument.after? "--log-file=" = setting.bind file?
  format : namedFormat? argument = setting.bind format?
  verbosity : Int32.ofNat (flagCount argument) = setting.elim 0 count
  flag : isVerbosityFlag argument = setting.any isVerbosity
  isSome : isLogOption argument = setting.isSome

theorem exists_append_or_after?_eq_none (option : String) (argument : Text) :
    (∃ value, argument = utf8 option ++ value) ∨ argument.after? option = none := by
  rw [Text.after?]
  split_ifs with hstart
  · obtain ⟨value, hvalue⟩ := List.isPrefixOf_iff_prefix.1 hstart
    exact .inl ⟨value, hvalue.symm⟩
  · exact .inr rfl

theorem isPrefixOf_of_after?_eq_none {option : String} {argument : Text}
    (h : argument.after? option = none) : (utf8 option).isPrefixOf argument = false := by
  rw [Text.after?] at h
  split_ifs at h with hstart
  exact Bool.eq_false_iff.2 hstart

theorem verbosity?_eq (argument : Text) :
    verbosity? argument =
      if isVs argument then some (Int32.ofNat (argument.length - 1)) else none := by
  rcases argument with _ | ⟨dash, _ | ⟨v, rest⟩⟩
  · rfl
  · rfl
  · simp [verbosity?, isVs]

/-- Options with a value and the others exclude each other, so every argument is read by what
it begins with. -/
theorem reads_ofArgument? (argument : Text) : Reads argument (ofArgument? argument) := by
  rcases exists_append_or_after?_eq_none "--log-level=" argument with ⟨name, rfl⟩ | hlevel
  · constructor <;> rfl
  rcases exists_append_or_after?_eq_none "--log-filter=" argument with ⟨spec, rfl⟩ | hfilter
  · constructor <;> rfl
  rcases exists_append_or_after?_eq_none "--log-file=" argument with ⟨path, rfl⟩ | hfile
  · constructor <;> rfl
  rcases exists_append_or_after?_eq_none "--log-format=" argument with ⟨name, rfl⟩ | hformat
  · constructor <;> rfl
  by_cases hquiet : argument = utf8 "-q" ∨ argument = utf8 "--quiet"
  · rcases hquiet with rfl | rfl <;> constructor <;> rfl
  by_cases hverbose : argument = utf8 "--verbose"
  · subst hverbose
    constructor <;> rfl
  have hread : ofArgument? argument = (verbosity? argument).map verbosity := by
    simp [ofArgument?, hlevel, hfilter, hfile, hformat, hquiet, hverbose]
  have hnamed : namedLevel? argument = none := by
    rw [namedLevel?, hlevel]
    exact if_neg hquiet
  have hnamedFormat : namedFormat? argument = none := by
    rw [namedFormat?, hformat, Option.map_none]
  have hflag : isVerbosityFlag argument = isVs argument := by
    rw [isVerbosityFlag, beq_eq_false_iff_ne.2 hverbose, Bool.false_or]
  have hoption : isLogOption argument = isVs argument := by
    rw [not_or] at hquiet
    simp [isLogOption, isPrefixOf_of_after?_eq_none hlevel,
      isPrefixOf_of_after?_eq_none hfilter, isPrefixOf_of_after?_eq_none hfile,
      isPrefixOf_of_after?_eq_none hformat, hquiet, hflag]
  have hcount : flagCount argument = if isVs argument then argument.length - 1 else 0 :=
    if_neg hverbose
  rw [hread, verbosity?_eq]
  cases hvs : isVs argument with
  | false =>
      rw [hvs] at hflag hoption hcount
      exact ⟨hnamed, hfilter, hfile, hnamedFormat, congrArg Int32.ofNat hcount, hflag, hoption⟩
  | true =>
      rw [hvs] at hflag hoption hcount
      exact ⟨hnamed, hfilter, hfile, hnamedFormat, congrArg Int32.ofNat hcount, hflag, hoption⟩

/-! ### All arguments -/

def gathered (arguments : List Text) : Gathered :=
  (arguments.filterMap ofArgument?).foldl gather {}

/-- Of a part of what is gathered the last argument that has a say in it decides. -/
theorem view_gathered {β : Type} (view : Gathered → Option β) {said : Setting → Option β}
    {word : Text → Option β}
    (hgather : ∀ g setting, view (gather g setting) = (said setting).or (view g))
    (hword : ∀ argument, word argument = (ofArgument? argument).bind said)
    (arguments : List Text) :
    view (gathered arguments) = (lastOf? word arguments).or (view {}) := by
  rw [gathered, foldl_lastOf? view hgather, lastOf?_filterMap]
  simp only [← hword]

theorem level_gathered (arguments : List Text) :
    (gathered arguments).level = lastOf? namedLevel? arguments := by
  rw [view_gathered (·.level) (fun g setting => by cases setting <;> rfl) fun a =>
      (reads_ofArgument? a).level]
  exact Option.or_none

theorem filter_gathered (arguments : List Text) :
    (gathered arguments).filter = lastOf? (Text.after? "--log-filter=") arguments := by
  rw [view_gathered (·.filter) (fun g setting => by cases setting <;> rfl) fun a =>
      (reads_ofArgument? a).filter]
  exact Option.or_none

theorem file_gathered (arguments : List Text) :
    (gathered arguments).file = (lastOf? (Text.after? "--log-file=") arguments).getD [] := by
  have hfile :=
    view_gathered (fun g => some g.file) (fun g setting => by cases setting <;> rfl)
      (fun a => (reads_ofArgument? a).file) arguments
  rw [Option.or_some] at hfile
  exact Option.some.inj hfile

theorem format_gathered (arguments : List Text) :
    (gathered arguments).format = (lastOf? namedFormat? arguments).getD .text := by
  have hformat :=
    view_gathered (fun g => some g.format) (fun g setting => by cases setting <;> rfl)
      (fun a => (reads_ofArgument? a).format) arguments
  rw [Option.or_some] at hformat
  exact Option.some.inj hformat

theorem verbosityOf_eq (argument : Text) :
    verbosityOf argument = (Int32.ofNat (flagCount argument)).toInt :=
  Int32.toInt_ofNat'.symm

theorem verbosity_gather {g : Gathered} (h : 0 ≤ g.verbosity.toInt) (setting : Setting) :
    (gather g setting).verbosity.toInt = max g.verbosity.toInt setting.count.toInt := by
  cases setting with
  | verbosity n =>
      simp only [gather, count, Int32.lt_iff_toInt_lt]
      split_ifs with hlt <;> omega
  | _ => exact (Int.max_eq_left h).symm

theorem verbosity_gathered (arguments : List Text) :
    (gathered arguments).verbosity.toInt = strongest arguments := by
  -- A count below zero is never kept, so the integer gathered so far is not negative.
  have hfrom : ∀ g : Gathered, 0 ≤ g.verbosity.toInt →
      ((arguments.filterMap ofArgument?).foldl gather g).verbosity.toInt =
        (arguments.map verbosityOf).foldl max g.verbosity.toInt := by
    induction arguments with
    | nil => exact fun _ _ => rfl
    | cons argument arguments ih =>
        intro g hg
        rw [List.filterMap_cons, List.map_cons, List.foldl_cons, verbosityOf_eq,
          (reads_ofArgument? argument).verbosity]
        cases ofArgument? argument with
        | none =>
            rw [Option.elim_none, Int32.toInt_zero, Int.max_eq_left hg]
            exact ih g hg
        | some setting =>
            have hmax := verbosity_gather hg setting
            rw [List.foldl_cons, ih _ (by omega), hmax, Option.elim_some]
  exact hfrom {} (by decide)

theorem levelOfVerbosity_eq {n : Int32} (h : 0 < n.toInt) :
    levelOfVerbosity n = verbosityLevel n.toInt := by
  have htwo : n = 2 ↔ n.toInt = 2 := Int32.toInt_inj.symm
  have hthree : n ≥ 3 ↔ 3 ≤ n.toInt := Int32.le_iff_toInt_le
  simp only [levelOfVerbosity, verbosityLevel, htwo, hthree]
  split_ifs <;> first | rfl | omega

theorem level?_gathered (arguments : List Text) :
    (gathered arguments).level? =
      (lastOf? namedLevel? arguments).or
        (if 0 < strongest arguments then some (verbosityLevel (strongest arguments))
        else none) := by
  have hpositive : 0 < (gathered arguments).verbosity ↔ 0 < strongest arguments := by
    rw [← verbosity_gathered]
    exact Int32.lt_iff_toInt_lt
  rw [Gathered.level?, level_gathered, Option.orElse_eq_orElse, Option.orElse_eq_or]
  simp only [hpositive]
  split_ifs with hpos
  · rw [levelOfVerbosity_eq (verbosity_gathered arguments ▸ hpos), verbosity_gathered]
  · rfl

/-- Flags of fewer than 2 ^ 31 `v`s are counted as they are. -/
theorem strongest_eq_of_lt {arguments : List Text}
    (h : ∀ argument ∈ arguments, flagCount argument < 2147483648) :
    strongest arguments = ((arguments.map flagCount).foldl max 0 : Nat) := by
  have hcount : arguments.map verbosityOf = (arguments.map flagCount).map Nat.cast := by
    rw [List.map_map]
    refine List.map_congr_left fun argument hargument => ?_
    have hlt := h argument hargument
    exact Int.bmod_eq_of_le (by omega) (by simp only [UInt32.size]; omega)
  rw [strongest, hcount, List.foldl_map]
  exact List.foldl_hom (Nat.cast : Nat → Int) fun m n => by omega

/-- Verbosity flags say nothing else. -/
theorem words_of_isVerbosityFlag {argument : Text} (h : isVerbosityFlag argument = true) :
    namedLevel? argument = none ∧ argument.after? "--log-filter=" = none ∧
      argument.after? "--log-file=" = none ∧ namedFormat? argument = none := by
  have hread := reads_ofArgument? argument
  rw [hread.level, hread.filter, hread.file, hread.format]
  rw [hread.flag, Option.any_eq_true] at h
  obtain ⟨setting, hsetting, hverbosity⟩ := h
  rw [hsetting]
  cases setting with
  | verbosity n => exact ⟨rfl, rfl, rfl, rfl⟩
  | _ => cases hverbosity

theorem strongest_perm {arguments arguments' : List Text} (h : arguments.Perm arguments') :
    strongest arguments = strongest arguments' :=
  (h.map verbosityOf).foldl_eq 0

end Setting

namespace Config

open Setting

theorem ofArguments_eq (arguments : List Text) (logValue : Option Text) :
    ofArguments arguments logValue = byPrecedence arguments logValue := by
  have hgathered : (arguments.filterMap ofArgument?).foldl gather {} = gathered arguments :=
    rfl
  rw [ofArguments, byPrecedence, hgathered]
  dsimp only
  rw [level?_gathered, filter_gathered, file_gathered, format_gathered]
  generalize lastOf? namedLevel? arguments = named
  generalize lastOf? (Text.after? "--log-filter=") arguments = spec
  generalize logValue.getD [] = value
  generalize strongest arguments = verbosity
  cases named with
  | some level => simp
  | none =>
      by_cases hpos : 0 < verbosity
      · simp [hpos, not_le.2 hpos]
      rw [if_neg hpos, if_neg hpos, decide_eq_true (not_lt.1 hpos)]
      cases spec with
      | some spec => simp [defaultLevel]
      | none =>
          cases value with
          | nil => rfl
          | cons b value =>
              have hcontains : ((b :: value).contains Byte.equals ||
                  (b :: value).contains Byte.comma) =
                  decide (Byte.equals ∈ b :: value ∨ Byte.comma ∈ b :: value) := by simp
              rw [hcontains]
              by_cases hfilter : Byte.equals ∈ b :: value ∨ Byte.comma ∈ b :: value
              · rw [decide_eq_true hfilter]
                exact if_pos hfilter
              · rw [decide_eq_false hfilter]
                exact if_neg hfilter

theorem ofArguments_filter_isLogOption (arguments : List Text) (logValue : Option Text) :
    ofArguments (arguments.filter isLogOption) logValue = ofArguments arguments logValue := by
  have hsettings : (arguments.filter isLogOption).filterMap ofArgument? =
      arguments.filterMap ofArgument? := by
    rw [List.filterMap_filter]
    refine List.filterMap_congr fun a _ => ?_
    rw [(reads_ofArgument? a).isSome]
    cases ofArgument? a <;> rfl
  rw [ofArguments, ofArguments, hsettings]

theorem byPrecedence_perm {arguments arguments' : List Text}
    (hperm : arguments.Perm arguments')
    (hothers : arguments.filter (!isVerbosityFlag ·) = arguments'.filter (!isVerbosityFlag ·))
    (logValue : Option Text) :
    byPrecedence arguments logValue = byPrecedence arguments' logValue := by
  have hlast : ∀ {β : Type} {word : Text → Option β},
      (∀ a, isVerbosityFlag a = true → word a = none) →
      lastOf? word arguments = lastOf? word arguments' := by
    intro β word hword
    have hkeep : ∀ a, (!isVerbosityFlag a) = false → word a = none :=
      fun a ha => hword a (by simpa using ha)
    rw [← lastOf?_filter hkeep arguments, hothers, lastOf?_filter hkeep]
  rw [byPrecedence, byPrecedence, hlast fun a ha => (words_of_isVerbosityFlag ha).1,
    hlast fun a ha => (words_of_isVerbosityFlag ha).2.1,
    hlast fun a ha => (words_of_isVerbosityFlag ha).2.2.1,
    hlast fun a ha => (words_of_isVerbosityFlag ha).2.2.2, strongest_perm hperm]

/-- The configuration is the one by precedence: a level that is named goes before one that
verbosity asks for, and both go before the environment, which is not asked either if there is a
filter; of several arguments of a kind the last one counts, and of the verbosity flags the
strongest. A flag counts for what a signed integer of 32 bits keeps of the number of its `v`s,
which is the number itself for all flags of fewer than 2 ^ 31 of them. What is not recognized
as an option of the log has no part in it, and verbosity flags may be moved about among the
other arguments. -/
theorem ofArguments_by_precedence (arguments : List Text) (logValue : Option Text) :
    ofArguments arguments logValue = byPrecedence arguments logValue ∧
      ((∀ argument ∈ arguments, flagCount argument < 2147483648) →
        strongest arguments = ((arguments.map flagCount).foldl max 0 : Nat)) ∧
      (∀ argument, isLogOption argument = (ofArgument? argument).isSome) ∧
      ofArguments (arguments.filter isLogOption) logValue = ofArguments arguments logValue ∧
      ∀ arguments' : List Text, arguments.Perm arguments' →
        arguments.filter (!isVerbosityFlag ·) = arguments'.filter (!isVerbosityFlag ·) →
        ofArguments arguments logValue = ofArguments arguments' logValue := by
  refine ⟨ofArguments_eq arguments logValue, strongest_eq_of_lt,
    fun argument => (reads_ofArgument? argument).isSome,
    ofArguments_filter_isLogOption arguments logValue, fun arguments' hperm hothers => ?_⟩
  rw [ofArguments_eq, ofArguments_eq, byPrecedence_perm hperm hothers]

theorem ofArguments_by_precedence_moved_flags :
    let arguments :=
      ["-v", "--log-file=a", "--verbose", "--es6", "--log-file=b", "-vv"].map utf8
    let arguments' :=
      ["--log-file=a", "-vv", "-v", "--es6", "--verbose", "--log-file=b"].map utf8
    (∀ argument ∈ arguments, flagCount argument < 2147483648) ∧
      arguments.Perm arguments' ∧
      arguments.filter (!isVerbosityFlag ·) = arguments'.filter (!isVerbosityFlag ·) ∧
      strongest arguments = 2 ∧
      ofArguments arguments none = ofArguments arguments' none := by
  intro arguments arguments'
  have hshort : ∀ argument ∈ arguments, flagCount argument < 2147483648 := by decide
  have hperm : arguments.Perm arguments' := by decide
  have hothers : arguments.filter (!isVerbosityFlag ·) =
      arguments'.filter (!isVerbosityFlag ·) := by decide
  have hspec := ofArguments_by_precedence arguments none
  exact ⟨hshort, hperm, hothers, hspec.2.1 hshort, hspec.2.2.2.2 arguments' hperm hothers⟩

theorem isVs_replicate {n : Nat} (h : 0 < n) :
    isVs (Byte.dash :: List.replicate n 0x76) = true := by
  simp [isVs, Nat.succ_le_of_lt h]

theorem flagCount_of_isVs {argument : Text} (h : isVs argument = true) :
    flagCount argument = argument.length - 1 := by
  have hverbose : argument ≠ utf8 "--verbose" := by
    rintro rfl
    exact absurd h (by decide)
  rw [flagCount, if_neg hverbose, if_pos h]

/-- A flag whose count is cut to nothing, or to less, asks for nothing. -/
theorem level_ofArguments_of_verbosityOf_le {flag : Text} (h : isVs flag = true)
    (hcut : verbosityOf flag ≤ 0) : (ofArguments [flag] none).level = Level.warn := by
  have hflag : isVerbosityFlag flag = true := by rw [isVerbosityFlag, h, Bool.or_true]
  have hnamed : lastOf? namedLevel? [flag] = none := by
    simp [lastOf?, (words_of_isVerbosityFlag hflag).1]
  have hstrongest : ¬ 0 < strongest [flag] := by
    rw [strongest, List.map_singleton, List.foldl_cons, List.foldl_nil]
    omega
  rw [ofArguments_eq, byPrecedence, hnamed]
  simp [hstrongest]

theorem ofArguments_replicate {n : Nat} (hpos : 0 < n)
    (hcut : (n : Int).bmod UInt32.size ≤ 0) :
    let flag := Byte.dash :: List.replicate n 0x76
    flagCount flag = n ∧ (ofArguments [flag] none).level = Level.warn := by
  intro flag
  have hvs : isVs flag = true := isVs_replicate hpos
  have hcount : flagCount flag = n := by
    rw [flagCount_of_isVs hvs, List.length_cons, List.length_replicate, Nat.add_sub_cancel]
  have hverbosity : verbosityOf flag = (n : Int).bmod UInt32.size :=
    congrArg (fun count : Nat => (count : Int).bmod UInt32.size) hcount
  exact ⟨hcount, level_ofArguments_of_verbosityOf_le hvs (hverbosity ▸ hcut)⟩

/-- A flag of 2 ^ 31 `v`s should have everything told, and is ignored. -/
theorem ofArguments_of_overlong_flag :
    let flag := Byte.dash :: List.replicate 2147483648 0x76
    flagCount flag = 2147483648 ∧ (ofArguments [flag] none).level = Level.warn ∧
      verbosityLevel 2147483648 = Level.trace := by
  obtain ⟨hcount, hlevel⟩ := ofArguments_replicate (n := 2147483648) (by decide) (by decide)
  exact ⟨hcount, hlevel, by decide⟩

end Config

end LetBlocks.Log
