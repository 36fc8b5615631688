import LetBlocks.Proofs.Region.Nesting
import LetBlocks.Proofs.Region.Shapes

/-!
Templates hold code, and code holds templates. The two grammars of this module say which texts
are well-formed, by their bytes alone: neither of them knows of a scan, of a depth or of what
may come next. A brace, a quote or a backtick inside of a string, a comment or an inner
template belongs to that literal and to nothing else. Every template of the grammar, however
deeply it is nested, is read back whole in front of any text.
-/

namespace LetBlocks.Region

/-! ### The grammar -/

def codeMarks : List Byte :=
  [Byte.backtick, Byte.singleQuote, Byte.doubleQuote, Byte.slash, Byte.openCurly,
    Byte.closeCurly]

/-- A byte of code that stands for itself: a blank, a byte of a word, or punctuation other than
slashes, quotes, backticks and braces. -/
def isPlainCode (b : Byte) : Bool := !codeMarks.contains b

mutual

/-- What may stand between the backticks of a template: escapes, which take any byte with them,
bytes other than backslashes and backticks that do not open a substitution, and
substitutions. -/
inductive TemplateUnits : Text → Prop
  | nil : TemplateUnits []
  | escaped (e : Byte) {more : Text} (hmore : TemplateUnits more) :
      TemplateUnits (Byte.backslash :: e :: more)
  | plain {b : Byte} {more : Text} (hbackslash : b ≠ Byte.backslash)
      (hbacktick : b ≠ Byte.backtick)
      (hdollar : ¬ (b = Byte.dollar ∧ more.head? = some Byte.openCurly))
      (hmore : TemplateUnits more) :
      TemplateUnits (b :: more)
  | substitution {code more : Text} (hcode : TemplateCode code) (hmore : TemplateUnits more) :
      TemplateUnits (Byte.dollar :: Byte.openCurly :: (code ++ Byte.closeCurly :: more))

/-- What may stand between the braces of a substitution: bytes that stand for themselves, code
in braces, closed strings and block comments, and templates. -/
inductive TemplateCode : Text → Prop
  | nil : TemplateCode []
  | plain {b : Byte} {more : Text} (hb : isPlainCode b = true) (hmore : TemplateCode more) :
      TemplateCode (b :: more)
  | group {code more : Text} (hcode : TemplateCode code) (hmore : TemplateCode more) :
      TemplateCode (Byte.openCurly :: (code ++ Byte.closeCurly :: more))
  | string {quote : Byte} {units more : Text}
      (hquote : quote = Byte.singleQuote ∨ quote = Byte.doubleQuote)
      (hunits : StringUnits quote units) (hmore : TemplateCode more) :
      TemplateCode (quote :: (units ++ quote :: more))
  | blockComment {inside more : Text} (hinside : ClosesLast (inside ++ utf8 "*/"))
      (hmore : TemplateCode more) :
      TemplateCode (Byte.slash :: Byte.star :: (inside ++ utf8 "*/" ++ more))
  | template {units more : Text} (hunits : TemplateUnits units) (hmore : TemplateCode more) :
      TemplateCode (Byte.backtick :: (units ++ Byte.backtick :: more))

end

def IsTemplate (text : Text) : Prop :=
  ∃ units, TemplateUnits units ∧ text = Byte.backtick :: units ++ [Byte.backtick]

/-! ### Plain code -/

theorem ne_of_isPlainCode {b : Byte} (hb : isPlainCode b = true) :
    b ≠ Byte.backtick ∧ b ≠ Byte.singleQuote ∧ b ≠ Byte.doubleQuote ∧ b ≠ Byte.slash ∧
      b ≠ Byte.openCurly ∧ b ≠ Byte.closeCurly := by
  simpa [isPlainCode, codeMarks] using hb

theorem readFlat?_of_isPlainCode {b : Byte} (hb : isPlainCode b = true) (expect : Expectation)
    (pos : Nat) (rest : Text) : readFlat? expect ⟨pos, b :: rest⟩ = none := by
  obtain ⟨-, hsingle, hdouble, hslash, -⟩ := ne_of_isPlainCode hb
  exact readFlat?_eq_none_iff.2 ⟨hsingle, hdouble, fun h => absurd h hslash⟩

/-- No byte of a class that excludes the marks is one. -/
theorem isPlainCode_of_class {p : Byte → Bool} (hp : ∀ b ∈ codeMarks, p b = false) {b : Byte}
    (hb : p b = true) : isPlainCode b = true := by
  by_contra hmark
  have hmem : b ∈ codeMarks := by simpa [isPlainCode] using hmark
  rw [hp b hmem] at hb
  cases hb

/-- What is left of code behind some plain bytes at its front. A word or a number is passed as
a whole, so that reading goes on from such a place. -/
def Remains (left code : Text) : Prop :=
  ∃ run, code = run ++ left ∧ ∀ b ∈ run, isPlainCode b = true

theorem Remains.self (code : Text) : Remains code code := ⟨[], rfl, by simp⟩

theorem Remains.cons {left more : Text} {b : Byte} (h : Remains left (b :: more)) :
    left = b :: more ∨ isPlainCode b = true ∧ Remains left more := by
  obtain ⟨_ | ⟨c, run⟩, hcode, hrun⟩ := h
  · exact .inl hcode.symm
  · obtain ⟨rfl, rfl⟩ := List.cons.inj hcode
    rw [List.forall_mem_cons] at hrun
    exact .inr ⟨hrun.1, run, rfl, hrun.2⟩

/-- A mark is not passed with anything in front of it. -/
theorem Remains.mark {left more : Text} {b : Byte} (h : Remains left (b :: more))
    (hb : isPlainCode b = false) : left = b :: more := by
  rcases h.cons with heq | ⟨hplain, -⟩
  · exact heq
  · rw [hb] at hplain
    cases hplain

/-- The longest run of a class of plain bytes ends in front of a brace at the latest. -/
theorem exists_plainRun {p : Byte → Bool} (hp : ∀ b ∈ codeMarks, p b = false)
    (more rest : Text) :
    ∃ run left, more = run ++ left ∧ Remains left more ∧ (∀ x ∈ run, p x = true) ∧
      Text.Avoids p (left ++ Byte.closeCurly :: rest) := by
  obtain ⟨run, left, rfl, hrun, hleft⟩ := Text.exists_run p more
  refine ⟨run, left, rfl, ⟨run, rfl, fun x hx => isPlainCode_of_class hp (hrun x hx)⟩, hrun,
    hleft.append ?_⟩
  exact Text.avoids_cons.2 (hp _ (by decide))

/-- In front of a brace, code passes a byte together with some plain bytes behind it. -/
theorem exists_passCode (expect : Expectation) (pos : Nat) (b : Byte) (more rest : Text) :
    ∃ expect' pos' left, Remains left more ∧ pos' + left.length = pos + (b :: more).length ∧
      passCode expect ⟨pos, b :: (more ++ Byte.closeCurly :: rest)⟩ =
        (expect', ⟨pos', left ++ Byte.closeCurly :: rest⟩) := by
  have hlength : ∀ run left : Text, pos + (b :: run).length + left.length =
      pos + (b :: (run ++ left)).length := by
    intro run left
    simp only [List.length_cons, List.length_append]
    omega
  cases hword : b.isWord with
  | true =>
      rw [Byte.isWord, Bool.or_eq_true] at hword
      rcases hword with hstart | hdigit
      · have hmarks : ∀ b ∈ codeMarks, b.isWord = false := Text.forall_mem_of_all (by decide)
        obtain ⟨run, left, rfl, hleft, hrun, havoids⟩ := exists_plainRun hmarks more rest
        rw [List.append_assoc, ← List.cons_append]
        exact ⟨_, _, left, hleft, hlength run left, passCode_word hstart hrun havoids⟩
      · have hmarks : ∀ b ∈ codeMarks, b.isNumeral = false :=
          Text.forall_mem_of_all (by decide)
        obtain ⟨run, left, rfl, hleft, hrun, havoids⟩ := exists_plainRun hmarks more rest
        rw [List.append_assoc, ← List.cons_append]
        exact ⟨_, _, left, hleft, hlength run left, passCode_number hdigit hrun havoids⟩
  | false =>
      cases hblank : b.isBlank with
      | true => exact ⟨_, _, more, .self more, hlength [] more, passCode_blank hblank⟩
      | false => exact ⟨_, _, more, .self more, hlength [] more, passCode_other hblank hword⟩

/-! ### Reading what the grammar describes -/

mutual

/-- A template is read up to the backtick behind its units. -/
theorem TemplateUnits.reading {units : Text} (h : TemplateUnits units) (pos stop : Nat)
    (rest : Text) (hstop : stop = pos + units.length + 1) :
    TemplateReading .chars ⟨pos, units ++ Byte.backtick :: rest⟩ ⟨⟨stop, rest⟩, true⟩ := by
  match h with
  | .nil =>
      subst hstop
      exact .backtick
  | .escaped e hmore =>
      refine .escape (hmore.reading (pos + 2) stop rest ?_)
      simp only [hstop, List.length_cons]
      omega
  | @TemplateUnits.plain b more hbackslash hbacktick hdollar hmore =>
      refine .char hbackslash hbacktick ?_ (hmore.reading (pos + 1) stop rest ?_)
      · cases more with
        | nil => exact fun h => absurd (Option.some.inj h.2) (by decide)
        | cons c more => exact hdollar
      · simp only [hstop, List.length_cons]
        omega
  | @TemplateUnits.substitution code more hcode hmore =>
      rw [List.cons_append, List.cons_append, List.append_assoc, List.cons_append]
      refine .substitution (hcode.reading (.self code) (pos + 2) _ _ rfl {} fun _ =>
        .close rfl) rfl
        (hmore.reading _ stop rest ?_)
      simp only [hstop, List.length_cons, List.length_append]
      omega

/-- Code is read up to the brace behind it, from its first byte on or from behind a word that
it begins with. -/
theorem TemplateCode.reading {code left : Text} (h : TemplateCode code)
    (hleft : Remains left code) (pos stop : Nat) (rest : Text)
    (hstop : stop = pos + left.length) (inside : Substitution) {e : Ending}
    (hclose : ∀ expect, TemplateReading (.code { inside with expect })
      ⟨stop, Byte.closeCurly :: rest⟩ e) :
    TemplateReading (.code inside) ⟨pos, left ++ Byte.closeCurly :: rest⟩ e := by
  match h with
  | .nil =>
      obtain ⟨run, hcode, -⟩ := hleft
      obtain ⟨-, rfl⟩ := List.append_eq_nil_iff.1 hcode.symm
      subst hstop
      exact hclose inside.expect
  | @TemplateCode.plain b more hb hmore =>
      rcases hleft.cons with rfl | ⟨-, hleft⟩
      · obtain ⟨expect, pos', left, hleft, hlength, hpass⟩ :=
          exists_passCode inside.expect pos b more rest
        obtain ⟨hbacktick, -, -, -, hopen, hclosing⟩ := ne_of_isPlainCode hb
        rw [List.cons_append]
        refine .code hbacktick hclosing (readFlat?_of_isPlainCode hb _ _ _) ?_
        rw [hpass, if_neg hopen]
        exact hmore.reading hleft pos' stop rest (hstop.trans hlength.symm)
          { inside with expect } hclose
      · exact hmore.reading hleft pos stop rest hstop inside hclose
  | @TemplateCode.group code more hcode hmore =>
      obtain rfl := hleft.mark rfl
      rw [List.cons_append, List.append_assoc, List.cons_append]
      refine .code (by decide) (by decide) rfl ?_
      rw [passCode_other rfl rfl]
      refine hcode.reading (.self code) (pos + 1) _ _ rfl _ fun _ => .brace rfl ?_
      refine hmore.reading (.self more) _ stop rest ?_ _ hclose
      simp only [hstop, List.length_cons, List.length_append]
      omega
  | @TemplateCode.string quote units more hquote hunits hmore =>
      obtain rfl := hleft.mark (by rcases hquote with rfl | rfl <;> rfl)
      rw [List.cons_append, List.append_assoc, List.cons_append]
      refine .literal (by rcases hquote with rfl | rfl <;> decide) (if_pos hquote) ?_
      rw [hunits.readString_eq hquote]
      refine hmore.reading (.self more) _ stop rest ?_ _ hclose
      simp only [hstop, List.length_cons, List.length_append]
      omega
  | @TemplateCode.blockComment commented more hcommented hmore =>
      obtain rfl := hleft.mark rfl
      have hread := hcommented.readBlockComment_eq (pos + 2) (more ++ Byte.closeCurly :: rest)
      rw [List.cons_append, List.cons_append, List.append_assoc]
      refine .literal (by decide)
        (congrArg (fun ending => some (Kind.blockComment, ending)) hread) ?_
      refine hmore.reading (.self more) _ stop rest ?_ _ hclose
      have htwo : (utf8 "*/").length = 2 := rfl
      simp only [hstop, List.length_cons, List.length_append, htwo]
      omega
  | @TemplateCode.template units more hunits hmore =>
      obtain rfl := hleft.mark rfl
      rw [List.cons_append, List.append_assoc, List.cons_append]
      refine .template (hunits.reading (pos + 1) _ _ rfl) ?_
      refine hmore.reading (.self more) _ stop rest ?_ _ hclose
      simp only [hstop, List.length_cons, List.length_append]
      omega

end

/-- A well-formed template, however deeply it is nested, is the first region of any text that
it stands at the front of, and is found closed. -/
theorem scan_template (template suffix : Text) (h : IsTemplate template) :
    (scan (template ++ suffix)).head? =
      some { kind := .template, start := 0, stop := template.length, closed := true } := by
  obtain ⟨units, hunits, rfl⟩ := h
  have hread := (hunits.reading 1 (units.length + 2) suffix (by omega)).readTemplate_eq []
  have hliteral : readLiteral? .operand
      ⟨0, Byte.backtick :: (units ++ Byte.backtick :: suffix)⟩ =
      some (.template, ⟨⟨units.length + 2, suffix⟩, true⟩) :=
    congrArg (fun ending => some (Kind.template, ending)) hread
  have htext : Byte.backtick :: units ++ [Byte.backtick] ++ suffix =
      Byte.backtick :: (units ++ Byte.backtick :: suffix) := by simp
  have hbang : ¬ (utf8 "#!").isPrefixOf (Byte.backtick :: (units ++ Byte.backtick :: suffix)) =
      true :=
    Bool.false_ne_true
  rw [htext, scan, if_neg hbang, scanFrom_literal hliteral, toList_scanFrom]
  simp [pushCode]

/-- A brace and a backtick in a string, an inner template with a substitution and an escaped
backtick of its own, and a brace in a comment. -/
theorem scan_template_nested :
    let template := utf8 "`a$\x7b\x7bb: '\x7d`'\x7d\x7d$\x7b`c$\x7bd\x7d\\``/*\x7d*/\x7d`"
    IsTemplate template ∧
      (scan (template ++ utf8 "\x7d'`")).head? =
        some { kind := .template, start := 0, stop := template.length, closed := true } := by
  intro template
  have hstring : StringUnits Byte.singleQuote (utf8 "\x7d`") :=
    .plain (by decide) (by decide) rfl (.plain (by decide) (by decide) rfl .nil)
  have hfirst : TemplateCode (utf8 "\x7bb: '\x7d`'\x7d") :=
    .group (.plain rfl (.plain rfl (.plain rfl (.string (.inl rfl) hstring .nil)))) .nil
  have hinner : TemplateUnits (utf8 "c$\x7bd\x7d\\`") :=
    .plain (by decide) (by decide) (by decide)
      (.substitution (.plain rfl .nil) (.escaped _ .nil))
  have hcomment : ClosesLast (utf8 "\x7d" ++ utf8 "*/") :=
    closesLast_mark.cons fun h => absurd h (by decide)
  have hsecond : TemplateCode (utf8 "`c$\x7bd\x7d\\``/*\x7d*/") :=
    .template hinner (.blockComment hcomment .nil)
  have htemplate : IsTemplate template :=
    ⟨_, .plain (by decide) (by decide) (by decide)
      (.substitution hfirst (.substitution hsecond .nil)), rfl⟩
  exact ⟨htemplate, scan_template template _ htemplate⟩

end LetBlocks.Region
