import LetBlocks.Proofs.Text.Bytes
import LetBlocks.Region.Scan

/-!
A reader takes a prefix of the text it is given. What it takes depends on the bytes it takes
and on the one after them, and for a literal that it found closed mostly not even on that one.
So a literal that was read in one place is read the same way in any other place, whatever
follows it there. This module says so for each reader, by following its recursion; a template
needs it for all readers of the code inside its substitutions.
-/

namespace LetBlocks.Region

theorem skipWhile_append {p : Byte → Bool} {run rest : Text} (pos : Nat)
    (hrun : ∀ b ∈ run, p b = true) (hrest : Text.Avoids p rest) :
    Cursor.skipWhile p ⟨pos, run ++ rest⟩ = ⟨pos + run.length, rest⟩ := by
  rw [Cursor.skipWhile, Text.takeWhile_append_stop hrun hrest,
    Text.dropWhile_append_stop hrun hrest]

/-! ### Readers and what may follow -/

/-- May `rest'` take the place of the text `rest` that follows a literal? It may if it begins
alike, and if the literal is closed it only has to be `free`. -/
def Fits (free : Text → Prop) (rest : Text) (closed : Bool) (rest' : Text) : Prop :=
  rest'.head? = rest.head? ∨ (closed = true ∧ free rest')

/-- A reader takes exactly `used` wherever a text follows that fits. -/
def Takes (read : Nat → Text → Ending) (free : Text → Prop) (used rest : Text)
    (closed : Bool) : Prop :=
  ∀ pos rest', Fits free rest closed rest' →
    read pos (used ++ rest') = ⟨⟨pos + used.length, rest'⟩, closed⟩

namespace Takes

variable {read read' : Nat → Text → Ending} {free : Text → Prop} {used rest : Text}
    {closed : Bool}

/-- A reader that passes `start` and then goes on as another one. -/
theorem prepend {start : Text} (h : Takes read' free used rest closed)
    (hstart : ∀ pos rest', Fits free rest closed rest' →
      read pos (start ++ (used ++ rest')) = read' (pos + start.length) (used ++ rest')) :
    Takes read free (start ++ used) rest closed := by
  intro pos rest' hfits
  rw [List.append_assoc, hstart pos rest' hfits, h _ rest' hfits, List.length_append,
    Nat.add_assoc]

/-- What a reader meets first does not change with what follows the literal: no closed literal
is empty. -/
theorem head?_append (h : Takes read free used rest closed) (hnil : (read 0 []).closed = false)
    (hfree : free []) {rest' : Text} (hfits : Fits free rest closed rest') :
    (used ++ rest').head? = (used ++ rest).head? := by
  cases used with
  | cons b used => rfl
  | nil =>
      rcases hfits with hhead | ⟨hclosed, -⟩
      · exact hhead
      · have hread := h 0 [] (.inr ⟨hclosed, hfree⟩)
        rw [List.append_nil] at hread
        rw [hread, hclosed] at hnil
        cases hnil

end Takes

/-- Whatever a reader does at a text, it does wherever the bytes that it takes come again and
what follows fits. -/
def Settles (read : Nat → Text → Ending) (free : Text → Prop) (text : Text) (ending : Ending) :
    Prop :=
  ∃ used, text = used ++ ending.rest ∧ Takes read free used ending.rest ending.closed

namespace Settles

variable {read read' : Nat → Text → Ending} {free : Text → Prop} {text : Text}
    {ending : Ending}

/-- A reader that passes `start` and then goes on as another one, as long as the byte after
`start` is the same. -/
theorem prepend (start : Text) (h : Settles read' free text ending)
    (hnil : (read' 0 []).closed = false) (hfree : free [])
    (hstart : ∀ pos text', text'.head? = text.head? →
      read pos (start ++ text') = read' (pos + start.length) text') :
    Settles read free (start ++ text) ending := by
  obtain ⟨used, hused, htakes⟩ := h
  refine ⟨start ++ used, by rw [List.append_assoc, ← hused], htakes.prepend ?_⟩
  intro pos rest' hfits
  apply hstart
  rw [htakes.head?_append hnil hfree hfits, ← hused]

/-- A reader that gives up in front of `rest`. -/
theorem of_open (start : Text) {pos : Nat} {rest : Text}
    (hrest : ending = ⟨⟨pos, rest⟩, false⟩)
    (hread : ∀ pos rest', rest'.head? = rest.head? →
      read pos (start ++ rest') = ⟨⟨pos + start.length, rest'⟩, false⟩) :
    Settles read free (start ++ rest) ending := by
  subst hrest
  refine ⟨start, rfl, ?_⟩
  intro pos rest' hfits
  rcases hfits with hhead | ⟨hclosed, -⟩
  · exact hread pos rest' hhead
  · cases hclosed

/-- A reader that finds the closing mark at the end of `start`. -/
theorem of_closed (start : Text) {pos : Nat} {rest : Text}
    (hrest : ending = ⟨⟨pos, rest⟩, true⟩)
    (hfree : ∀ rest', rest'.head? = rest.head? → free rest')
    (hread : ∀ pos rest', free rest' →
      read pos (start ++ rest') = ⟨⟨pos + start.length, rest'⟩, true⟩) :
    Settles read free (start ++ rest) ending := by
  subst hrest
  refine ⟨start, rfl, ?_⟩
  intro pos rest' hfits
  rcases hfits with hhead | ⟨-, hfree'⟩
  · exact hread pos rest' (hfree rest' hhead)
  · exact hread pos rest' hfree'

end Settles

def anything : Text → Prop := fun _ => True

theorem settles_readString (quote : Byte) (pos : Nat) (text : Text) :
    Settles (readString quote) anything text (readString quote pos text) := by
  fun_induction readString quote pos text with
  | case1 pos =>
      refine .of_open [] rfl ?_
      intro pos rest' hrest'
      simp_all [readString]
  | case2 pos =>
      refine .of_open [Byte.backslash] rfl ?_
      intro pos rest' hrest'
      simp_all [readString]
  | case3 pos e =>
      refine .of_open [Byte.backslash, e] rfl ?_
      intro pos rest' hrest'
      simp_all [readString]
  | case4 pos e f more hef ih =>
      refine ih.prepend [Byte.backslash, e, f] rfl trivial ?_
      intro pos text' _
      simp [readString, hef]
  | case5 pos e f more hef ih =>
      refine ih.prepend [Byte.backslash, e] rfl trivial ?_
      intro pos text' hhead
      obtain ⟨more', rfl⟩ := List.head?_eq_some_iff.1 hhead
      simp [readString, hef]
  | case6 pos rest hquote =>
      refine .of_closed [quote] rfl (fun _ _ => trivial) ?_
      intro pos rest' _
      rw [List.singleton_append, readString.eq_def]
      simp [hquote]
  | case7 pos b rest hbackslash hquote hbreak =>
      refine .of_open [] rfl ?_
      intro pos rest' hhead
      obtain ⟨more', rfl⟩ := List.head?_eq_some_iff.1 hhead
      rw [List.nil_append, readString.eq_def]
      simp [hbackslash, hquote, hbreak]
  | case8 pos b rest hbackslash hquote hbreak ih =>
      refine ih.prepend [b] rfl trivial ?_
      intro pos text' _
      rw [List.singleton_append, readString.eq_def]
      simp [hbackslash, hquote, hbreak]

def endsFlags : Text → Prop := Text.Avoids Byte.isWord

theorem settles_readRegex (inClass : Bool) (pos : Nat) (text : Text) :
    Settles (readRegex inClass) endsFlags text (readRegex inClass pos text) := by
  fun_induction readRegex inClass pos text with
  | case1 inClass pos =>
      refine .of_open [] rfl ?_
      intro pos rest' hrest'
      simp_all [readRegex]
  | case2 inClass pos b rest hbreak =>
      refine .of_open [] rfl ?_
      intro pos rest' hhead
      obtain ⟨more', rfl⟩ := List.head?_eq_some_iff.1 hhead
      rw [List.nil_append, readRegex.eq_def]
      simp [hbreak]
  | case3 inClass pos hbreak =>
      refine .of_open [Byte.backslash] rfl ?_
      intro pos rest' hhead
      simp_all [readRegex]
  | case4 inClass pos e more hbreak hbackslash =>
      refine .of_open [Byte.backslash] rfl ?_
      intro pos rest' hhead
      obtain ⟨more', rfl⟩ := List.head?_eq_some_iff.1 hhead
      simp [readRegex, hbreak, hbackslash]
  | case5 inClass pos e more hbreak hbackslash ih =>
      refine ih.prepend [Byte.backslash, e] rfl rfl ?_
      intro pos text' _
      simp [readRegex, hbreak, hbackslash]
  | case6 inClass pos rest hbreak hbackslash ih =>
      refine ih.prepend [Byte.openSquare] rfl rfl ?_
      intro pos text' _
      rw [List.singleton_append, readRegex.eq_def]
      simp [hbreak, hbackslash]
  | case7 inClass pos rest hbreak hbackslash hopen ih =>
      refine ih.prepend [Byte.closeSquare] rfl rfl ?_
      intro pos text' _
      rw [List.singleton_append, readRegex.eq_def]
      simp [hbreak, hbackslash, hopen]
  | case8 inClass pos b rest hbreak hbackslash hopen hclose hslash =>
      have hsplit : b :: rest =
          (b :: rest.takeWhile Byte.isWord) ++ rest.dropWhile Byte.isWord := by simp
      rw [hsplit]
      refine .of_closed _ rfl ?_ ?_
      · intro rest' hhead
        exact (Text.avoids_dropWhile Byte.isWord rest).of_head? hhead
      · intro pos rest' hrest'
        have hflags : ∀ x ∈ rest.takeWhile Byte.isWord, x.isWord = true :=
          fun x hx => List.mem_takeWhile_imp hx
        rw [List.cons_append, readRegex.eq_def]
        dsimp only
        rw [if_neg hbreak, if_neg hbackslash, if_neg hopen, if_neg hclose, if_pos hslash,
          skipWhile_append _ hflags hrest', List.length_cons, Nat.add_assoc, Nat.add_comm 1]
  | case9 inClass pos b rest hbreak hbackslash hopen hclose hslash ih =>
      refine ih.prepend [b] rfl rfl ?_
      intro pos text' _
      rw [List.singleton_append, readRegex.eq_def]
      simp [hbreak, hbackslash, hopen, hclose, hslash]

theorem settles_readBlockComment (pos : Nat) (text : Text) :
    Settles readBlockComment anything text (readBlockComment pos text) := by
  fun_induction readBlockComment pos text with
  | case1 pos =>
      refine .of_open [] rfl ?_
      intro pos rest' hrest'
      simp_all [readBlockComment]
  | case2 pos b rest hclose =>
      obtain ⟨hstar, hslash⟩ := hclose
      obtain ⟨more, rfl⟩ := List.head?_eq_some_iff.1 hslash
      refine .of_closed [b, Byte.slash] rfl (fun _ _ => trivial) ?_
      intro pos rest' _
      simp [readBlockComment, hstar]
  | case3 pos b rest hclose ih =>
      refine ih.prepend [b] rfl trivial ?_
      intro pos text' hhead
      rw [List.singleton_append, readBlockComment, hhead, if_neg hclose, List.length_singleton]

def endsLine : Text → Prop := Text.Avoids fun b => !b.isLineBreak

theorem settles_readLineComment (pos : Nat) (text : Text) :
    Settles readLineComment endsLine text (readLineComment pos text) := by
  have hsplit : text = text.takeWhile (fun b => !b.isLineBreak) ++
      text.dropWhile (fun b => !b.isLineBreak) := by simp
  rw [hsplit]
  refine .of_closed _ (by rw [← hsplit]; rfl) ?_ ?_
  · intro rest' hhead
    exact (Text.avoids_dropWhile _ text).of_head? hhead
  · intro pos rest' hrest'
    rw [readLineComment, skipWhile_append pos (fun b hb => List.mem_takeWhile_imp hb) hrest']

/-! ### Code -/

def Kind.free : Kind → Text → Prop
  | .regex => endsFlags
  | .lineComment => endsLine
  | _ => anything

theorem Kind.free_nil (kind : Kind) : kind.free [] := by
  cases kind <;> trivial

/-- No literal opens at a byte that is not a quote, or is a slash that divides. -/
theorem readFlat?_eq_none_iff {expect : Expectation} {pos : Nat} {b : Byte} {rest : Text} :
    readFlat? expect ⟨pos, b :: rest⟩ = none ↔
      b ≠ Byte.singleQuote ∧ b ≠ Byte.doubleQuote ∧
        (b = Byte.slash → rest.head? ≠ some Byte.slash ∧ rest.head? ≠ some Byte.star ∧
          expect ≠ .operand) := by
  unfold readFlat?
  dsimp only
  split_ifs with hquote
  · simp only [false_iff]
    tauto
  all_goals simp_all

/-- A literal outside templates is read the same wherever its bytes come again and what follows
fits. -/
theorem readFlat?_settles {expect : Expectation} {pos : Nat} {text : Text} {kind : Kind}
    {ending : Ending} (h : readFlat? expect ⟨pos, text⟩ = some (kind, ending)) :
    ∃ used, used ≠ [] ∧ text = used ++ ending.rest ∧
      ∀ pos' rest', Fits kind.free ending.rest ending.closed rest' →
        readFlat? expect ⟨pos', used ++ rest'⟩ =
          some (kind, ⟨⟨pos' + used.length, rest'⟩, ending.closed⟩) := by
  cases text with
  | nil => simp [readFlat?] at h
  | cons b rest =>
      unfold readFlat? at h
      dsimp only at h
      split_ifs at h with hquote hslash hline hblock hregex
      · cases h
        obtain ⟨used, hused, htakes⟩ := settles_readString b (pos + 1) rest
        refine ⟨b :: used, by simp, by rw [List.cons_append, ← hused], ?_⟩
        intro pos' rest' hfits
        simp only [readFlat?, List.cons_append, if_pos hquote, htakes _ rest' hfits]
        simp [Nat.add_assoc, Nat.add_comm 1]
      · cases h
        obtain ⟨more, rfl⟩ := List.head?_eq_some_iff.1 hline
        obtain ⟨used, hused, htakes⟩ := settles_readLineComment (pos + 2) more
        refine ⟨b :: Byte.slash :: used, by simp, by simp [← hused], ?_⟩
        intro pos' rest' hfits
        simp only [readFlat?, List.cons_append, if_neg hquote, if_pos hslash, List.head?_cons,
          if_true, List.tail_cons, htakes _ rest' hfits]
        simp [Nat.add_assoc, Nat.add_comm 2]
      · cases h
        obtain ⟨more, rfl⟩ := List.head?_eq_some_iff.1 hblock
        obtain ⟨used, hused, htakes⟩ := settles_readBlockComment (pos + 2) more
        refine ⟨b :: Byte.star :: used, by simp, by simp [← hused], ?_⟩
        intro pos' rest' hfits
        simp only [readFlat?, List.cons_append, if_neg hquote, if_pos hslash, List.head?_cons,
          List.tail_cons, htakes _ rest' hfits]
        simp [show Byte.star ≠ Byte.slash by decide, Nat.add_assoc, Nat.add_comm 2]
      · cases h
        obtain ⟨used, hused, htakes⟩ := settles_readRegex false (pos + 1) rest
        refine ⟨b :: used, by simp, by rw [List.cons_append, ← hused], ?_⟩
        intro pos' rest' hfits
        have hhead := htakes.head?_append rfl rfl hfits
        rw [← hused] at hhead
        simp only [readFlat?, List.cons_append, if_neg hquote, if_pos hslash, hhead,
          if_neg hline, if_neg hblock, if_pos hregex, htakes _ rest' hfits]
        simp [Nat.add_assoc, Nat.add_comm 1]

/-! ### Passing code, by its first byte -/

theorem passCode_blank {expect : Expectation} {pos : Nat} {b : Byte} {rest : Text}
    (hb : b.isBlank = true) :
    passCode expect ⟨pos, b :: rest⟩ = (expect, ⟨pos + 1, rest⟩) := by
  simp [passCode, hb, Cursor.step]

theorem passCode_number {expect : Expectation} {pos : Nat} {b : Byte} {more rest : Text}
    (hb : b.isDigit = true) (hmore : ∀ x ∈ more, x.isNumeral = true)
    (hrest : Text.Avoids Byte.isNumeral rest) :
    passCode expect ⟨pos, (b :: more) ++ rest⟩ =
      (.operator, ⟨pos + (b :: more).length, rest⟩) := by
  have hall : ∀ x ∈ b :: more, x.isNumeral = true := by
    rw [List.forall_mem_cons]
    exact ⟨Byte.isNumeral_of_isDigit hb, hmore⟩
  rw [← skipWhile_append pos hall hrest]
  simp only [passCode, List.cons_append, hb,
    Byte.isBlank_of_isWord (Byte.isWord_of_isDigit hb), if_true, Bool.false_eq_true, if_false]
  rfl

theorem passCode_word {expect : Expectation} {pos : Nat} {b : Byte} {more rest : Text}
    (hb : b.isWordStart = true) (hmore : ∀ x ∈ more, x.isWord = true)
    (hrest : Text.Avoids Byte.isWord rest) :
    passCode expect ⟨pos, (b :: more) ++ rest⟩ =
      (if b :: more ∈ operandKeywords then .operand else .operator,
        ⟨pos + (b :: more).length, rest⟩) := by
  have hword := Byte.isWord_of_isWordStart hb
  have hall : ∀ x ∈ b :: more, x.isWord = true := by
    rw [List.forall_mem_cons]
    exact ⟨hword, hmore⟩
  have htake := Text.takeWhile_append_stop hall hrest
  rw [← skipWhile_append pos hall hrest]
  rw [List.cons_append] at htake ⊢
  simp only [passCode, htake, Byte.isBlank_of_isWord hword, Byte.isDigit_of_isWordStart hb,
    hword, if_true, Bool.false_eq_true, if_false]

theorem passCode_other {expect : Expectation} {pos : Nat} {b : Byte} {rest : Text}
    (hblank : b.isBlank = false) (hword : b.isWord = false) :
    passCode expect ⟨pos, b :: rest⟩ =
      (if b = Byte.closeParen ∨ b = Byte.closeSquare then .operator else .operand,
        ⟨pos + 1, rest⟩) := by
  have hdigit : b.isDigit = false := by
    rw [Byte.isWord, Bool.or_eq_false_iff] at hword
    exact hword.2
  simp [passCode, hblank, hdigit, hword, Cursor.step]

/-- Passing code depends on nothing beyond the first byte after what is passed. -/
theorem passCode_settles (expect : Expectation) (pos : Nat) (b : Byte) (rest : Text) :
    ∃ used, used ≠ [] ∧ b :: rest = used ++ (passCode expect ⟨pos, b :: rest⟩).2.rest ∧
      ∀ pos' rest', rest'.head? = (passCode expect ⟨pos, b :: rest⟩).2.rest.head? →
        passCode expect ⟨pos', used ++ rest'⟩ =
          ((passCode expect ⟨pos, b :: rest⟩).1, ⟨pos' + used.length, rest'⟩) := by
  cases hblank : b.isBlank with
  | true =>
      rw [passCode_blank hblank]
      exact ⟨[b], by simp, rfl, fun _ _ _ => passCode_blank hblank⟩
  | false =>
      cases hword : b.isWord with
      | false =>
          rw [passCode_other hblank hword]
          exact ⟨[b], by simp, rfl, fun _ _ _ => passCode_other hblank hword⟩
      | true =>
          rw [Byte.isWord, Bool.or_eq_true] at hword
          rcases hword with hstart | hdigit
          · obtain ⟨more, rest, rfl, hmore, hrest⟩ := Text.exists_run Byte.isWord rest
            rw [← List.cons_append, passCode_word hstart hmore hrest]
            exact ⟨b :: more, by simp, rfl,
              fun _ _ hhead => passCode_word hstart hmore (hrest.of_head? hhead)⟩
          · obtain ⟨more, rest, rfl, hmore, hrest⟩ := Text.exists_run Byte.isNumeral rest
            rw [← List.cons_append, passCode_number hdigit hmore hrest]
            exact ⟨b :: more, by simp, rfl,
              fun _ _ hhead => passCode_number hdigit hmore (hrest.of_head? hhead)⟩

/-! ### Templates -/

section Template

variable {inside : Substitution} {around : List Substitution} {pos : Nat} {b : Byte}
    {rest : Text}

theorem readTemplate_nil (part : TemplatePart) :
    readTemplate part around ⟨pos, []⟩ = ⟨⟨pos, []⟩, false⟩ := by
  rw [readTemplate]

theorem readTemplate_chars : readTemplate .chars around ⟨pos, b :: rest⟩ =
    if b = Byte.backslash then readTemplate .chars around (Cursor.step ⟨pos + 1, rest⟩)
    else if b = Byte.backtick then
      match around with
      | [] => ⟨⟨pos + 1, rest⟩, true⟩
      | inside :: around =>
          readTemplate (.code { inside with expect := .operator }) around ⟨pos + 1, rest⟩
    else if b = Byte.dollar ∧ rest.head? = some Byte.openCurly then
      readTemplate (.code {}) around (Cursor.step ⟨pos + 1, rest⟩)
    else readTemplate .chars around ⟨pos + 1, rest⟩ := by
  refine (readTemplate.eq_def _ _ _).trans ?_
  cases around <;> rfl

/-- A literal inside a substitution. -/
theorem readTemplate_literal (hb : b ≠ Byte.backtick) {kind : Kind} {ending : Ending}
    (h : readFlat? inside.expect ⟨pos, b :: rest⟩ = some (kind, ending)) :
    readTemplate (.code inside) around ⟨pos, b :: rest⟩ =
      readTemplate (.code { inside with expect := inside.expect.afterLiteral kind }) around
        ending.toCursor := by
  rw [readTemplate]
  simp only [if_neg hb]
  split <;> simp_all

/-- A brace that closes a substitution or a brace inside it. -/
theorem readTemplate_brace
    (h : readFlat? inside.expect ⟨pos, Byte.closeCurly :: rest⟩ = none) :
    readTemplate (.code inside) around ⟨pos, Byte.closeCurly :: rest⟩ =
      match inside.depth with
      | 0 => readTemplate .chars around ⟨pos + 1, rest⟩
      | depth + 1 =>
          readTemplate (.code { depth, expect := .operand }) around ⟨pos + 1, rest⟩ := by
  rw [readTemplate]
  simp only [if_neg (show Byte.closeCurly ≠ Byte.backtick by decide)]
  split
  · simp_all
  · exact if_pos trivial

/-- Any other piece of code inside a substitution. -/
theorem readTemplate_code (hb : b ≠ Byte.backtick) (hbrace : b ≠ Byte.closeCurly)
    (h : readFlat? inside.expect ⟨pos, b :: rest⟩ = none) :
    readTemplate (.code inside) around ⟨pos, b :: rest⟩ =
      readTemplate
        (.code
          { depth := if b = Byte.openCurly then inside.depth + 1 else inside.depth
            expect := (passCode inside.expect ⟨pos, b :: rest⟩).1 })
        around (passCode inside.expect ⟨pos, b :: rest⟩).2 := by
  rw [readTemplate]
  simp only [if_neg hb]
  split
  · simp_all
  · rw [if_neg hbrace]

end Template

def templateReader (part : TemplatePart) (around : List Substitution) (pos : Nat)
    (text : Text) : Ending :=
  readTemplate part around ⟨pos, text⟩

theorem closed_templateReader_nil (part : TemplatePart) (around : List Substitution) :
    (templateReader part around 0 []).closed = false := by
  rw [templateReader, readTemplate_nil]

theorem settles_readTemplate (part : TemplatePart) (around : List Substitution) (c : Cursor) :
    Settles (templateReader part around) anything c.rest (readTemplate part around c) := by
  fun_induction readTemplate part around c with
  | case1 part around pos =>
      refine .of_open [] rfl ?_
      intro pos rest' hhead
      obtain rfl : rest' = [] := by simpa using hhead
      exact readTemplate_nil part
  | case2 around pos rest ih =>
      cases rest with
      | nil =>
          refine ih.prepend [Byte.backslash] (closed_templateReader_nil _ _) trivial ?_
          intro pos text' hhead
          obtain rfl : text' = [] := by simpa [Cursor.step] using hhead
          rw [templateReader, List.append_nil, readTemplate_chars, if_pos rfl]
          rfl
      | cons e more =>
          refine ih.prepend [Byte.backslash, e] (closed_templateReader_nil _ _) trivial ?_
          intro pos text' _
          rw [templateReader, List.cons_append, readTemplate_chars, if_pos rfl]
          rfl
  | case3 pos rest hb =>
      refine .of_closed [Byte.backtick] rfl (fun _ _ => trivial) ?_
      intro pos rest' _
      rw [templateReader, List.singleton_append, readTemplate_chars, if_neg hb, if_pos rfl]
      rfl
  | case4 pos rest inside around hb ih =>
      refine ih.prepend [Byte.backtick] (closed_templateReader_nil _ _) trivial ?_
      intro pos text' _
      rw [templateReader, List.singleton_append, readTemplate_chars, if_neg hb, if_pos rfl]
      rfl
  | case5 around pos b rest hbackslash hbacktick hdollar ih =>
      obtain ⟨more, rfl⟩ := List.head?_eq_some_iff.1 hdollar.2
      refine ih.prepend [b, Byte.openCurly] (closed_templateReader_nil _ _) trivial ?_
      intro pos text' _
      rw [templateReader, List.cons_append, readTemplate_chars, if_neg hbackslash,
        if_neg hbacktick, if_pos ⟨hdollar.1, rfl⟩]
      rfl
  | case6 around pos b rest hbackslash hbacktick hdollar ih =>
      refine ih.prepend [b] (closed_templateReader_nil _ _) trivial ?_
      intro pos text' hhead
      rw [templateReader, List.singleton_append, readTemplate_chars, if_neg hbackslash,
        if_neg hbacktick, hhead, if_neg hdollar]
      rfl
  | case7 around pos rest inside ih =>
      refine ih.prepend [Byte.backtick] (closed_templateReader_nil _ _) trivial ?_
      intro pos text' _
      rw [templateReader, List.singleton_append, readTemplate, if_pos rfl]
      rfl
  | case8 around pos b rest inside hbacktick kind ending hflat ih =>
      obtain ⟨used, hne, hused, hsettles⟩ := readFlat?_settles hflat
      obtain ⟨u, used, rfl⟩ := List.exists_cons_of_ne_nil hne
      obtain ⟨rfl, -⟩ := List.cons.inj hused
      rw [show (⟨pos, b :: rest⟩ : Cursor).rest = (b :: used) ++ ending.rest from hused]
      refine ih.prepend _ (closed_templateReader_nil _ _) trivial ?_
      intro pos text' hhead
      exact readTemplate_literal hbacktick (hsettles pos text' (.inl hhead))
  | case9 around pos rest inside hdepth hbacktick hflat ih =>
      refine ih.prepend [Byte.closeCurly] (closed_templateReader_nil _ _) trivial ?_
      intro pos text' _
      rw [templateReader, List.singleton_append, readTemplate_brace (by rfl), hdepth]
      rfl
  | case10 around pos rest inside depth hdepth hbacktick hflat ih =>
      refine ih.prepend [Byte.closeCurly] (closed_templateReader_nil _ _) trivial ?_
      intro pos text' _
      rw [templateReader, List.singleton_append, readTemplate_brace (by rfl), hdepth]
      rfl
  | case11 around pos b rest inside hbacktick hflat hbrace depth passed ih =>
      obtain ⟨used, hne, hused, hsettles⟩ := passCode_settles inside.expect pos b rest
      obtain ⟨u, used, rfl⟩ := List.exists_cons_of_ne_nil hne
      obtain ⟨rfl, -⟩ := List.cons.inj hused
      have hrest : rest = used ++ passed.2.rest := List.cons.inj hused |>.2
      rw [show (⟨pos, b :: rest⟩ : Cursor).rest = (b :: used) ++ passed.2.rest from hused]
      refine ih.prepend _ (closed_templateReader_nil _ _) trivial ?_
      intro pos' text' hhead
      -- whether a slash opens a literal is seen at the byte after it, which is the same
      have hflat' : readFlat? inside.expect ⟨pos', b :: (used ++ text')⟩ = none := by
        rw [readFlat?_eq_none_iff] at hflat ⊢
        rwa [show (used ++ text').head? = rest.head? by
          rw [hrest, List.head?_append, List.head?_append, hhead]]
      have hpass := hsettles pos' text' hhead
      rw [List.cons_append] at hpass
      rw [templateReader, List.cons_append, readTemplate_code hbacktick hbrace hflat', hpass]
      rfl

/-- A literal is read the same wherever its bytes come again and what follows fits. -/
theorem readLiteral?_settles {expect : Expectation} {pos : Nat} {text : Text} {kind : Kind}
    {ending : Ending} (h : readLiteral? expect ⟨pos, text⟩ = some (kind, ending)) :
    ∃ used, used ≠ [] ∧ text = used ++ ending.rest ∧
      ∀ pos' rest', Fits kind.free ending.rest ending.closed rest' →
        readLiteral? expect ⟨pos', used ++ rest'⟩ =
          some (kind, ⟨⟨pos' + used.length, rest'⟩, ending.closed⟩) := by
  unfold readLiteral? at h
  split_ifs at h with hb
  · obtain ⟨rest, rfl⟩ := List.head?_eq_some_iff.1 hb
    cases h
    obtain ⟨used, hused, htakes⟩ := settles_readTemplate .chars [] ⟨pos + 1, rest⟩
    refine ⟨Byte.backtick :: used, by simp, congrArg (List.cons Byte.backtick) hused, ?_⟩
    intro pos' rest' hfits
    have hread : readTemplate .chars [] ⟨pos' + 1, used ++ rest'⟩ = _ :=
      htakes (pos' + 1) rest' hfits
    rw [readLiteral?, if_pos (by rfl)]
    simp only [List.cons_append, Cursor.step, hread, List.length_cons, Nat.add_assoc,
      Nat.add_comm 1]
  · obtain ⟨used, hne, hused, hsettles⟩ := readFlat?_settles h
    refine ⟨used, hne, hused, ?_⟩
    intro pos' rest' hfits
    obtain ⟨b, used, rfl⟩ := List.exists_cons_of_ne_nil hne
    rw [readLiteral?, if_neg, hsettles pos' rest' hfits]
    subst hused
    exact hb

theorem readLiteral?_eq_none_iff {expect : Expectation} {pos : Nat} {b : Byte} {rest : Text} :
    readLiteral? expect ⟨pos, b :: rest⟩ = none ↔
      b ≠ Byte.backtick ∧ b ≠ Byte.singleQuote ∧ b ≠ Byte.doubleQuote ∧
        (b = Byte.slash → rest.head? ≠ some Byte.slash ∧ rest.head? ≠ some Byte.star ∧
          expect ≠ .operand) := by
  rw [readLiteral?, ← @readFlat?_eq_none_iff expect pos b rest]
  split_ifs with hb
  · simp_all
  · simp_all

def opensLiteral (b : Byte) : Bool :=
  b == Byte.backtick || b == Byte.singleQuote || b == Byte.doubleQuote || b == Byte.slash

theorem readLiteral?_of_not_opensLiteral {b : Byte} (h : opensLiteral b = false)
    (expect : Expectation) (pos : Nat) (rest : Text) :
    readLiteral? expect ⟨pos, b :: rest⟩ = none := by
  rw [readLiteral?_eq_none_iff]
  simp_all [opensLiteral]

theorem opensLiteral_of_readLiteral? {expect : Expectation} {pos : Nat} {b : Byte}
    {rest : Text} (h : readLiteral? expect ⟨pos, b :: rest⟩ ≠ none) :
    opensLiteral b = true := by
  by_contra hb
  exact h (readLiteral?_of_not_opensLiteral (by simpa using hb) expect pos rest)

/-- No byte of a class that excludes the four opening ones begins a literal. -/
theorem opensLiteral_eq_false {b : Byte} {p : Byte → Bool} (hb : p b = true)
    (hp : p Byte.backtick = false ∧ p Byte.singleQuote = false ∧ p Byte.doubleQuote = false ∧
      p Byte.slash = false) : opensLiteral b = false := by
  obtain ⟨hbacktick, hsingle, hdouble, hslash⟩ := hp
  rw [Bool.eq_false_iff]
  intro h
  simp only [opensLiteral, Bool.or_eq_true, beq_iff_eq] at h
  rcases h with ((rfl | rfl) | rfl) | rfl <;> simp_all

/-- The literal that opens at a place, by the bytes that open it. -/
inductive Opening (expect : Expectation) : Cursor → Kind → Ending → Prop
  | template {pos : Nat} {rest : Text} :
      Opening expect ⟨pos, Byte.backtick :: rest⟩ .template
        (readTemplate .chars [] ⟨pos + 1, rest⟩)
  | string {pos : Nat} {quote : Byte} {rest : Text}
      (hquote : quote = Byte.singleQuote ∨ quote = Byte.doubleQuote) :
      Opening expect ⟨pos, quote :: rest⟩ .string (readString quote (pos + 1) rest)
  | lineComment {pos : Nat} {rest : Text} :
      Opening expect ⟨pos, Byte.slash :: Byte.slash :: rest⟩ .lineComment
        (readLineComment (pos + 2) rest)
  | blockComment {pos : Nat} {rest : Text} :
      Opening expect ⟨pos, Byte.slash :: Byte.star :: rest⟩ .blockComment
        (readBlockComment (pos + 2) rest)
  | regex {pos : Nat} {rest : Text} (hslash : rest.head? ≠ some Byte.slash)
      (hstar : rest.head? ≠ some Byte.star)
      (hexpect : expect = .operand) :
      Opening expect ⟨pos, Byte.slash :: rest⟩ .regex (readRegex false (pos + 1) rest)

theorem readLiteral?_eq_some_iff {expect : Expectation} {c : Cursor} {kind : Kind}
    {ending : Ending} :
    readLiteral? expect c = some (kind, ending) ↔ Opening expect c kind ending := by
  constructor
  · intro h
    obtain ⟨pos, text⟩ := c
    cases text with
    | nil => simp [readLiteral?, readFlat?] at h
    | cons b rest =>
        unfold readLiteral? readFlat? at h
        dsimp only at h
        split_ifs at h with hbacktick hquote hslash hline hblock hoperand
        · obtain rfl : b = Byte.backtick := by simpa using hbacktick
          cases h
          exact .template
        · cases h
          exact .string hquote
        · obtain ⟨more, rfl⟩ := List.head?_eq_some_iff.1 hline
          cases h
          rw [hslash]
          exact .lineComment
        · obtain ⟨more, rfl⟩ := List.head?_eq_some_iff.1 hblock
          cases h
          rw [hslash]
          exact .blockComment
        · cases h
          rw [hslash]
          exact .regex hline hblock hoperand
  · intro h
    cases h with
    | template => rfl
    | string hquote => rcases hquote with rfl | rfl <;> rfl
    | lineComment => rfl
    | blockComment => rfl
    | regex hslash hstar hexpect =>
        subst hexpect
        rw [readLiteral?, if_neg (by simp; decide), readFlat?]
        dsimp only
        rw [if_neg (by decide), if_pos rfl, if_neg hslash, if_neg hstar, if_pos rfl]

/-- What follows a closed literal is free of it. -/
theorem free_of_readLiteral? {expect : Expectation} {c : Cursor} {kind : Kind}
    {ending : Ending} (h : readLiteral? expect c = some (kind, ending))
    (hclosed : ending.closed = true) : kind.free ending.rest := by
  have hregex : ∀ inClass pos text, (readRegex inClass pos text).closed = true →
      endsFlags (readRegex inClass pos text).rest := by
    intro inClass pos text
    fun_induction readRegex inClass pos text with
    | case8 => exact fun _ => Text.avoids_dropWhile _ _
    | case5 | case6 | case7 | case9 => assumption
    | _ => simp
  cases readLiteral?_eq_some_iff.1 h with
  | template => trivial
  | string => trivial
  | lineComment => exact Text.avoids_dropWhile _ _
  | blockComment => trivial
  | regex => exact hregex _ _ _ hclosed

theorem closed_of_lineComment {expect : Expectation} {c : Cursor} {ending : Ending}
    (h : readLiteral? expect c = some (.lineComment, ending)) : ending.closed = true := by
  cases readLiteral?_eq_some_iff.1 h with
  | lineComment => rfl

theorem operand_of_regex {expect : Expectation} {c : Cursor} {ending : Ending}
    (h : readLiteral? expect c = some (.regex, ending)) : expect = .operand := by
  cases readLiteral?_eq_some_iff.1 h with
  | regex _ _ hexpect => exact hexpect

theorem kind_of_readLiteral? {expect : Expectation} {c : Cursor} {kind : Kind}
    {ending : Ending} (h : readLiteral? expect c = some (kind, ending)) : kind ≠ .code := by
  cases readLiteral?_eq_some_iff.1 h <;> simp

end LetBlocks.Region
