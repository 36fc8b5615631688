import LetBlocks.Proofs.Region.Readers

/-!
`readTemplate` is a loop: it keeps the substitutions that are open around it in a list. What it
means is a recursion. A template reads each of its substitutions by a call, and a substitution
reads each template in its code by a call. `TemplateReading` is that recursion, as a relation
between the place where a call starts and the place where it returns. Every call returns,
wherever it is made and however badly the text is nested, because each step and each inner call
leaves less to read. The loop computes what the outermost call returns.
-/

namespace LetBlocks.Region

/-- One call of the recursion, which reads a template from behind its backtick or a
substitution from behind its `${`, and returns at `e`. Only a call that meets its own closing
mark returns a closed ending; one that meets the end of the text returns there. -/
inductive TemplateReading : TemplatePart → Cursor → Ending → Prop
  | exhausted {part : TemplatePart} {pos : Nat} :
      TemplateReading part ⟨pos, []⟩ ⟨⟨pos, []⟩, false⟩
  | escape {pos : Nat} {rest : Text} {e : Ending}
      (hmore : TemplateReading .chars (Cursor.step ⟨pos + 1, rest⟩) e) :
      TemplateReading .chars ⟨pos, Byte.backslash :: rest⟩ e
  | backtick {pos : Nat} {rest : Text} :
      TemplateReading .chars ⟨pos, Byte.backtick :: rest⟩ ⟨⟨pos + 1, rest⟩, true⟩
  | substitution {pos : Nat} {rest : Text} {inner e : Ending}
      (hcode : TemplateReading (.code {}) ⟨pos + 2, rest⟩ inner)
      (hclosed : inner.closed = true)
      (hmore : TemplateReading .chars inner.toCursor e) :
      TemplateReading .chars ⟨pos, Byte.dollar :: Byte.openCurly :: rest⟩ e
  | cutOff {pos : Nat} {rest : Text} {inner : Ending}
      (hcode : TemplateReading (.code {}) ⟨pos + 2, rest⟩ inner)
      (hopen : inner.closed = false) :
      TemplateReading .chars ⟨pos, Byte.dollar :: Byte.openCurly :: rest⟩ inner
  | char {pos : Nat} {b : Byte} {rest : Text} {e : Ending} (hbackslash : b ≠ Byte.backslash)
      (hbacktick : b ≠ Byte.backtick)
      (hdollar : ¬ (b = Byte.dollar ∧ rest.head? = some Byte.openCurly))
      (hmore : TemplateReading .chars ⟨pos + 1, rest⟩ e) :
      TemplateReading .chars ⟨pos, b :: rest⟩ e
  | template {inside : Substitution} {pos : Nat} {rest : Text} {inner e : Ending}
      (htemplate : TemplateReading .chars ⟨pos + 1, rest⟩ inner)
      (hmore : TemplateReading (.code { inside with expect := .operator }) inner.toCursor e) :
      TemplateReading (.code inside) ⟨pos, Byte.backtick :: rest⟩ e
  | literal {inside : Substitution} {pos : Nat} {b : Byte} {rest : Text} {kind : Kind}
      {ending e : Ending}
      (hbacktick : b ≠ Byte.backtick)
      (hread : readFlat? inside.expect ⟨pos, b :: rest⟩ = some (kind, ending))
      (hmore : TemplateReading
        (.code { inside with expect := inside.expect.afterLiteral kind }) ending.toCursor e) :
      TemplateReading (.code inside) ⟨pos, b :: rest⟩ e
  | close {inside : Substitution} {pos : Nat} {rest : Text} (hdepth : inside.depth = 0) :
      TemplateReading (.code inside) ⟨pos, Byte.closeCurly :: rest⟩ ⟨⟨pos + 1, rest⟩, true⟩
  | brace {inside : Substitution} {pos depth : Nat} {rest : Text} {e : Ending}
      (hdepth : inside.depth = depth + 1)
      (hmore : TemplateReading (.code { depth, expect := .operand }) ⟨pos + 1, rest⟩ e) :
      TemplateReading (.code inside) ⟨pos, Byte.closeCurly :: rest⟩ e
  | code {inside : Substitution} {pos : Nat} {b : Byte} {rest : Text} {e : Ending}
      (hbacktick : b ≠ Byte.backtick)
      (hbrace : b ≠ Byte.closeCurly) (hnone : readFlat? inside.expect ⟨pos, b :: rest⟩ = none)
      (hmore : TemplateReading
        (.code
          { depth := if b = Byte.openCurly then inside.depth + 1 else inside.depth
            expect := (passCode inside.expect ⟨pos, b :: rest⟩).1 })
        (passCode inside.expect ⟨pos, b :: rest⟩).2 e) :
      TemplateReading (.code inside) ⟨pos, b :: rest⟩ e

/-! ### Places in one text -/

def Cursor.SameText (c d : Cursor) : Prop := d.pos + d.rest.length = c.pos + c.rest.length

namespace Cursor

theorem SameText.trans {c d e : Cursor} (h : SameText c d) (h' : SameText d e) :
    SameText c e :=
  Eq.trans h' h

theorem sameText_step (c : Cursor) : SameText c c.step := by
  obtain ⟨pos, _ | ⟨b, rest⟩⟩ := c
  · rfl
  · simp only [SameText, step, List.length_cons]
    omega

theorem sameText_cons (pos : Nat) (b : Byte) (rest : Text) :
    SameText ⟨pos, b :: rest⟩ ⟨pos + 1, rest⟩ :=
  sameText_step ⟨pos, b :: rest⟩

end Cursor

theorem sameText_readFlat? {expect : Expectation} {c : Cursor} {kind : Kind} {ending : Ending}
    (h : readFlat? expect c = some (kind, ending)) : c.SameText ending.toCursor := by
  obtain ⟨used, -, hused, hsettles⟩ := readFlat?_settles h
  have hself := hsettles c.pos ending.rest (.inl rfl)
  rw [← hused, h] at hself
  have hpos : ending.pos = c.pos + used.length := congrArg (·.2.pos) (Option.some.inj hself)
  rw [Cursor.SameText, hpos, hused, List.length_append, Nat.add_assoc]

theorem sameText_passCode (expect : Expectation) (pos : Nat) (b : Byte) (rest : Text) :
    Cursor.SameText ⟨pos, b :: rest⟩ (passCode expect ⟨pos, b :: rest⟩).2 := by
  obtain ⟨used, -, hused, hsettles⟩ := passCode_settles expect pos b rest
  have hself := hsettles pos _ rfl
  rw [← hused] at hself
  have hpos := congrArg (·.2.pos) hself
  rw [Cursor.SameText, hpos, Nat.add_assoc, ← List.length_append, ← hused]

/-! ### Every call returns -/

/-- A call that returns before its closing mark has read the whole text, and no call returns
outside of it. -/
theorem TemplateReading.spec {part : TemplatePart} {c : Cursor} {e : Ending}
    (h : TemplateReading part c e) :
    c.SameText e.toCursor ∧ (e.closed = false → e.rest = []) ∧
      e.rest.length ≤ c.rest.length := by
  induction h with
  | exhausted => exact ⟨rfl, fun _ => rfl, Nat.le_refl _⟩
  | escape _ ih =>
      refine ⟨((Cursor.sameText_cons _ _ _).trans (Cursor.sameText_step _)).trans ih.1, ih.2.1,
        ?_⟩
      exact ih.2.2.trans (Nat.le_succ_of_le (Cursor.length_step_le _))
  | backtick => exact ⟨Cursor.sameText_cons _ _ _, fun h => (by cases h), Nat.le_succ _⟩
  | substitution _ _ _ ihcode ih =>
      have hcode := ihcode.2.2
      have hmore := ih.2.2
      refine ⟨(((Cursor.sameText_cons _ _ _).trans (Cursor.sameText_cons _ _ _)).trans
        ihcode.1).trans ih.1, ih.2.1, ?_⟩
      simp only [List.length_cons] at hcode ⊢
      omega
  | cutOff _ _ ihcode =>
      have hcode := ihcode.2.2
      refine ⟨((Cursor.sameText_cons _ _ _).trans (Cursor.sameText_cons _ _ _)).trans ihcode.1,
        ihcode.2.1, ?_⟩
      simp only [List.length_cons] at hcode ⊢
      omega
  | char _ _ _ _ ih =>
      exact ⟨(Cursor.sameText_cons _ _ _).trans ih.1, ih.2.1, ih.2.2.trans (Nat.le_succ _)⟩
  | template _ _ ihtemplate ih =>
      exact ⟨((Cursor.sameText_cons _ _ _).trans ihtemplate.1).trans ih.1, ih.2.1,
        ih.2.2.trans (ihtemplate.2.2.trans (Nat.le_succ _))⟩
  | literal _ hread _ ih =>
      exact ⟨(sameText_readFlat? hread).trans ih.1, ih.2.1,
        ih.2.2.trans (Nat.le_of_lt (length_readFlat?_lt hread))⟩
  | close => exact ⟨Cursor.sameText_cons _ _ _, fun h => (by cases h), Nat.le_succ _⟩
  | brace _ _ ih =>
      exact ⟨(Cursor.sameText_cons _ _ _).trans ih.1, ih.2.1, ih.2.2.trans (Nat.le_succ _)⟩
  | code _ _ _ _ ih =>
      exact ⟨(sameText_passCode _ _ _ _).trans ih.1, ih.2.1,
        ih.2.2.trans (Nat.le_of_lt (length_passCode_lt rfl))⟩

theorem exists_templateReading (part : TemplatePart) (c : Cursor) :
    ∃ e, TemplateReading part c e := by
  induction hlen : c.rest.length using Nat.strong_induction_on generalizing part c with
  | _ n ih =>
      obtain ⟨pos, _ | ⟨b, rest⟩⟩ := c
      · exact ⟨_, .exhausted⟩
      have hrest : rest.length < n := by
        simp only [← hlen, List.length_cons]
        omega
      cases part with
      | chars =>
          by_cases hbackslash : b = Byte.backslash
          · subst hbackslash
            obtain ⟨e, he⟩ := ih _ (Nat.lt_of_le_of_lt (Cursor.length_step_le _) hrest) .chars
              (Cursor.step ⟨pos + 1, rest⟩) rfl
            exact ⟨e, .escape he⟩
          by_cases hbacktick : b = Byte.backtick
          · subst hbacktick
            exact ⟨_, .backtick⟩
          by_cases hdollar : b = Byte.dollar ∧ rest.head? = some Byte.openCurly
          · obtain ⟨rfl, hhead⟩ := hdollar
            obtain ⟨more, rfl⟩ := List.head?_eq_some_iff.1 hhead
            have hmore : more.length < n := Nat.lt_trans (Nat.lt_succ_self _) hrest
            obtain ⟨inner, hinner⟩ := ih _ hmore (.code {}) ⟨pos + 2, more⟩ rfl
            cases hclosed : inner.closed with
            | false => exact ⟨inner, .cutOff hinner hclosed⟩
            | true =>
                obtain ⟨e, he⟩ :=
                  ih _ (Nat.lt_of_le_of_lt hinner.spec.2.2 hmore) .chars inner.toCursor rfl
                exact ⟨e, .substitution hinner hclosed he⟩
          obtain ⟨e, he⟩ := ih _ hrest .chars ⟨pos + 1, rest⟩ rfl
          exact ⟨e, .char hbackslash hbacktick hdollar he⟩
      | code inside =>
          by_cases hbacktick : b = Byte.backtick
          · subst hbacktick
            obtain ⟨inner, hinner⟩ := ih _ hrest .chars ⟨pos + 1, rest⟩ rfl
            obtain ⟨e, he⟩ := ih _ (Nat.lt_of_le_of_lt hinner.spec.2.2 hrest)
              (.code { inside with expect := .operator }) inner.toCursor rfl
            exact ⟨e, .template hinner he⟩
          cases hread : readFlat? inside.expect ⟨pos, b :: rest⟩ with
          | some read =>
              obtain ⟨kind, ending⟩ := read
              obtain ⟨e, he⟩ := ih _ (hlen ▸ length_readFlat?_lt hread)
                (.code { inside with expect := inside.expect.afterLiteral kind })
                  ending.toCursor rfl
              exact ⟨e, .literal hbacktick hread he⟩
          | none =>
              by_cases hbrace : b = Byte.closeCurly
              · subst hbrace
                cases hdepth : inside.depth with
                | zero => exact ⟨_, .close hdepth⟩
                | succ depth =>
                    obtain ⟨e, he⟩ :=
                      ih _ hrest (.code { depth, expect := .operand }) ⟨pos + 1, rest⟩ rfl
                    exact ⟨e, .brace hdepth he⟩
              · obtain ⟨e, he⟩ := ih _ (hlen ▸ length_passCode_lt rfl) _
                  (passCode inside.expect ⟨pos, b :: rest⟩).2 rfl
                exact ⟨e, .code hbacktick hbrace hread he⟩

/-! ### The loop computes the recursion -/

/-- What the loop still has to do when a call has returned: nothing if the outermost template
is closed, and otherwise to go on in what is around it. -/
def resume (part : TemplatePart) (around : List Substitution) (e : Ending) : Ending :=
  match part, around with
  | .code _, around => readTemplate .chars around e.toCursor
  | .chars, inside :: around =>
    readTemplate (.code { inside with expect := .operator }) around e.toCursor
  | .chars, [] => e

/-- At the end of the text the loop stops, whatever is open. -/
theorem resume_of_open {part : TemplatePart} {around : List Substitution} {e : Ending}
    (hopen : e.closed = false) (hrest : e.rest = []) : resume part around e = e := by
  obtain ⟨⟨pos, rest⟩, closed⟩ := e
  obtain rfl : closed = false := hopen
  obtain rfl : rest = [] := hrest
  unfold resume
  split
  · exact readTemplate_nil _
  · exact readTemplate_nil _
  · rfl

theorem TemplateReading.readTemplate_eq {part : TemplatePart} {c : Cursor} {e : Ending}
    (h : TemplateReading part c e) (around : List Substitution) :
    readTemplate part around c = resume part around e := by
  induction h generalizing around with
  | exhausted =>
      rw [readTemplate_nil, resume_of_open rfl rfl]
  | escape _ ih => rw [readTemplate_chars, if_pos rfl, ih around]
  | backtick =>
      rw [readTemplate_chars, if_neg (by decide), if_pos rfl]
      cases around <;> rfl
  | substitution _ _ _ ihcode ih =>
      rw [readTemplate_chars, if_neg (by decide), if_neg (by decide), if_pos ⟨rfl, rfl⟩]
      exact (ihcode around).trans (ih around)
  | cutOff hcode hopen ihcode =>
      have hrest := hcode.spec.2.1 hopen
      rw [readTemplate_chars, if_neg (by decide), if_neg (by decide), if_pos ⟨rfl, rfl⟩]
      refine (ihcode around).trans ?_
      rw [resume_of_open hopen hrest, resume_of_open hopen hrest]
  | char hbackslash hbacktick hdollar _ ih =>
      rw [readTemplate_chars, if_neg hbackslash, if_neg hbacktick, if_neg hdollar, ih around]
  | @template inside pos rest inner e htemplate hmore ihtemplate ih =>
      rw [readTemplate, if_pos rfl, ihtemplate (inside :: around)]
      exact ih around
  | literal hbacktick hread _ ih =>
      exact (readTemplate_literal hbacktick hread).trans (ih around)
  | close hdepth =>
      rw [readTemplate_brace (by rfl), hdepth]
      rfl
  | brace hdepth _ ih =>
      rw [readTemplate_brace (by rfl), hdepth]
      exact ih around
  | code hbacktick hbrace hnone _ ih =>
      exact (readTemplate_code hbacktick hbrace hnone).trans (ih around)

end LetBlocks.Region
