import LetBlocks.Proofs.Region.Nesting

/-!
A template or a block comment is open only if the text runs out in it, a string or a regular
expression also where its line ends. The bytes of an open literal are the same literal, and
open, when they are read on their own. So whether a literal is closed is seen in its bytes.
-/

namespace LetBlocks.Region

/-! ### Templates and block comments -/

theorem rest_of_open_readBlockComment {pos : Nat} {text : Text}
    (h : (readBlockComment pos text).closed = false) :
    (readBlockComment pos text).rest = [] := by
  fun_induction readBlockComment pos text with
  | case1 => rfl
  | case2 => cases h
  | case3 _ _ _ _ ih => exact ih h

theorem rest_of_open_readTemplate {c : Cursor}
    (h : (readTemplate .chars [] c).closed = false) :
    (readTemplate .chars [] c).rest = [] := by
  obtain ⟨e, he⟩ := exists_templateReading .chars c
  have heq : readTemplate .chars [] c = e := he.readTemplate_eq []
  rw [heq] at h ⊢
  exact he.spec.2.1 h

/-- A template or a block comment that is open has no text behind it. -/
theorem rest_of_open_readLiteral? {expect : Expectation} {c : Cursor} {kind : Kind}
    {ending : Ending} (h : readLiteral? expect c = some (kind, ending))
    (hkind : kind = .template ∨ kind = .blockComment) (hopen : ending.closed = false) :
    ending.rest = [] := by
  cases readLiteral?_eq_some_iff.1 h with
  | template => exact rest_of_open_readTemplate hopen
  | blockComment => exact rest_of_open_readBlockComment hopen
  | string | lineComment | regex => simp at hkind

/-! ### Strings and regular expressions -/

/-- Where a reader gives up, the line ends, and what it took up to there is not closed on its
own. -/
def GivesUp (read : Nat → Text → Ending) (text : Text) (ending : Ending) : Prop :=
  endsLine ending.rest ∧
    ∃ used, text = used ++ ending.rest ∧
    ∀ pos, read pos used = ⟨⟨pos + used.length, []⟩, false⟩

namespace GivesUp

variable {read read' : Nat → Text → Ending} {text : Text} {ending : Ending}

/-- A reader that stops in front of `rest`. -/
theorem here (start : Text) {pos : Nat} {rest : Text} (hrest : ending = ⟨⟨pos, rest⟩, false⟩)
    (hline : endsLine rest)
    (hread : ∀ pos, read pos start = ⟨⟨pos + start.length, []⟩, false⟩) :
    GivesUp read (start ++ rest) ending := by
  subst hrest
  exact ⟨hline, start, rfl, hread⟩

/-- A reader that passes `start` and then goes on as another one. -/
theorem prepend (start : Text) (h : GivesUp read' text ending)
    (hstart : ∀ pos used, used <+: text →
      read pos (start ++ used) = read' (pos + start.length) used) :
    GivesUp read (start ++ text) ending := by
  obtain ⟨hline, used, hused, hread⟩ := h
  refine ⟨hline, start ++ used, by rw [List.append_assoc, ← hused], ?_⟩
  intro pos
  rw [hstart pos used ⟨_, hused.symm⟩, hread, List.length_append, Nat.add_assoc]

end GivesUp

theorem givesUp_readString (quote : Byte) (pos : Nat) (text : Text)
    (h : (readString quote pos text).closed = false) :
    GivesUp (readString quote) text (readString quote pos text) := by
  fun_induction readString quote pos text with
  | case1 pos => exact .here [] rfl (Text.avoids_nil _) fun _ => by simp [readString]
  | case2 pos =>
      exact .here [Byte.backslash] rfl (Text.avoids_nil _) fun _ => by simp [readString]
  | case3 pos e =>
      exact .here [Byte.backslash, e] rfl (Text.avoids_nil _) fun _ => by simp [readString]
  | case4 pos e f more hef ih =>
      refine (ih h).prepend [Byte.backslash, e, f] ?_
      intro pos used _
      simp [readString, hef]
  | case5 pos e f more hef ih =>
      refine (ih h).prepend [Byte.backslash, e] ?_
      rintro pos (_ | ⟨g, used⟩) hused
      · simp [readString]
      · obtain ⟨rfl, -⟩ := List.cons_prefix_cons.1 hused
        simp [readString, hef]
  | case6 => cases h
  | case7 pos b rest hbackslash hquote hbreak =>
      exact .here [] rfl (Text.avoids_cons.2 (by simp [hbreak])) fun _ => by simp [readString]
  | case8 pos b rest hbackslash hquote hbreak ih =>
      refine (ih h).prepend [b] ?_
      intro pos used _
      rw [List.singleton_append, readString.eq_def]
      simp [hbackslash, hquote, hbreak]

theorem givesUp_readRegex (inClass : Bool) (pos : Nat) (text : Text)
    (h : (readRegex inClass pos text).closed = false) :
    GivesUp (readRegex inClass) text (readRegex inClass pos text) := by
  fun_induction readRegex inClass pos text with
  | case1 inClass pos => exact .here [] rfl (Text.avoids_nil _) fun _ => by simp [readRegex]
  | case2 inClass pos b rest hbreak =>
      exact .here [] rfl (Text.avoids_cons.2 (by simp [hbreak])) fun _ => by simp [readRegex]
  | case3 inClass pos hbreak =>
      exact .here [Byte.backslash] rfl (Text.avoids_nil _) fun _ => by simp [readRegex, hbreak]
  | case4 inClass pos e more hbreak hbackslash =>
      refine .here [Byte.backslash] rfl (Text.avoids_cons.2 (by simp_all)) fun _ => ?_
      simp_all [readRegex]
  | case5 inClass pos e more hbreak hbackslash ih =>
      refine (ih h).prepend [Byte.backslash, e] ?_
      intro pos used _
      simp [readRegex, hbreak, hbackslash]
  | case6 inClass pos rest hbreak hbackslash ih =>
      refine (ih h).prepend [Byte.openSquare] ?_
      intro pos used _
      rw [List.singleton_append, readRegex.eq_def]
      simp [hbreak, hbackslash]
  | case7 inClass pos rest hbreak hbackslash hopen ih =>
      refine (ih h).prepend [Byte.closeSquare] ?_
      intro pos used _
      rw [List.singleton_append, readRegex.eq_def]
      simp [hbreak, hbackslash, hopen]
  | case8 => cases h
  | case9 inClass pos b rest hbreak hbackslash hopen hclose hslash ih =>
      refine (ih h).prepend [b] ?_
      intro pos used _
      rw [List.singleton_append, readRegex.eq_def]
      simp [hbreak, hbackslash, hopen, hclose, hslash]

/-! ### Any literal -/

/-- An open literal ends where its line ends. -/
theorem endsLine_of_open {expect : Expectation} {c : Cursor} {kind : Kind} {ending : Ending}
    (h : readLiteral? expect c = some (kind, ending)) (hopen : ending.closed = false) :
    endsLine ending.rest := by
  cases readLiteral?_eq_some_iff.1 h with
  | template => exact rest_of_open_readTemplate hopen ▸ Text.avoids_nil _
  | string => exact (givesUp_readString _ _ _ hopen).1
  | lineComment => cases hopen
  | blockComment => exact rest_of_open_readBlockComment hopen ▸ Text.avoids_nil _
  | regex => exact (givesUp_readRegex _ _ _ hopen).1

theorem alone_of_open {expect : Expectation} {c : Cursor} {kind : Kind} {ending : Ending}
    (h : readLiteral? expect c = some (kind, ending)) (hopen : ending.closed = false) :
    ∃ used, c.rest = used ++ ending.rest ∧
      readLiteral? expect ⟨0, used⟩ = some (kind, ⟨⟨used.length, []⟩, false⟩) := by
  obtain ⟨used, -, hused, hsettles⟩ := readLiteral?_settles h
  -- if the text has run out, it was read on its own
  have hend : ending.rest = [] → ∃ used, c.rest = used ++ ending.rest ∧
      readLiteral? expect ⟨0, used⟩ = some (kind, ⟨⟨used.length, []⟩, false⟩) := by
    intro hrest
    have hread := hsettles 0 [] (.inl (by rw [hrest]))
    rw [hopen, List.append_nil, Nat.zero_add] at hread
    exact ⟨used, hused, hread⟩
  cases readLiteral?_eq_some_iff.1 h with
  | template => exact hend (rest_of_open_readTemplate hopen)
  | lineComment => cases hopen
  | blockComment => exact hend (rest_of_open_readBlockComment hopen)
  | @string _ quote _ hquote =>
      obtain ⟨-, used, hused, hread⟩ := givesUp_readString _ _ _ hopen
      refine ⟨quote :: used, congrArg (List.cons quote) hused, ?_⟩
      rw [readLiteral?_eq_some_iff.2 (.string hquote), hread, List.length_cons, Nat.zero_add,
        Nat.add_comm 1]
  | @regex _ rest hslash hstar hexpect =>
      obtain ⟨-, used, hused, hread⟩ := givesUp_readRegex _ _ _ hopen
      refine ⟨Byte.slash :: used, congrArg (List.cons Byte.slash) hused, ?_⟩
      have hhead : ∀ b, used.head? = some b → rest.head? = some b := by
        intro b hb
        rw [hused, List.head?_append, hb]
        rfl
      rw [readLiteral?_eq_some_iff.2
          (.regex (mt (hhead _) hslash) (mt (hhead _) hstar) hexpect),
        hread, List.length_cons, Nat.zero_add, Nat.add_comm 1]

/-- A literal that is read in front of some text is read on its own, and closed as it was
there. -/
theorem readLiteral?_alone {expect : Expectation} {pos n : Nat} {used rest : Text}
    {kind : Kind} {closed : Bool}
    (h : readLiteral? expect ⟨pos, used ++ rest⟩ = some (kind, ⟨⟨n, rest⟩, closed⟩)) :
    readLiteral? expect ⟨0, used⟩ = some (kind, ⟨⟨used.length, []⟩, closed⟩) := by
  cases closed with
  | true =>
      obtain ⟨used', -, hused, hsettles⟩ := readLiteral?_settles h
      obtain rfl : used = used' := List.append_cancel_right hused
      simpa using hsettles 0 [] (.inr ⟨rfl, kind.free_nil⟩)
  | false =>
      obtain ⟨used', hused, hread⟩ := alone_of_open h rfl
      obtain rfl : used = used' := List.append_cancel_right hused
      exact hread

/-- Only for a regular expression does it matter what is expected. -/
theorem readLiteral?_eq_some_iff_operand {expect : Expectation} {c : Cursor} {kind : Kind}
    {ending : Ending} :
    readLiteral? expect c = some (kind, ending) ↔
      readLiteral? .operand c = some (kind, ending) ∧ (kind = .regex → expect = .operand) := by
  rw [readLiteral?_eq_some_iff, readLiteral?_eq_some_iff]
  constructor
  · intro h
    cases h with
    | template => exact ⟨.template, by simp⟩
    | string hquote => exact ⟨.string hquote, by simp⟩
    | lineComment => exact ⟨.lineComment, by simp⟩
    | blockComment => exact ⟨.blockComment, by simp⟩
    | regex hslash hstar hexpect => exact ⟨.regex hslash hstar rfl, fun _ => hexpect⟩
  · rintro ⟨h, hexpect⟩
    cases h with
    | template => exact .template
    | string hquote => exact .string hquote
    | lineComment => exact .lineComment
    | blockComment => exact .blockComment
    | regex hslash hstar _ => exact .regex hslash hstar (hexpect rfl)

end LetBlocks.Region
