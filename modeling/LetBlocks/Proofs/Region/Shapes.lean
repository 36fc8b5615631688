import LetBlocks.Proofs.Region.Open
import LetBlocks.Proofs.Token.Stream

/-!
The readers are loops that look a byte or two ahead and stop for several reasons. Here a
literal is described by its bytes alone: a string, a regular expression and a comment are what
a definition of the language would say they are. Each reader is sound for its description, and
a literal is found closed exactly if its bytes are those of a closed one. From the readers this
passes on to every region of a script. Templates are left out; their shape is a grammar of its
own.
-/

namespace LetBlocks.Region

/-! ### Strings -/

/-- What may stand behind the `quote` that opens a string: escapes, and bytes other than the
quote, backslashes and line breaks. An escape takes any byte with it, and both bytes of a CR
LF. -/
inductive StringUnits (quote : Byte) : Text → Prop
  | nil : StringUnits quote []
  | escapedBreak {more : Text} (hmore : StringUnits quote more) :
      StringUnits quote (Byte.backslash :: Byte.cr :: Byte.lf :: more)
  | escaped (e : Byte) {more : Text} (hmore : StringUnits quote more) :
      StringUnits quote (Byte.backslash :: e :: more)
  | plain {b : Byte} {more : Text} (hbackslash : b ≠ Byte.backslash) (hquote : b ≠ quote)
      (hbreak : b.isLineBreak = false)
      (hmore : StringUnits quote more) : StringUnits quote (b :: more)

/-- A string that stands in front of `rest`. A backslash that nothing follows ends an open
one. -/
structure IsString (quote : Byte) (bytes rest : Text) (closed : Bool) : Prop where
  quote_eq : quote = Byte.singleQuote ∨ quote = Byte.doubleQuote
  closed_iff : closed = true ↔
    ∃ units, StringUnits quote units ∧ bytes = quote :: units ++ [quote]
  of_open : closed = false → endsLine rest ∧ ∃ units, StringUnits quote units ∧
    (bytes = quote :: units ∨ bytes = quote :: units ++ [Byte.backslash] ∧ rest = [])

/-- A reader of strings takes units, and then the quote if the string is closed. -/
theorem readString_sound (quote : Byte) (pos : Nat) (text : Text) :
    ∃ units tail, StringUnits quote units ∧
      text = units ++ tail ++ (readString quote pos text).rest ∧
      if (readString quote pos text).closed then tail = [quote]
      else tail = [] ∨ tail = [Byte.backslash] ∧ (readString quote pos text).rest = [] := by
  fun_induction readString quote pos text with
  | case1 pos => exact ⟨[], [], .nil, rfl, .inl rfl⟩
  | case2 pos => exact ⟨[], [Byte.backslash], .nil, rfl, .inr ⟨rfl, rfl⟩⟩
  | case3 pos e => exact ⟨[Byte.backslash, e], [], .escaped e .nil, rfl, .inl rfl⟩
  | case4 pos e f more hef ih =>
      obtain ⟨units, tail, hunits, hsplit, htail⟩ := ih
      obtain ⟨rfl, rfl⟩ := hef
      exact ⟨_, tail, .escapedBreak hunits, by simpa using hsplit, htail⟩
  | case5 pos e f more hef ih =>
      obtain ⟨units, tail, hunits, hsplit, htail⟩ := ih
      exact ⟨_, tail, .escaped e hunits, by simpa using hsplit, htail⟩
  | case6 pos rest hbackslash => exact ⟨[], [quote], .nil, rfl, rfl⟩
  | case7 pos b rest hbackslash hquote hbreak => exact ⟨[], [], .nil, rfl, .inl rfl⟩
  | case8 pos b rest hbackslash hquote hbreak ih =>
      obtain ⟨units, tail, hunits, hsplit, htail⟩ := ih
      exact ⟨_, tail, .plain hbackslash hquote (by simpa using hbreak) hunits, by
        simpa using hsplit, htail⟩

/-- No unit of a string begins with a line feed. -/
theorem StringUnits.head?_ne {quote : Byte} {units : Text} (h : StringUnits quote units)
    (hquote : quote ≠ Byte.lf) (rest : Text) :
    (units ++ quote :: rest).head? ≠ some Byte.lf := by
  cases h with
  | nil => simpa using hquote
  | escapedBreak => simp; decide
  | escaped => simp; decide
  | plain _ _ hbreak _ =>
      rw [List.cons_append, List.head?_cons, ne_eq, Option.some.injEq]
      rintro rfl
      exact absurd hbreak (by decide)

/-- A string is read up to the quote behind its units. An escaped CR is never mistaken for one
of CR LF, since no unit begins with a line feed. -/
theorem StringUnits.readString_eq {quote : Byte} {units : Text} (h : StringUnits quote units)
    (hquote : quote = Byte.singleQuote ∨ quote = Byte.doubleQuote) (pos : Nat) (rest : Text) :
    readString quote pos (units ++ quote :: rest) =
      ⟨⟨pos + units.length + 1, rest⟩, true⟩ := by
  have hbackslash : quote ≠ Byte.backslash := by rcases hquote with rfl | rfl <;> decide
  have hlf : quote ≠ Byte.lf := by rcases hquote with rfl | rfl <;> decide
  induction h generalizing pos with
  | nil =>
      rw [List.nil_append, readString.eq_def]
      simp [hbackslash]
  | @escapedBreak more hmore ih =>
      have hlength : pos + (Byte.backslash :: Byte.cr :: Byte.lf :: more).length =
          pos + 3 + more.length := by
        simp only [List.length_cons]
        omega
      rw [hlength, List.cons_append, List.cons_append, List.cons_append, readString]
      simpa using ih (pos + 3)
  | @escaped e more hmore ih =>
      have hlength : pos + (Byte.backslash :: e :: more).length = pos + 2 + more.length := by
        simp only [List.length_cons]
        omega
      have hhead := hmore.head?_ne hlf rest
      obtain ⟨f, text, htext⟩ : ∃ f text, more ++ quote :: rest = f :: text := by
        cases more <;> simp
      rw [htext] at hhead ih
      rw [hlength, List.cons_append, List.cons_append, htext, readString]
      have hef : ¬ (e = Byte.cr ∧ f = Byte.lf) := fun hef => hhead (by rw [hef.2]; rfl)
      simpa [hef] using ih (pos + 2)
  | @plain b more hb hbquote hbreak hmore ih =>
      rw [List.cons_append, readString.eq_def]
      simpa [hb, hbquote, hbreak, Nat.add_assoc, Nat.add_comm 1] using ih (pos + 1)

/-! ### Regular expressions -/

/-- What may stand behind the slash that opens a regular expression, without the slash that
closes it: escapes, which take no line break with them, and bytes other than backslashes and
line breaks. The two flags say whether the units begin and end inside a class; only there may a
slash stand. -/
inductive RegexUnits : Bool → Text → Bool → Prop
  | nil {inClass : Bool} : RegexUnits inClass [] inClass
  | escaped {inClass inClass' : Bool} {e : Byte} {more : Text} (hbreak : e.isLineBreak = false)
      (hmore : RegexUnits inClass more inClass') :
      RegexUnits inClass (Byte.backslash :: e :: more) inClass'
  | openClass {inClass inClass' : Bool} {more : Text} (hmore : RegexUnits true more inClass') :
      RegexUnits inClass (Byte.openSquare :: more) inClass'
  | closeClass {inClass inClass' : Bool} {more : Text}
      (hmore : RegexUnits false more inClass') :
      RegexUnits inClass (Byte.closeSquare :: more) inClass'
  | plain {inClass inClass' : Bool} {b : Byte} {more : Text} (hbreak : b.isLineBreak = false)
      (hbackslash : b ≠ Byte.backslash) (hopen : b ≠ Byte.openSquare)
      (hclose : b ≠ Byte.closeSquare)
      (hslash : b = Byte.slash → inClass = true) (hmore : RegexUnits inClass more inClass') :
      RegexUnits inClass (b :: more) inClass'

structure IsRegex (bytes rest : Text) (closed : Bool) : Prop where
  closed_iff : closed = true ↔
    ∃ units flags, RegexUnits false units false ∧ (∀ b ∈ flags, b.isWord = true) ∧
    bytes = Byte.slash :: units ++ Byte.slash :: flags
  of_closed : closed = true → endsFlags rest
  of_open : closed = false → endsLine rest ∧ ∃ units inClass, RegexUnits false units inClass ∧
    (bytes = Byte.slash :: units ∨ bytes = Byte.slash :: units ++ [Byte.backslash])

/-- A reader of regular expressions takes units, and then the slash and the flags if it is
closed. -/
theorem readRegex_sound (inClass : Bool) (pos : Nat) (text : Text) :
    ∃ units inClass' tail, RegexUnits inClass units inClass' ∧
      text = units ++ tail ++ (readRegex inClass pos text).rest ∧
      if (readRegex inClass pos text).closed then
        inClass' = false ∧ ∃ flags, (∀ b ∈ flags, b.isWord = true) ∧ tail = Byte.slash :: flags
      else tail = [] ∨ tail = [Byte.backslash] := by
  fun_induction readRegex inClass pos text with
  | case1 inClass pos => exact ⟨[], inClass, [], .nil, rfl, .inl rfl⟩
  | case2 inClass pos b rest hbreak => exact ⟨[], inClass, [], .nil, rfl, .inl rfl⟩
  | case3 inClass pos hbreak => exact ⟨[], inClass, [Byte.backslash], .nil, rfl, .inr rfl⟩
  | case4 inClass pos e more hbreak hbackslash =>
      exact ⟨[], inClass, [Byte.backslash], .nil, rfl, .inr rfl⟩
  | case5 inClass pos e more hbreak hbackslash ih =>
      obtain ⟨units, inClass', tail, hunits, hsplit, htail⟩ := ih
      exact ⟨Byte.backslash :: e :: units, inClass', tail,
        .escaped (by simpa using hbreak) hunits, by simpa using hsplit, htail⟩
  | case6 inClass pos rest hbreak hbackslash ih =>
      obtain ⟨units, inClass', tail, hunits, hsplit, htail⟩ := ih
      exact ⟨_, inClass', tail, .openClass hunits, by simpa using hsplit, htail⟩
  | case7 inClass pos rest hbreak hbackslash hopen ih =>
      obtain ⟨units, inClass', tail, hunits, hsplit, htail⟩ := ih
      exact ⟨_, inClass', tail, .closeClass hunits, by simpa using hsplit, htail⟩
  | case8 inClass pos b rest hbreak hbackslash hopen hclose hslash =>
      obtain ⟨rfl, rfl⟩ := hslash
      refine ⟨[], false, Byte.slash :: rest.takeWhile Byte.isWord, .nil, ?_, rfl, _, ?_, rfl⟩
      · simp [Cursor.skipWhile]
      · exact fun b hb => List.mem_takeWhile_imp hb
  | case9 inClass pos b rest hbreak hbackslash hopen hclose hslash ih =>
      obtain ⟨units, inClass', tail, hunits, hsplit, htail⟩ := ih
      refine ⟨_, inClass', tail,
        .plain (by simpa using hbreak) hbackslash hopen hclose ?_ hunits,
        by simpa using hsplit, htail⟩
      intro hb
      simpa [hb] using hslash

/-- How a reader of regular expressions goes on at a byte that is no backslash. -/
theorem readRegex_cons {b : Byte} (hbreak : b.isLineBreak = false)
    (hbackslash : b ≠ Byte.backslash) (inClass : Bool) (pos : Nat) (rest : Text) :
    readRegex inClass pos (b :: rest) =
      if b = Byte.openSquare then readRegex true (pos + 1) rest
      else if b = Byte.closeSquare then readRegex false (pos + 1) rest
      else if b = Byte.slash ∧ inClass = false then
        ⟨Cursor.skipWhile Byte.isWord ⟨pos + 1, rest⟩, true⟩
      else readRegex inClass (pos + 1) rest := by
  rw [readRegex.eq_def]
  dsimp only
  rw [if_neg (by simp [hbreak]), if_neg hbackslash]

/-- Units with a slash behind them are found closed, if they end outside of a class. -/
theorem RegexUnits.closed_readRegex {inClass inClass' : Bool} {units : Text}
    (h : RegexUnits inClass units inClass') (houtside : inClass' = false) (pos : Nat)
    (rest : Text) :
    (readRegex inClass pos (units ++ Byte.slash :: rest)).closed = true := by
  induction h generalizing pos with
  | nil =>
      subst houtside
      rw [List.nil_append, readRegex_cons (by decide) (by decide)]
      rfl
  | @escaped inClass inClass' e more hbreak hmore ih =>
      rw [List.cons_append, List.cons_append, readRegex.eq_def]
      simpa [hbreak,
        show Byte.isLineBreak Byte.backslash = false from rfl] using ih houtside (pos + 2)
  | openClass hmore ih =>
      rw [List.cons_append, readRegex_cons (by decide) (by decide), if_pos rfl]
      exact ih houtside (pos + 1)
  | closeClass hmore ih =>
      rw [List.cons_append, readRegex_cons (by decide) (by decide), if_neg (by decide),
        if_pos rfl]
      exact ih houtside (pos + 1)
  | @plain inClass inClass' b more hbreak hbackslash hopen hclose hslash hmore ih =>
      have hpasses : ¬ (b = Byte.slash ∧ inClass = false) := by
        rintro ⟨hb, hfalse⟩
        rw [hslash hb] at hfalse
        cases hfalse
      rw [List.cons_append, readRegex_cons hbreak hbackslash, if_neg hopen, if_neg hclose,
        if_neg hpasses]
      exact ih houtside (pos + 1)

/-! ### Comments -/

/-- There is no `*/` in the text but at its end. -/
def ClosesLast (text : Text) : Prop :=
  ∀ before after, text = before ++ utf8 "*/" ++ after → after = []

structure IsBlockComment (bytes rest : Text) (closed : Bool) : Prop where
  opens : utf8 "/*" <+: bytes
  closed_iff : closed = true ↔ utf8 "*/" <:+: bytes.drop 2 ++ rest
  of_closed : closed = true → utf8 "*/" <:+ bytes.drop 2 ∧ ClosesLast (bytes.drop 2)
  of_open : closed = false → rest = []

theorem ClosesLast.cons {b : Byte} {text : Text} (h : ClosesLast text)
    (hb : b = Byte.star → text.head? = some Byte.slash → text = [Byte.slash]) :
    ClosesLast (b :: text) := by
  intro before after hsplit
  cases before with
  | nil =>
      obtain ⟨hstar, htext⟩ : b = Byte.star ∧ text = Byte.slash :: after :=
        List.cons.inj hsplit
      have honly := hb hstar (by rw [htext]; rfl)
      rw [htext] at honly
      exact (List.cons.inj honly).2
  | cons c before => exact h before after (List.cons.inj hsplit).2

/-- The mark itself is the shortest text that it closes. -/
theorem closesLast_mark : ClosesLast (utf8 "*/") := by
  have hlast : ClosesLast [Byte.slash] := by
    intro before after hsplit
    have hlength := congrArg List.length hsplit
    rw [List.length_append, List.length_append] at hlength
    have htwo : (utf8 "*/").length = 2 := rfl
    simp only [List.length_singleton] at hlength
    omega
  exact hlast.cons fun _ _ => rfl

/-- A reader of block comments stops behind the first `*/`. -/
theorem readBlockComment_sound (pos : Nat) (text : Text) :
    if (readBlockComment pos text).closed then
      ∃ inside, text = inside ++ utf8 "*/" ++ (readBlockComment pos text).rest ∧
      ClosesLast (inside ++ utf8 "*/")
    else ¬ utf8 "*/" <:+: text := by
  fun_induction readBlockComment pos text with
  | case1 pos =>
      rw [if_neg (by simp), List.infix_nil]
      decide
  | case2 pos b rest hclose =>
      obtain ⟨hstar, hslash⟩ := hclose
      obtain ⟨more, rfl⟩ := List.head?_eq_some_iff.1 hslash
      subst hstar
      exact ⟨[], rfl, closesLast_mark⟩
  | case3 pos b rest hclose ih =>
      split_ifs at ih ⊢
      · obtain ⟨inside, hsplit, hlast⟩ := ih
        refine ⟨b :: inside, congrArg (List.cons b) hsplit, hlast.cons fun hstar hslash => ?_⟩
        refine absurd ⟨hstar, ?_⟩ hclose
        rw [hsplit, List.head?_append, hslash]
        rfl
      · intro hinfix
        rcases List.infix_cons_iff.1 hinfix with hprefix | hinfix
        · obtain ⟨after, hafter⟩ := hprefix
          obtain ⟨hstar, hrest⟩ : Byte.star = b ∧ Byte.slash :: after = rest :=
            List.cons.inj hafter
          exact hclose ⟨hstar.symm, by rw [← hrest]; rfl⟩
        · exact ih hinfix

/-- A block comment is read up to the first `*/` behind its opening mark. -/
theorem ClosesLast.readBlockComment_eq {inside : Text} (h : ClosesLast (inside ++ utf8 "*/"))
    (pos : Nat) (rest : Text) :
    readBlockComment pos (inside ++ utf8 "*/" ++ rest) =
      ⟨⟨pos + inside.length + 2, rest⟩, true⟩ := by
  induction inside generalizing pos with
  | nil => exact if_pos ⟨rfl, rfl⟩
  | cons b inside ih =>
      have hmore : ClosesLast (inside ++ utf8 "*/") :=
        fun before after hsplit => h (b :: before) after (congrArg (List.cons b) hsplit)
      -- a mark that began here would not be the last thing in the comment
      have hearly : ¬ (b = Byte.star ∧
          (inside ++ utf8 "*/" ++ rest).head? = some Byte.slash) := by
        rintro ⟨rfl, hhead⟩
        cases inside with
        | nil => cases hhead
        | cons c inside =>
            obtain rfl : c = Byte.slash := Option.some.inj hhead
            exact absurd (h [] (inside ++ utf8 "*/") rfl)
              (List.append_ne_nil_of_right_ne_nil _ (by decide))
      rw [List.cons_append, List.cons_append, readBlockComment, if_neg hearly, ih hmore,
        List.length_cons]
      simp only [Nat.add_assoc, Nat.add_comm 1]

structure IsLineComment (start : Nat) (bytes rest : Text) (closed : Bool) : Prop where
  opens : utf8 "//" <+: bytes ∨ start = 0 ∧ utf8 "#!" <+: bytes
  inLine : ∀ b ∈ bytes, b.isLineBreak = false
  ends : endsLine rest
  closed_eq : closed = true

/-! ### Any literal -/

/-- The shape of a region of a kind that begins at `start` and stands in front of `rest`. -/
def Shape (start : Nat) (bytes rest : Text) (closed : Bool) : Kind → Prop
  | .string => ∃ quote, IsString quote bytes rest closed
  | .regex => IsRegex bytes rest closed
  | .blockComment => IsBlockComment bytes rest closed
  | .lineComment => IsLineComment start bytes rest closed
  | .code | .template => True

theorem shape_string {quote : Byte}
    (hquote : quote = Byte.singleQuote ∨ quote = Byte.doubleQuote) {pos : Nat}
    {text used : Text} (hused : text = used ++ (readString quote pos text).rest)
    (hends : (readString quote pos text).closed = false →
      endsLine (readString quote pos text).rest) :
    IsString quote (quote :: used) (readString quote pos text).rest
      (readString quote pos text).closed := by
  obtain ⟨units, tail, hunits, hsplit, htail⟩ := readString_sound quote pos text
  obtain rfl : used = units ++ tail := List.append_cancel_right (hused.symm.trans hsplit)
  refine
    { quote_eq := hquote
      closed_iff := ⟨fun hclosed => ?_, ?_⟩
      of_open := fun hopen => ⟨hends hopen, ?_⟩ }
  · rw [if_pos hclosed] at htail
    exact ⟨units, hunits, by rw [htail, List.cons_append]⟩
  · rintro ⟨units', hunits', hbytes⟩
    have hsame : units ++ tail = units' ++ [quote] := (List.cons.inj hbytes).2
    have hclosed :=
      congrArg Ending.closed
        (hunits'.readString_eq hquote pos (readString quote pos text).rest)
    rwa [← List.singleton_append, ← List.append_assoc, ← hsame, ← hsplit] at hclosed
  · rw [if_neg (by simp [hopen])] at htail
    refine ⟨units, hunits, htail.imp ?_ ?_⟩
    · rintro rfl
      rw [List.append_nil]
    · rintro ⟨rfl, hrest⟩
      exact ⟨rfl, hrest⟩

theorem shape_regex {pos : Nat} {text used : Text}
    (hused : text = used ++ (readRegex false pos text).rest)
    (hflags : (readRegex false pos text).closed = true →
      endsFlags (readRegex false pos text).rest)
    (hends : (readRegex false pos text).closed = false →
      endsLine (readRegex false pos text).rest) :
    IsRegex (Byte.slash :: used) (readRegex false pos text).rest
      (readRegex false pos text).closed := by
  obtain ⟨units, inClass, tail, hunits, hsplit, htail⟩ := readRegex_sound false pos text
  obtain rfl : used = units ++ tail := List.append_cancel_right (hused.symm.trans hsplit)
  refine
    { closed_iff := ⟨fun hclosed => ?_, ?_⟩
      of_closed := hflags
      of_open := fun hopen => ⟨hends hopen, ?_⟩ }
  · rw [if_pos hclosed] at htail
    obtain ⟨rfl, flags, hword, rfl⟩ := htail
    exact ⟨units, flags, hunits, hword, rfl⟩
  · rintro ⟨units', flags, hunits', -, hbytes⟩
    have hsame : units ++ tail = units' ++ Byte.slash :: flags := (List.cons.inj hbytes).2
    have hclosed := hunits'.closed_readRegex rfl pos (flags ++ (readRegex false pos text).rest)
    rwa [← List.cons_append, ← List.append_assoc, ← hsame, ← hsplit] at hclosed
  · rw [if_neg (by simp [hopen])] at htail
    refine ⟨units, inClass, hunits, htail.imp ?_ ?_⟩
    · rintro rfl
      rw [List.append_nil]
    · rintro rfl
      rfl

theorem shape_blockComment {pos : Nat} {text used : Text}
    (hused : text = used ++ (readBlockComment pos text).rest) :
    IsBlockComment (Byte.slash :: Byte.star :: used) (readBlockComment pos text).rest
      (readBlockComment pos text).closed := by
  have hsound := readBlockComment_sound pos text
  refine {
    opens := ⟨used, rfl⟩
    closed_iff := ?_
    of_closed := fun hclosed => ?_
    of_open := rest_of_open_readBlockComment }
  · rw [show (Byte.slash :: Byte.star :: used).drop 2 = used from rfl, ← hused]
    constructor
    · intro hclosed
      rw [if_pos hclosed] at hsound
      obtain ⟨inside, hsplit, -⟩ := hsound
      exact ⟨inside, _, hsplit.symm⟩
    · intro hinfix
      by_contra hopen
      rw [if_neg hopen] at hsound
      exact hsound hinfix
  · rw [if_pos hclosed] at hsound
    obtain ⟨inside, hsplit, hlast⟩ := hsound
    obtain rfl : used = inside ++ utf8 "*/" :=
      List.append_cancel_right (hused.symm.trans hsplit)
    exact ⟨⟨inside, rfl⟩, hlast⟩

theorem shape_lineComment {start pos : Nat} {opener text used : Text}
    (hopener : opener = utf8 "//" ∨ start = 0 ∧ opener = utf8 "#!")
    (hused : text = used ++ (readLineComment pos text).rest) :
    IsLineComment start (opener ++ used) (readLineComment pos text).rest
      (readLineComment pos text).closed := by
  have hrun : used = text.takeWhile fun b => !b.isLineBreak := by
    refine List.append_cancel_right (hused.symm.trans ?_)
    exact List.takeWhile_append_dropWhile.symm
  refine { opens := ?_, inLine := ?_, ends := Text.avoids_dropWhile _ _, closed_eq := rfl }
  · rcases hopener with rfl | ⟨hstart, rfl⟩
    · exact .inl ⟨used, rfl⟩
    · exact .inr ⟨hstart, used, rfl⟩
  · rw [List.forall_mem_append]
    constructor
    · rcases hopener with rfl | ⟨-, rfl⟩ <;> exact Text.forall_mem_of_all (by decide)
    · intro b hb
      rw [hrun] at hb
      simpa using List.mem_takeWhile_imp hb

theorem shape_of_readLiteral? {expect : Expectation} {pos : Nat} {text : Text} {kind : Kind}
    {ending : Ending} (h : readLiteral? expect ⟨pos, text⟩ = some (kind, ending)) :
    ∃ bytes, text = bytes ++ ending.rest ∧ ending.pos = pos + bytes.length ∧
      Shape pos bytes ending.rest ending.closed kind := by
  obtain ⟨bytes, -, hbytes, hpos, -⟩ := Piece.next?_of_literal h
  refine ⟨bytes, hbytes, hpos, ?_⟩
  have hends := endsLine_of_open h
  have hfree := free_of_readLiteral? h
  cases readLiteral?_eq_some_iff.1 h with
  | template => trivial
  | @string _ quote rest hquote =>
      obtain ⟨used, hused, -⟩ := settles_readString quote (pos + 1) rest
      obtain rfl : bytes = quote :: used :=
        List.append_cancel_right (hbytes.symm.trans (congrArg (List.cons quote) hused))
      exact ⟨quote, shape_string hquote hused hends⟩
  | @lineComment _ rest =>
      obtain ⟨used, hused, -⟩ := settles_readLineComment (pos + 2) rest
      obtain rfl : bytes = utf8 "//" ++ used :=
        List.append_cancel_right (hbytes.symm.trans (congrArg (utf8 "//" ++ ·) hused))
      exact shape_lineComment (.inl rfl) hused
  | @blockComment _ rest =>
      obtain ⟨used, hused, -⟩ := settles_readBlockComment (pos + 2) rest
      obtain rfl : bytes = Byte.slash :: Byte.star :: used :=
        List.append_cancel_right (hbytes.symm.trans (congrArg (utf8 "/*" ++ ·) hused))
      exact shape_blockComment hused
  | @regex _ rest hslash hstar hexpect =>
      obtain ⟨used, hused, -⟩ := settles_readRegex false (pos + 1) rest
      obtain rfl : bytes = Byte.slash :: used :=
        List.append_cancel_right (hbytes.symm.trans (congrArg (List.cons Byte.slash) hused))
      exact shape_regex hused hfree hends

/-! ### The regions of a script -/

def ReadFrom (start : Nat) (text : Text) (r : Region) : Prop :=
  ∃ skipped rest expect ending, text = skipped ++ rest ∧
    readLiteral? expect ⟨start + skipped.length, rest⟩ = some (r.kind, ending) ∧
    r =
      { kind := r.kind
        start := start + skipped.length
        stop := ending.pos
        closed := ending.closed }

theorem ReadFrom.skip {start : Nat} {skipped text : Text} {r : Region}
    (h : ReadFrom (start + skipped.length) text r) : ReadFrom start (skipped ++ text) r := by
  obtain ⟨skipped', rest, expect, ending, rfl, hread, hr⟩ := h
  rw [Nat.add_assoc, ← List.length_append] at hread hr
  exact ⟨skipped ++ skipped', rest, expect, ending, (List.append_assoc _ _ _).symm, hread, hr⟩

theorem mem_pushCode {codeStart stop : Nat} {found : Array Region} {r : Region}
    (h : r ∈ pushCode codeStart stop found) : r ∈ found ∨ r.kind = .code := by
  unfold pushCode at h
  split_ifs at h
  · rcases Array.mem_push.1 h with h | rfl
    · exact .inl h
    · exact .inr rfl
  · exact .inl h

/-- Every region that a scan finds is code or was read as a literal where it stands. -/
theorem mem_scanFrom {codeStart : Nat} {expect : Expectation} {found : Array Region}
    {c : Cursor} {r : Region} (h : r ∈ scanFrom codeStart expect found c) :
    r ∈ found ∨ r.kind = .code ∨ ReadFrom c.pos c.rest r := by
  fun_induction scanFrom codeStart expect found c with
  | case1 codeStart expect found pos => exact (mem_pushCode h).imp_right .inl
  | case2 codeStart expect found pos b rest kind ending hread ih =>
      obtain ⟨used, -, hused, hpos, -⟩ := Piece.next?_of_literal hread
      rcases ih h with hfound | hcode | hlater
      · rcases Array.mem_push.1 hfound with hfound | rfl
        · exact (mem_pushCode hfound).imp_right .inl
        · exact .inr (.inr ⟨[], b :: rest, expect, ending, rfl, hread, rfl⟩)
      · exact .inr (.inl hcode)
      · rw [hpos] at hlater
        rw [show (⟨pos, b :: rest⟩ : Cursor).rest = used ++ ending.rest from hused]
        exact .inr (.inr hlater.skip)
  | case3 codeStart expect found pos b rest hread passed ih =>
      obtain ⟨used, -, hused, hsettles⟩ := passCode_settles expect pos b rest
      have hpos : passed.2.pos = pos + used.length := by
        have hpassed := hsettles pos passed.2.rest rfl
        rw [← hused] at hpassed
        exact congrArg (·.2.pos) hpassed
      rcases ih h with hfound | hcode | hlater
      · exact .inl hfound
      · exact .inr (.inl hcode)
      · rw [hpos] at hlater
        rw [show (⟨pos, b :: rest⟩ : Cursor).rest = used ++ passed.2.rest from hused]
        exact .inr (.inr hlater.skip)

/-- The bytes of a region in their place, and its shape. -/
def HasShape (text : Text) (r : Region) : Prop :=
  ∃ before bytes rest, text = before ++ bytes ++ rest ∧ r.start = before.length ∧
    r.stop = before.length + bytes.length ∧ Shape r.start bytes rest r.closed r.kind

theorem ReadFrom.hasShape {text before : Text} {r : Region}
    (h : ReadFrom before.length text r) : HasShape (before ++ text) r := by
  obtain ⟨skipped, rest, expect, ending, rfl, hread, hr⟩ := h
  obtain ⟨bytes, hbytes, hpos, hshape⟩ := shape_of_readLiteral? hread
  rw [← List.length_append] at hr hpos hshape
  refine ⟨before ++ skipped, bytes, ending.rest,
    ?_, by rw [hr], by rw [hr]; exact hpos, by rw [hr]; exact hshape⟩
  rw [hbytes, List.append_assoc, List.append_assoc]

/-- Every literal of a script has the shape of its kind, wherever it stands and whatever stands
around it. -/
theorem scan_hasShape (text : Text) (r : Region) (hr : r ∈ scan text)
    (hcode : r.kind ≠ .code) : HasShape text r := by
  unfold scan at hr
  split_ifs at hr with hbang
  · obtain ⟨more, rfl⟩ := List.isPrefixOf_iff_prefix.1 hbang
    rw [show (utf8 "#!" ++ more).drop 2 = more from rfl, Array.mem_toList_iff] at hr
    obtain ⟨used, hused, htakes⟩ := settles_readLineComment 2 more
    have hpos : (readLineComment 2 more).pos = (utf8 "#!" ++ used).length := by
      have hread := htakes 2 _ (.inl rfl)
      rw [← hused] at hread
      rw [hread, List.length_append]
      rfl
    have hsplit : utf8 "#!" ++ more = utf8 "#!" ++ used ++ (readLineComment 2 more).rest := by
      rw [List.append_assoc, ← hused]
    rcases mem_scanFrom hr with hfound | hkind | hlater
    · obtain rfl := List.mem_singleton.1 (Array.mem_toList_iff.2 hfound)
      refine ⟨[], utf8 "#!" ++ used, _, hsplit, rfl, by simpa using hpos, ?_⟩
      exact shape_lineComment (.inr ⟨rfl, rfl⟩) hused
    · exact absurd hkind hcode
    · rw [hsplit]
      rw [hpos] at hlater
      exact hlater.hasShape
  · rw [Array.mem_toList_iff] at hr
    rcases mem_scanFrom hr with hfound | hkind | hread
    · simp at hfound
    · exact absurd hkind hcode
    · exact @ReadFrom.hasShape text [] r hread

/-- A slash in a class, one that is escaped, and a string that goes on behind an escaped line
break but is never closed. -/
theorem scan_hasShape_mixed :
    let text := utf8 "a = /[/]\\//g; 'b\\\r\nc"
    let regex : Region := { kind := .regex, start := 4, stop := 12 }
    let string : Region := { kind := .string, start := 14, stop := 20, closed := false }
    (regex ∈ scan text ∧ HasShape text regex) ∧ string ∈ scan text ∧ HasShape text string := by
  intro text regex string
  have hregex : regex ∈ scan text := by decide +kernel
  have hstring : string ∈ scan text := by decide +kernel
  exact ⟨⟨hregex, scan_hasShape text regex hregex (by decide)⟩, hstring,
    scan_hasShape text string hstring (by decide)⟩

end LetBlocks.Region
