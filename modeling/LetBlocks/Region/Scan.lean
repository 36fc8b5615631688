import LetBlocks.Region

/-!
The regions of a script are found in one pass from left to right. A place in the script is a
`Cursor`: the bytes still to be read, and how many were read before them. Each reader below
takes the place just inside a literal and returns where the literal ends and whether its
closing mark was there.

Two points need care. A `/` that opens no comment is a division after an operand and the start
of a regular expression anywhere else, so the scan carries an `Expectation`. And a template may
hold substitutions `${ … }`, which hold code, which may hold templates again; `readTemplate`
keeps the substitutions that are open around it as a list instead of calling itself, so that no
nesting is too deep for it.
-/

namespace LetBlocks.Region

/-- A place in a text: how many bytes precede it, and the bytes from there on. -/
structure Cursor where
  pos : Nat
  rest : Text
  deriving DecidableEq, Repr, Inhabited

structure Ending extends Cursor where
  closed : Bool
  deriving DecidableEq, Repr, Inhabited

/-- What may come next in code: an operand, so that `/` opens a regular expression, or an
operator, so that it divides. -/
inductive Expectation
  | operand
  | operator
  deriving DecidableEq, Repr, Inhabited

namespace Cursor

def step : Cursor → Cursor
  | ⟨pos, []⟩ => ⟨pos, []⟩
  | ⟨pos, _ :: rest⟩ => ⟨pos + 1, rest⟩

def skipWhile (p : Byte → Bool) (c : Cursor) : Cursor :=
  ⟨c.pos + (c.rest.takeWhile p).length, c.rest.dropWhile p⟩

theorem length_step_le (c : Cursor) : c.step.rest.length ≤ c.rest.length := by
  rcases c with ⟨pos, _ | ⟨b, rest⟩⟩ <;> simp [step]

theorem length_step_lt {c : Cursor} {b : Byte} {rest : Text} (h : c.rest = b :: rest) :
    c.step.rest.length < c.rest.length := by
  rcases c with ⟨pos, _ | ⟨b, rest⟩⟩
  · simp at h
  · simp [step]

theorem length_skipWhile_le (p : Byte → Bool) (c : Cursor) :
    (c.skipWhile p).rest.length ≤ c.rest.length :=
  (List.dropWhile_suffix p).length_le

theorem length_skipWhile_lt {p : Byte → Bool} {c : Cursor} {b : Byte} {rest : Text}
    (h : c.rest = b :: rest) (hb : p b = true) :
    (c.skipWhile p).rest.length < c.rest.length := by
  have hle : (rest.dropWhile p).length ≤ rest.length := (List.dropWhile_suffix p).length_le
  simp only [skipWhile, h, List.dropWhile_cons, hb, if_true, List.length_cons]
  omega

end Cursor

/-! ### Literals without nesting

Each of these readers is a recursion on the bytes left. Their length lemmas say that a reader
only ever moves forward, which is what the readers built on them need for their own
termination. -/

/-- Reads on inside a string that `quote` opened. An escape takes the byte after the backslash
with it, and both bytes of a CR LF; a line break that is not escaped leaves the string open. -/
def readString (quote : Byte) (pos : Nat) : Text → Ending
  | [] => ⟨⟨pos, []⟩, false⟩
  | b :: rest =>
    if b = Byte.backslash then
      match rest with
      | [] => ⟨⟨pos + 1, []⟩, false⟩
      | [_] => ⟨⟨pos + 2, []⟩, false⟩
      | e :: f :: more =>
        if e = Byte.cr ∧ f = Byte.lf then readString quote (pos + 3) more
        else readString quote (pos + 2) (f :: more)
    else if b = quote then ⟨⟨pos + 1, rest⟩, true⟩
    else if b.isLineBreak then ⟨⟨pos, b :: rest⟩, false⟩
    else readString quote (pos + 1) rest

/-- Reads on inside a regular expression. Between `[` and `]` a `/` does not close it; after
the closing `/` the flags are part of it. A line break leaves it open, and a backslash before
that line break is still inside. -/
def readRegex (inClass : Bool) (pos : Nat) : Text → Ending
  | [] => ⟨⟨pos, []⟩, false⟩
  | b :: rest =>
    if b.isLineBreak then ⟨⟨pos, b :: rest⟩, false⟩
    else if b = Byte.backslash then
      match rest with
      | [] => ⟨⟨pos + 1, []⟩, false⟩
      | e :: more =>
        if e.isLineBreak then ⟨⟨pos + 1, e :: more⟩, false⟩
        else readRegex inClass (pos + 2) more
    else if b = Byte.openSquare then readRegex true (pos + 1) rest
    else if b = Byte.closeSquare then readRegex false (pos + 1) rest
    else if b = Byte.slash ∧ inClass = false then
      ⟨Cursor.skipWhile Byte.isWord ⟨pos + 1, rest⟩, true⟩
    else readRegex inClass (pos + 1) rest

def readBlockComment (pos : Nat) : Text → Ending
  | [] => ⟨⟨pos, []⟩, false⟩
  | b :: rest =>
    if b = Byte.star ∧ rest.head? = some Byte.slash then ⟨⟨pos + 2, rest.tail⟩, true⟩
    else readBlockComment (pos + 1) rest

def readLineComment (pos : Nat) (rest : Text) : Ending :=
  ⟨Cursor.skipWhile (fun b => !b.isLineBreak) ⟨pos, rest⟩, true⟩

theorem length_readString_le (quote : Byte) (pos : Nat) (text : Text) :
    (readString quote pos text).rest.length ≤ text.length := by
  fun_induction readString quote pos text <;> simp_all <;> omega

theorem length_readRegex_le (inClass : Bool) (pos : Nat) (text : Text) :
    (readRegex inClass pos text).rest.length ≤ text.length := by
  fun_induction readRegex inClass pos text with
  | case8 inClass pos b rest =>
    have h := Cursor.length_skipWhile_le Byte.isWord ⟨pos + 1, rest⟩
    simp only [List.length_cons] at h ⊢
    omega
  | _ => simp_all <;> omega

theorem length_readBlockComment_le (pos : Nat) (text : Text) :
    (readBlockComment pos text).rest.length ≤ text.length := by
  fun_induction readBlockComment pos text <;> simp_all <;> omega

theorem length_readLineComment_le (pos : Nat) (rest : Text) :
    (readLineComment pos rest).rest.length ≤ rest.length :=
  Cursor.length_skipWhile_le _ ⟨pos, rest⟩

def readFlat? (expect : Expectation) (c : Cursor) : Option (Kind × Ending) :=
  match c.rest with
  | [] => none
  | b :: rest =>
    if b = Byte.singleQuote ∨
      b = Byte.doubleQuote then some (.string, readString b (c.pos + 1) rest)
    else if b = Byte.slash then
      if rest.head? = some Byte.slash then
      some (.lineComment, readLineComment (c.pos + 2) rest.tail)
      else if rest.head? = some Byte.star then
        some (.blockComment, readBlockComment (c.pos + 2) rest.tail)
      else if expect = .operand then some (.regex, readRegex false (c.pos + 1) rest)
      else none
    else none

theorem length_readFlat?_lt {expect : Expectation} {c : Cursor} {kind : Kind} {e : Ending}
    (h : readFlat? expect c = some (kind, e)) : e.rest.length < c.rest.length := by
  unfold readFlat? at h
  split at h
  · simp at h
  · next b rest hc =>
    have htail : rest.tail.length ≤ rest.length := by simp
    have hstring := length_readString_le b (c.pos + 1) rest
    have hline := length_readLineComment_le (c.pos + 2) rest.tail
    have hblock := length_readBlockComment_le (c.pos + 2) rest.tail
    have hregex := length_readRegex_le false (c.pos + 1) rest
    simp only [hc, List.length_cons]
    split at h
    · cases h; omega
    · split at h
      · split at h
        · cases h; omega
        · split at h
          · cases h; omega
          · split at h
            · cases h; omega
            · simp at h
      · simp at h

/-! ### Code -/

/-- The words that an operand follows. Any other word is an operand itself. -/
def operandKeywords : List Text :=
  ["return", "typeof", "instanceof", "in", "of", "new", "delete", "void", "throw", "case",
    "do", "else", "yield", "await"].map utf8

def Expectation.afterLiteral (expect : Expectation) (kind : Kind) : Expectation :=
  if kind.isComment then expect else .operator

def passCode (expect : Expectation) (c : Cursor) : Expectation × Cursor :=
  match c.rest with
  | [] => (expect, c)
  | b :: _ =>
    if b.isBlank then (expect, c.step)
    else if b.isDigit then (.operator, c.skipWhile fun x => x.isWord || x == Byte.dot)
    else if b.isWord then
      (if c.rest.takeWhile Byte.isWord ∈ operandKeywords then .operand else .operator,
        c.skipWhile Byte.isWord)
    else (if b = Byte.closeParen ∨ b = Byte.closeSquare then .operator else .operand, c.step)

theorem length_passCode_lt {expect : Expectation} {c : Cursor} {b : Byte} {rest : Text}
    (h : c.rest = b :: rest) : (passCode expect c).2.rest.length < c.rest.length := by
  unfold passCode
  split
  · next h' => simp [h'] at h
  · next b' rest' h' =>
    split
    · exact Cursor.length_step_lt h'
    · split
      · next hd => exact Cursor.length_skipWhile_lt h' (by simp [Byte.isWord, hd])
      · split
        · next hw => exact Cursor.length_skipWhile_lt h' hw
        · exact Cursor.length_step_lt h'

/-! ### Templates -/

/-- A substitution that is open: the braces open inside it, and what its code expects. -/
structure Substitution where
  depth : Nat := 0
  expect : Expectation := .operand
  deriving DecidableEq, Repr, Inhabited

inductive TemplatePart
  | chars
  | code (inside : Substitution)
  deriving DecidableEq, Repr, Inhabited

/-- Reads on inside a template. `around` lists the substitutions that enclose the innermost
template, innermost first; the outermost template ends when its backtick is read with none of
them left. -/
def readTemplate (part : TemplatePart) (around : List Substitution) : Cursor → Ending
  | ⟨pos, []⟩ => ⟨⟨pos, []⟩, false⟩
  | ⟨pos, b :: rest⟩ =>
    match part with
    | .chars =>
      if b = Byte.backslash then readTemplate .chars around (Cursor.step ⟨pos + 1, rest⟩)
      else if b = Byte.backtick then
        match around with
        | [] => ⟨⟨pos + 1, rest⟩, true⟩
        | inside :: around =>
          readTemplate (.code { inside with expect := .operator }) around ⟨pos + 1, rest⟩
      else if b = Byte.dollar ∧ rest.head? = some Byte.openCurly then
        readTemplate (.code {}) around (Cursor.step ⟨pos + 1, rest⟩)
      else readTemplate .chars around ⟨pos + 1, rest⟩
    | .code inside =>
      if b = Byte.backtick then readTemplate .chars (inside :: around) ⟨pos + 1, rest⟩
      else
        match h : readFlat? inside.expect ⟨pos, b :: rest⟩ with
        | some (kind, ending) =>
          readTemplate (.code { inside with expect := inside.expect.afterLiteral kind }) around
            ending.toCursor
        | none =>
          if b = Byte.closeCurly then
            match inside.depth with
            | 0 => readTemplate .chars around ⟨pos + 1, rest⟩
            | depth + 1 =>
              readTemplate (.code { depth, expect := .operand }) around ⟨pos + 1, rest⟩
          else
            let depth := if b = Byte.openCurly then inside.depth + 1 else inside.depth
            let passed := passCode inside.expect ⟨pos, b :: rest⟩
            readTemplate (.code { depth, expect := passed.1 }) around passed.2
termination_by c => c.rest.length
decreasing_by
  · exact Nat.lt_succ_of_le (Cursor.length_step_le _)
  · exact Nat.lt_succ_self _
  · exact Nat.lt_succ_of_le (Cursor.length_step_le _)
  · exact Nat.lt_succ_self _
  · exact Nat.lt_succ_self _
  · exact length_readFlat?_lt h
  · exact Nat.lt_succ_self _
  · exact Nat.lt_succ_self _
  · exact length_passCode_lt rfl

theorem length_readTemplate_le (part : TemplatePart) (around : List Substitution)
    (c : Cursor) : (readTemplate part around c).rest.length ≤ c.rest.length := by
  fun_induction readTemplate part around c with
  | case1 => exact Nat.le_refl _
  | case3 => exact Nat.le_succ _
  | case2 _ _ _ ih => exact Nat.le_trans ih (Nat.le_succ_of_le (Cursor.length_step_le _))
  | case5 _ _ _ _ _ _ _ ih =>
      exact Nat.le_trans ih (Nat.le_succ_of_le (Cursor.length_step_le _))
  | case8 _ _ _ _ _ _ _ _ h ih => exact Nat.le_trans ih (Nat.le_of_lt (length_readFlat?_lt h))
  | case11 _ _ _ _ _ _ _ _ _ _ ih =>
      exact Nat.le_trans ih (Nat.le_of_lt (length_passCode_lt rfl))
  | _ => rename_i ih; exact Nat.le_trans ih (Nat.le_succ _)

/-! ### The whole script -/

def readLiteral? (expect : Expectation) (c : Cursor) : Option (Kind × Ending) :=
  if c.rest.head? = some Byte.backtick then some (.template, readTemplate .chars [] c.step)
  else readFlat? expect c

theorem length_readLiteral?_lt {expect : Expectation} {c : Cursor} {kind : Kind} {e : Ending}
    (h : readLiteral? expect c = some (kind, e)) : e.rest.length < c.rest.length := by
  unfold readLiteral? at h
  split at h
  · next hb =>
    obtain ⟨rest, hc⟩ := List.head?_eq_some_iff.1 hb
    cases h
    exact Nat.lt_of_le_of_lt (length_readTemplate_le _ _ _) (Cursor.length_step_lt hc)
  · exact length_readFlat?_lt h

def pushCode (codeStart stop : Nat) (found : Array Region) : Array Region :=
  if codeStart < stop then found.push { kind := .code, start := codeStart, stop } else found

/-- Continues a scan; the code since `codeStart` belongs to no region yet. -/
def scanFrom (codeStart : Nat) (expect : Expectation) (found : Array Region) :
    Cursor → Array Region
  | ⟨pos, []⟩ => pushCode codeStart pos found
  | ⟨pos, b :: rest⟩ =>
    match _h : readLiteral? expect ⟨pos, b :: rest⟩ with
    | some (kind, ending) =>
      scanFrom ending.pos (expect.afterLiteral kind)
        ((pushCode codeStart pos found).push
          { kind, start := pos, stop := ending.pos, closed := ending.closed })
        ending.toCursor
    | none =>
      let passed := passCode expect ⟨pos, b :: rest⟩
      scanFrom codeStart passed.1 found passed.2
termination_by c => c.rest.length
decreasing_by
  · exact length_readLiteral?_lt _h
  · exact length_passCode_lt rfl

/-- Divides a script into its regions. A first line that starts with `#!` is a line comment. -/
def scan (text : Text) : List Region :=
  if (utf8 "#!").isPrefixOf text then
    let ending := readLineComment 2 (text.drop 2)
    (scanFrom ending.pos .operand #[{ kind := .lineComment, start := 0, stop := ending.pos }]
      ending.toCursor).toList
  else (scanFrom 0 .operand #[] ⟨0, text⟩).toList

end LetBlocks.Region
