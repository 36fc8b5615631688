import LetBlocks.Proofs.Json.Decoder
import LetBlocks.Proofs.Text.Bytes

/-!
The escaped form of a text is read back as the text, the digits of a number as the number, and
an object whose members are read back is read back as a whole. All of it is free of control
characters, so that what is written stays on one line, whatever bytes it stands for.
Conversely, an object one of whose members cannot be read is not read at all.
-/

namespace LetBlocks.Json

open Text

/-! ### Strings -/

def Item.before (item : Item) (read : List Item × Text) : List Item × Text :=
  (item :: read.1, read.2)

theorem readItems_quote (text : Text) :
    readItems (Byte.doubleQuote :: text) = some ([], text) := by
  rw [readItems.eq_def]
  exact if_pos rfl

theorem readItems_short {e c : Byte} (h : shortEscapes.lookup e = some c) (text : Text) :
    readItems (Byte.backslash :: e :: text) = (readItems text).map (Item.byte c).before := by
  rw [readItems.eq_def]
  simp only [h, if_pos]
  rfl

theorem readItems_unit {h₁ h₂ h₃ h₄ : Byte} {n : Nat} (h : codeUnit? h₁ h₂ h₃ h₄ = some n)
    (text : Text) :
    readItems (Byte.backslash :: 0x75 :: h₁ :: h₂ :: h₃ :: h₄ :: text) =
      (readItems text).map (Item.code n).before := by
  have hlookup : shortEscapes.lookup 0x75 = none := by decide
  rw [readItems.eq_def]
  simp only [hlookup, h, if_pos]
  rfl

theorem readItems_plain {b : Byte} (hquote : b ≠ Byte.doubleQuote)
    (hbackslash : b ≠ Byte.backslash) (hspace : ¬ b < Byte.space) (text : Text) :
    readItems (b :: text) = (readItems text).map (Item.byte b).before := by
  rw [readItems.eq_def]
  simp only [if_neg hquote, if_neg hbackslash, if_neg hspace]
  rfl

theorem readItems_control {b : Byte} (h : b < Byte.space) (text : Text) :
    readItems (b :: text) = none := by
  have hquote : b ≠ Byte.doubleQuote := by
    rintro rfl
    exact absurd h (by decide)
  have hbackslash : b ≠ Byte.backslash := by
    rintro rfl
    exact absurd h (by decide)
  rw [readItems.eq_def]
  simp only [if_neg hquote, if_neg hbackslash, if_pos h]

/-- What can be computed for all bytes below a bound. -/
theorem forall_byte_lt (P : Byte → Prop) (bound : Nat) (h : ∀ n < bound, P n.toUInt8)
    {b : Byte} (hb : b.toNat < bound) : P b := by
  have hP := h b.toNat hb
  rwa [show b.toNat.toUInt8 = b from UInt8.ofNat_toNat] at hP

/-- The number of a control character is read back from its two digits. -/
theorem codeUnit?_hexDigit {b : Byte} (h : b < Byte.space) :
    codeUnit? 0x30 0x30 (hexDigit (b / 16)) (hexDigit (b % 16)) = some b.toNat :=
  forall_byte_lt (fun b => codeUnit? 0x30 0x30 (hexDigit (b / 16)) (hexDigit (b % 16)) =
    some b.toNat) 32
    (by decide +kernel) (UInt8.lt_iff_toNat_lt.1 h)

theorem encode_control {b : Byte} (h : b < Byte.space) : encode b.toNat = [b] :=
  forall_byte_lt (fun b => encode b.toNat = [b]) 32 (by decide +kernel)
    (UInt8.lt_iff_toNat_lt.1 h)

/-- A control character is no half of a surrogate pair. -/
theorem meaning_control {b : Byte} (h : b < Byte.space) (items : List Item) :
    meaning (.code b.toNat :: items) = b :: meaning items := by
  have hhigh : ¬ b.toNat / 0x400 = 0x36 := by
    rw [Nat.div_eq_of_lt (Nat.lt_trans (UInt8.lt_iff_toNat_lt.1 h) (by decide))]
    decide
  have happend : meaning (.code b.toNat :: items) = encode b.toNat ++ meaning items := by
    rcases items with _ | ⟨_ | low, items⟩
    · rfl
    · rfl
    · exact if_neg fun hpair => hhigh hpair.1
  rw [happend, encode_control h]
  rfl

theorem shortEscape?_eq_some {b : Byte} {text : Text} (h : shortEscape? b = some text) :
    ∃ e, text = [Byte.backslash, e] ∧ shortEscapes.lookup e = some b := by
  unfold shortEscape? at h
  split_ifs at h with h₁ h₂ h₃ h₄ h₅
  all_goals
    subst b
    obtain rfl := Option.some.inj h
    exact ⟨_, rfl, by decide⟩

/-- A byte inside a string is escaped by a letter, escaped by its number, or stands for
itself. -/
theorem escapeByte_cases (b : Byte) :
    (∃ e, escapeByte b = [Byte.backslash, e] ∧ shortEscapes.lookup e = some b) ∨
      (b < Byte.space ∧
        escapeByte b = [Byte.backslash, 0x75, 0x30, 0x30, hexDigit (b / 16),
          hexDigit (b % 16)]) ∨
      (b ≠ Byte.doubleQuote ∧ b ≠ Byte.backslash ∧ ¬ b < Byte.space ∧ escapeByte b = [b]) := by
  unfold escapeByte
  cases hshort : shortEscape? b with
  | some text => exact .inl (shortEscape?_eq_some hshort)
  | none =>
      dsimp only
      split_ifs with hbackspace hff hspace
      · exact .inl ⟨_, rfl, hbackspace ▸ by decide⟩
      · exact .inl ⟨_, rfl, hff ▸ by decide⟩
      · exact .inr (.inl ⟨hspace, rfl⟩)
      · refine .inr (.inr ⟨?_, ?_, hspace, rfl⟩)
        · rintro rfl
          cases hshort
        · rintro rfl
          cases hshort

theorem exists_readItems_escapeByte (b : Byte) :
    ∃ item : Item, (∀ items, meaning (item :: items) = b :: meaning items) ∧
      ∀ text, readItems (escapeByte b ++ text) = (readItems text).map item.before := by
  rcases escapeByte_cases b with
    ⟨e, hescape, hlookup⟩ | ⟨hspace, hescape⟩ | ⟨hquote, hbackslash, hspace, hescape⟩
  · rw [hescape]
    exact ⟨.byte b, fun _ => rfl, readItems_short hlookup⟩
  · rw [hescape]
    exact ⟨.code b.toNat, meaning_control hspace, readItems_unit (codeUnit?_hexDigit hspace)⟩
  · rw [hescape]
    exact ⟨.byte b, fun _ => rfl, readItems_plain hquote hbackslash hspace⟩

theorem readString_escape (text rest : Text) :
    readString (escape text ++ Byte.doubleQuote :: rest) = some (text, rest) := by
  have hitems : ∃ items,
      readItems (escape text ++ Byte.doubleQuote :: rest) = some (items, rest) ∧
        meaning items = text := by
    induction text with
    | nil => exact ⟨[], readItems_quote rest, rfl⟩
    | cons b text ih =>
        obtain ⟨items, hread, hmeaning⟩ := ih
        obtain ⟨item, hitem, hescape⟩ := exists_readItems_escapeByte b
        refine ⟨item :: items, ?_, by rw [hitem, hmeaning]⟩
        rw [escape, List.flatMap_cons, List.append_assoc, hescape, ← escape, hread]
        rfl
  obtain ⟨items, hread, hmeaning⟩ := hitems
  rw [readString, hread, ← hmeaning]
  rfl

theorem leftInverse_unescape_escape : Function.LeftInverse unescape escape := by
  intro text
  rw [unescape, readString_escape]

theorem space_le_of_mem_escape {text : Text} : ∀ b ∈ escape text, Byte.space ≤ b := by
  intro b hb
  obtain ⟨c, -, hc⟩ := List.mem_flatMap.1 hb
  have hbytes : (escapeByte c).all (Byte.space ≤ ·) = true :=
    forall_byte_lt (fun c => (escapeByte c).all (Byte.space ≤ ·) = true) 256
      (by decide +kernel) c.toNat_lt
  simpa using List.all_eq_true.1 hbytes b hc

/-! ### Numbers -/

theorem isDigit_ofDigit : ∀ n < 10, (Byte.ofDigit n).isDigit = true := by decide

theorem toNat_ofDigit : ∀ n < 10, (Byte.ofDigit n).toNat - 0x30 = n := by decide

theorem isDigit_of_mem_ofNat (n : Nat) : ∀ b ∈ ofNat n, b.isDigit = true := by
  fun_induction ofNat n with
  | case1 n hlt => exact List.forall_mem_singleton.2 (isDigit_ofDigit n hlt)
  | case2 n hle ih =>
      rw [List.forall_mem_append, List.forall_mem_singleton]
      exact ⟨ih, isDigit_ofDigit _ (Nat.mod_lt _ (by decide))⟩

theorem natural_ofNat (n : Nat) : natural (ofNat n) = n := by
  fun_induction ofNat n with
  | case1 n hlt =>
      rw [natural, List.foldl_cons, List.foldl_nil, toNat_ofDigit n hlt]
      omega
  | case2 n hle ih =>
      rw [natural, List.foldl_append, ← natural, ih, List.foldl_cons, List.foldl_nil,
        toNat_ofDigit _ (Nat.mod_lt _ (by decide))]
      omega

theorem ofNat_ne_nil (n : Nat) : ofNat n ≠ [] := by
  unfold ofNat
  split_ifs <;> simp

/-- Only zero is written with a zero in front. -/
theorem head?_ofNat {n : Nat} (h : n ≠ 0) : (ofNat n).head? ≠ some 0x30 := by
  fun_induction ofNat n with
  | case1 n hlt =>
      have hall : ∀ n < 10, n ≠ 0 → Byte.ofDigit n ≠ 0x30 := by decide
      simpa using hall n hlt h
  | case2 n hle ih =>
      obtain ⟨b, more, hcons⟩ := List.exists_cons_of_ne_nil (ofNat_ne_nil (n / 10))
      have hrest := ih (by omega)
      rw [hcons] at hrest ⊢
      exact hrest

def continuesNumber (b : Byte) : Bool := b.isDigit || b == Byte.dot || b == 0x65 || b == 0x45

theorem readDigits_append {digits rest : Text} (hne : digits ≠ [])
    (hdigits : ∀ b ∈ digits, b.isDigit = true) (hrest : Avoids Byte.isDigit rest) :
    readDigits (digits ++ rest) = some (digits, rest) := by
  rw [readDigits, takeWhile_append_stop hdigits hrest, dropWhile_append_stop hdigits hrest]
  exact if_neg hne

theorem readWhole_ofNat (n : Nat) {rest : Text} (hrest : Avoids Byte.isDigit rest) :
    readWhole (ofNat n ++ rest) = some (ofNat n, rest) := by
  have hzero : ¬ ((ofNat n).head? = some 0x30 ∧ ofNat n ≠ [0x30]) := by
    rintro ⟨hhead, hne⟩
    by_cases hn : n = 0
    · subst hn
      exact hne (by rw [ofNat]; rfl)
    · exact head?_ofNat hn hhead
  rw [readWhole, readDigits_append (ofNat_ne_nil n) (isDigit_of_mem_ofNat n) hrest]
  exact if_neg hzero

/-- The sign is split off, and the digits of the magnitude are left. -/
theorem readMinus_ofInt (n : Int) (rest : Text) :
    readMinus (ofInt n ++ rest) = (decide (n < 0), ofNat n.natAbs ++ rest) := by
  cases n with
  | ofNat n =>
      obtain ⟨b, more, hcons⟩ := List.exists_cons_of_ne_nil (ofNat_ne_nil n)
      have hdigit : b.isDigit = true := isDigit_of_mem_ofNat n b (hcons ▸ List.mem_cons_self)
      have hdash : b ≠ Byte.dash := by
        rintro rfl
        cases hdigit
      rw [ofInt, Int.ofNat_eq_natCast, decide_eq_false (Int.not_lt.2 (Int.natCast_nonneg n)),
        Int.natAbs_natCast, hcons]
      exact if_neg hdash
  | negSucc n =>
      rw [ofInt, decide_eq_true (Int.negSucc_lt_zero n)]
      rfl

/-- Where a number cannot go on, there is neither a fraction nor an exponent. -/
theorem number_ends {rest : Text} (h : Avoids continuesNumber rest) :
    Avoids Byte.isDigit rest ∧ readFraction rest = some ([], rest) ∧
      readExponent rest = some (0, rest) := by
  cases rest with
  | nil => exact ⟨rfl, rfl, rfl⟩
  | cons b rest =>
      simp only [avoids_cons, continuesNumber, Bool.or_eq_false_iff,
        beq_eq_false_iff_ne] at h ⊢
      obtain ⟨⟨⟨hdigit, hdot⟩, hsmall⟩, hcapital⟩ := h
      exact ⟨hdigit, if_neg hdot, if_neg (by simp [hsmall, hcapital])⟩

theorem readNumber_ofInt (n : Int) {rest : Text} (hrest : Avoids continuesNumber rest) :
    readNumber (ofInt n ++ rest) = some (.number n 0, rest) := by
  obtain ⟨hstop, hfraction, hexponent⟩ := number_ends hrest
  have hsign : (if n < 0 then -(n.natAbs : Int) else n.natAbs) = n := by
    split_ifs <;> omega
  rw [readNumber, readMinus_ofInt]
  simp only [readWhole_ofNat _ hstop, hfraction, hexponent, natural_ofNat, hsign,
    Option.bind_eq_bind, Option.bind_some, List.append_nil, List.length_nil, decide_eq_true_eq]
  rfl

/-! ### Values -/

theorem skip_of_not_isBlank {b : Byte} (h : isBlank b = false) (text : Text) :
    skip (b :: text) = b :: text := by
  rw [skip, List.dropWhile_cons_of_neg (by simp [h])]

theorem expect_cons {b : Byte} (h : isBlank b = false) (c : Byte) (text : Text) :
    expect c (b :: text) = if b = c then some text else none := by
  rw [expect, skip_of_not_isBlank h]

/-- A spelling of a value: without blanks around it and without control characters, and read
back as the value by any reader that is allowed more steps than it has bytes. -/
structure Spells (text : Text) (v : Value) : Prop where
  begins : ∃ b more, text = b :: more ∧ isBlank b = false
  printable : ∀ b ∈ text, Byte.space ≤ b
  reads : ∀ fuel, text.length ≤ fuel → ∀ rest, Avoids continuesNumber rest →
    readValue (fuel + 1) (text ++ rest) = some (v, rest)

theorem Spells.skip_append {text : Text} {v : Value} (h : Spells text v) (rest : Text) :
    skip (text ++ rest) = text ++ rest := by
  obtain ⟨b, more, rfl, hb⟩ := h.begins
  exact skip_of_not_isBlank hb (more ++ rest)

theorem Spells.decode_append {text blanks : Text} {v : Value} (h : Spells text v)
    (hblanks : ∀ b ∈ blanks, isBlank b = true) (hne : blanks ≠ []) :
    decode (text ++ blanks) = some v := by
  have hskip : skip blanks = [] := List.dropWhile_eq_nil_iff.2 hblanks
  obtain ⟨c, more, rfl⟩ := List.exists_cons_of_ne_nil hne
  have hstop : Avoids continuesNumber (c :: more) := by
    have hc := hblanks c List.mem_cons_self
    simp only [isBlank, Bool.or_eq_true, beq_iff_eq] at hc
    rcases hc with ((rfl | rfl) | rfl) | rfl <;> rfl
  rw [decode, h.skip_append, List.length_append, List.length_cons, ← Nat.add_assoc,
    h.reads _ (Nat.le_add_right _ _) _ hstop]
  exact if_pos hskip

theorem spells_string (text : Text) :
    Spells (utf8 "\"" ++ escape text ++ utf8 "\"") (.string text) where
  begins := ⟨_, _, rfl, by decide⟩
  printable := by
    rw [List.forall_mem_append, List.forall_mem_append]
    exact ⟨⟨forall_mem_of_all (by decide), space_le_of_mem_escape⟩,
      forall_mem_of_all (by decide)⟩
  reads := by
    intro fuel _ rest _
    rw [show utf8 "\"" = [Byte.doubleQuote] from rfl, List.append_assoc, List.append_assoc,
      List.singleton_append, List.singleton_append, readValue, if_pos rfl, readString_escape]
    rfl

def beginsNumber (b : Byte) : Bool := b.isDigit || b == Byte.dash

theorem readWord_of_beginsNumber {b : Byte} (h : beginsNumber b = true) (text : Text) :
    readWord (b :: text) = none := by
  have hwords : ∀ x ∈ words, (utf8 x.1).head?.any (!beginsNumber ·) = true := by decide
  rw [readWord, List.findSome?_eq_none_iff]
  intro x hx
  have hx := hwords x hx
  rw [Option.map_eq_none_iff, after?]
  refine if_neg ?_
  cases hword : utf8 x.1 with
  | nil =>
      rw [hword] at hx
      cases hx
  | cons c more =>
      rw [hword] at hx
      have hne : c ≠ b := by
        rintro rfl
        simp [h] at hx
      simp [hne]

theorem beginsNumber_of_mem_ofInt {n : Int} : ∀ b ∈ ofInt n, beginsNumber b = true := by
  have hdigits : ∀ n, ∀ b ∈ ofNat n, beginsNumber b = true := fun n b hb => by
    rw [beginsNumber, isDigit_of_mem_ofNat n b hb, Bool.true_or]
  cases n with
  | ofNat n => exact hdigits n
  | negSucc n => exact List.forall_mem_cons.2 ⟨rfl, hdigits _⟩

theorem ofInt_ne_nil (n : Int) : ofInt n ≠ [] := by
  cases n with
  | ofNat n => exact ofNat_ne_nil n
  | negSucc n => exact List.cons_ne_nil _ _

theorem spells_integer (n : Int) : Spells (ofInt n) (.number n 0) := by
  obtain ⟨b, more, hcons⟩ := List.exists_cons_of_ne_nil (ofInt_ne_nil n)
  have hb : beginsNumber b = true := beginsNumber_of_mem_ofInt b (hcons ▸ List.mem_cons_self)
  refine ⟨⟨b, more, hcons, ?_⟩, ?_, ?_⟩
  · grind [isBlank, beginsNumber, Byte.isDigit]
  · intro c hc
    have hc := beginsNumber_of_mem_ofInt c hc
    grind [beginsNumber, Byte.isDigit]
  · -- no word begins with a digit or a minus sign
    intro fuel _ rest hrest
    have hnumber := readNumber_ofInt n hrest
    rw [hcons, List.cons_append] at hnumber ⊢
    rw [readValue, if_neg, if_neg, if_neg, readWord_of_beginsNumber hb, hnumber]
    · rfl
    all_goals
      rintro rfl
      cases hb

theorem spells_natural (n : Nat) : Spells (ofNat n) (.number n 0) := spells_integer n

/-! ### Objects -/

theorem stringMember_eq (key : String) (inside : Text) :
    stringMember key inside = member key (utf8 "\"" ++ inside ++ utf8 "\"") := by
  rw [stringMember, member, show utf8 "\":\"" = utf8 "\":" ++ utf8 "\"" from rfl]
  simp only [List.append_assoc]

structure Entry where
  key : String
  text : Text
  value : Value

/-- The key needs no escapes, and the text spells the value. -/
structure Entry.Valid (e : Entry) : Prop where
  key : escape (utf8 e.key) = utf8 e.key
  spells : Spells e.text e.value

theorem Entry.valid_mk {key : String} {text : Text} {value : Value}
    (hkey : escape (utf8 key) = utf8 key) (hspells : Spells text value) :
    Entry.Valid ⟨key, text, value⟩ :=
  ⟨hkey, hspells⟩

theorem readKey_member {key : String} (hkey : escape (utf8 key) = utf8 key)
    (text tail : Text) :
    readKey (member key text ++ tail) = some (utf8 key, text ++ tail) := by
  have hmember : member key text ++ tail =
      Byte.doubleQuote :: (utf8 key ++ Byte.doubleQuote :: 0x3a :: (text ++ tail)) := by
    rw [member, show utf8 "\"" = [Byte.doubleQuote] from rfl,
      show utf8 "\":" = [Byte.doubleQuote, 0x3a] from rfl]
    simp
  have hstring := readString_escape (utf8 key) (0x3a :: (text ++ tail))
  rw [hkey] at hstring
  rw [hmember, readKey, expect_cons (by decide), if_pos rfl]
  simp [hstring, expect_cons (b := 0x3a) (by decide)]

section

variable {e : Entry} (he : e.Valid) {fuel : Nat} (hfuel : e.text.length ≤ fuel)
include he hfuel

theorem readMembers_last (rest : Text) :
    readMembers (fuel + 2) (member e.key e.text ++ Byte.closeCurly :: rest) =
      some ([(utf8 e.key, e.value)], rest) := by
  have hvalue := he.spells.reads fuel hfuel (Byte.closeCurly :: rest) rfl
  rw [readMembers, readKey_member he.key]
  simp [he.spells.skip_append, hvalue, expect_cons (b := Byte.closeCurly) (by decide)]

theorem readMembers_more (text : Text) :
    readMembers (fuel + 2) (member e.key e.text ++ Byte.comma :: text) =
      (readMembers (fuel + 1) text).map fun read =>
        ((utf8 e.key, e.value) :: read.1, read.2) := by
  have hvalue := he.spells.reads fuel hfuel (Byte.comma :: text) rfl
  rw [readMembers, readKey_member he.key, Option.map_eq_bind]
  simp only [Option.bind_eq_bind, Option.bind_some, he.spells.skip_append, hvalue,
    expect_cons (b := Byte.comma) (by decide), ↓reduceIte]
  rfl

end

theorem length_member (key : String) (text : Text) :
    (member key text).length = (utf8 key).length + text.length + 3 := by
  simp [member, show utf8 "\"" = [Byte.doubleQuote] from rfl,
    show utf8 "\":" = [Byte.doubleQuote, 0x3a] from rfl]
  omega

theorem readMembers_intercalate {entries : List Entry} (hne : entries ≠ [])
    (hvalid : ∀ e ∈ entries, e.Valid) (fuel : Nat) (rest : Text)
    (hfuel : ((utf8 ",").intercalate (entries.map fun e => member e.key e.text)).length ≤
      fuel) :
    readMembers (fuel + 1)
      ((utf8 ",").intercalate (entries.map fun e => member e.key e.text) ++
        Byte.closeCurly :: rest) =
      some (entries.map fun e => (utf8 e.key, e.value), rest) := by
  induction entries generalizing fuel with
  | nil => exact absurd rfl hne
  | cons e entries ih =>
      obtain ⟨he, hvalid⟩ := List.forall_mem_cons.1 hvalid
      have hlength := length_member e.key e.text
      cases entries with
      | nil =>
          rw [List.map_singleton, List.intercalate_singleton] at hfuel ⊢
          obtain ⟨fuel, rfl⟩ : ∃ n, fuel = n + 1 := ⟨fuel - 1, by omega⟩
          exact readMembers_last he (by omega) rest
      | cons e' entries =>
          rw [List.map_cons, List.map_cons, List.intercalate_cons_cons, List.length_append,
            List.length_append] at hfuel
          obtain ⟨fuel, rfl⟩ : ∃ n, fuel = n + 1 := ⟨fuel - 1, by omega⟩
          have hcomma : ∀ text, utf8 "," ++ text = Byte.comma :: text := fun _ => rfl
          rw [List.map_cons] at ih
          rw [List.map_cons, List.map_cons, List.intercalate_cons_cons, List.append_assoc,
            List.append_assoc, hcomma, readMembers_more he (by omega),
            ih (by simp) hvalid fuel (by omega)]
          rfl

theorem space_le_of_mem_intercalate {texts : List Text}
    (h : ∀ text ∈ texts, ∀ b ∈ text, Byte.space ≤ b) :
    ∀ b ∈ (utf8 ",").intercalate texts, Byte.space ≤ b := by
  induction texts with
  | nil => exact List.forall_mem_nil _
  | cons text texts ih =>
      obtain ⟨htext, htexts⟩ := List.forall_mem_cons.1 h
      cases texts with
      | nil => rwa [List.intercalate_singleton]
      | cons text' texts =>
          rw [List.intercalate_cons_cons, List.forall_mem_append, List.forall_mem_append]
          exact ⟨⟨htext, forall_mem_of_all (by decide)⟩, ih htexts⟩

theorem Entry.Valid.printable {e : Entry} (h : e.Valid) :
    ∀ b ∈ member e.key e.text, Byte.space ≤ b := by
  have hkey : ∀ b ∈ utf8 e.key, Byte.space ≤ b := h.key ▸ space_le_of_mem_escape
  rw [member, List.forall_mem_append, List.forall_mem_append, List.forall_mem_append]
  exact ⟨⟨⟨forall_mem_of_all (by decide), hkey⟩, forall_mem_of_all (by decide)⟩,
    h.spells.printable⟩

theorem head?_intercalate_member (key : String) (text : Text) (texts : List Text) :
    ((utf8 ",").intercalate (member key text :: texts)).head? = some Byte.doubleQuote := by
  cases texts with
  | nil =>
      rw [List.intercalate_singleton]
      rfl
  | cons next texts =>
      rw [List.intercalate_cons_cons]
      rfl

/-- The first member begins with a quote, so the object is not taken for an empty one. -/
theorem readValue_object {members : Text} (h : members.head? = some Byte.doubleQuote)
    (fuel : Nat) (rest : Text) :
    readValue (fuel + 1) (Byte.openCurly :: (members ++ Byte.closeCurly :: rest)) =
      (readMembers fuel (members ++ Byte.closeCurly :: rest)).map fun read =>
        (.object read.1, read.2) := by
  obtain ⟨more, rfl⟩ := List.head?_eq_some_iff.1 h
  have hnone : expect Byte.closeCurly (Byte.doubleQuote :: more ++ Byte.closeCurly :: rest) =
      none := by
    rw [List.cons_append, expect_cons (by decide)]
    rfl
  rw [readValue, if_neg (by decide), if_neg (by decide), if_pos rfl, hnone]

theorem object_append (members : List Text) (rest : Text) :
    object members ++ rest =
      Byte.openCurly :: ((utf8 ",").intercalate members ++ Byte.closeCurly :: rest) := by
  rw [object, show utf8 "\x7b" = [Byte.openCurly] from rfl,
    show utf8 "\x7d" = [Byte.closeCurly] from rfl]
  simp

theorem spells_object (entries : List Entry) (hne : entries ≠ [])
    (hvalid : ∀ e ∈ entries, e.Valid) :
    Spells (object (entries.map fun e => member e.key e.text))
      (.object (entries.map fun e => (utf8 e.key, e.value))) where
  begins := ⟨_, _, rfl, by decide⟩
  printable := by
    rw [object, List.forall_mem_append, List.forall_mem_append]
    refine ⟨⟨forall_mem_of_all (by decide), space_le_of_mem_intercalate ?_⟩,
      forall_mem_of_all (by decide)⟩
    rw [List.forall_mem_map]
    exact fun e he => (hvalid e he).printable
  reads := by
    intro fuel hfuel rest _
    have hhead : ((utf8 ",").intercalate (entries.map fun e => member e.key e.text)).head? =
        some Byte.doubleQuote := by
      obtain ⟨e, entries, rfl⟩ := List.exists_cons_of_ne_nil hne
      exact head?_intercalate_member e.key e.text _
    have hlength := congrArg List.length
      (object_append (entries.map fun e => member e.key e.text) [])
    rw [List.append_nil, List.length_cons, List.length_append,
      List.length_singleton] at hlength
    obtain ⟨fuel, rfl⟩ : ∃ n, fuel = n + 1 := ⟨fuel - 1, by omega⟩
    rw [object_append, readValue_object hhead,
      readMembers_intercalate hne hvalid fuel rest (by omega)]
    rfl

/-! ### What cannot be read -/

/-- A text that is not the beginning of any value, whatever follows it. -/
def Unreadable (text : Text) : Prop := ∀ fuel rest, readValue fuel (skip (text ++ rest)) = none

theorem unreadable_quoted {inside : Text}
    (h : ∀ rest, readString (inside ++ Byte.doubleQuote :: rest) = none) :
    Unreadable (utf8 "\"" ++ inside ++ utf8 "\"") := by
  intro fuel rest
  rw [show utf8 "\"" = [Byte.doubleQuote] from rfl, List.append_assoc, List.append_assoc,
    List.singleton_append, List.singleton_append, skip_of_not_isBlank (by decide)]
  cases fuel with
  | zero => rw [readValue]
  | succ fuel => rw [readValue, if_pos rfl, h, Option.map_none]

theorem readMembers_of_unreadable {key : String} (hkey : escape (utf8 key) = utf8 key)
    {text : Text} (h : Unreadable text) (fuel : Nat) (tail : Text) :
    readMembers fuel (member key text ++ tail) = none := by
  cases fuel with
  | zero => rw [readMembers]
  | succ fuel =>
      rw [readMembers, readKey_member hkey]
      simp [h fuel tail]

/-- The members before the one that cannot be read are read, so the failure comes with it. -/
theorem readMembers_intercalate_of_unreadable {before : List Entry}
    (hbefore : ∀ e ∈ before, e.Valid) {key : String} (hkey : escape (utf8 key) = utf8 key)
    {text : Text} (htext : Unreadable text) (after : List Text) (fuel : Nat) (rest : Text)
    (hfuel :
      ((utf8 ",").intercalate
        (before.map (fun e => member e.key e.text) ++ member key text :: after)).length ≤
      fuel) :
    readMembers (fuel + 1)
      ((utf8 ",").intercalate
        (before.map (fun e => member e.key e.text) ++ member key text :: after) ++ rest) =
      none := by
  induction before generalizing fuel with
  | nil =>
      rw [List.map_nil, List.nil_append]
      cases after with
      | nil =>
          rw [List.intercalate_singleton]
          exact readMembers_of_unreadable hkey htext _ _
      | cons next after =>
          rw [List.intercalate_cons_cons, List.append_assoc, List.append_assoc]
          exact readMembers_of_unreadable hkey htext _ _
  | cons e before ih =>
      obtain ⟨he, hbefore⟩ := List.forall_mem_cons.1 hbefore
      have hne : before.map (fun e => member e.key e.text) ++ member key text :: after ≠
          [] := by simp
      rw [List.map_cons, List.cons_append, List.intercalate_cons_of_ne_nil hne] at hfuel ⊢
      rw [List.length_append, List.length_append, length_member] at hfuel
      obtain ⟨fuel, rfl⟩ : ∃ n, fuel = n + 1 := ⟨fuel - 1, by omega⟩
      have hcomma : ∀ text, utf8 "," ++ text = Byte.comma :: text := fun _ => rfl
      rw [List.append_assoc, List.append_assoc, hcomma, readMembers_more he (by omega),
        ih hbefore fuel (by omega), Option.map_none]

theorem decode_object_of_unreadable {before : List Entry} (hbefore : ∀ e ∈ before, e.Valid)
    {key : String} (hkey : escape (utf8 key) = utf8 key) {text : Text}
    (htext : Unreadable text) (after : List Text) (rest : Text) :
    decode (object (before.map (fun e => member e.key e.text) ++ member key text :: after) ++
      rest) = none := by
  have hhead : ((utf8 ",").intercalate
      (before.map (fun e => member e.key e.text) ++ member key text :: after)).head? =
        some Byte.doubleQuote := by
    cases before with
    | nil => exact head?_intercalate_member key text after
    | cons e before => exact head?_intercalate_member e.key e.text _
  have hskip : ∀ members, skip (object members ++ rest) = object members ++ rest := fun _ =>
    skip_of_not_isBlank (by decide) _
  rw [decode, hskip, object_append, List.length_cons, readValue_object hhead]
  obtain ⟨fuel, hfuel⟩ : ∃ n, ((utf8 ",").intercalate
      (before.map (fun e => member e.key e.text) ++ member key text :: after) ++
        Byte.closeCurly :: rest).length =
        n + 1 := ⟨_, by rw [List.length_append, List.length_cons]; rfl⟩
  rw [hfuel, readMembers_intercalate_of_unreadable hbefore hkey htext]
  · rfl
  · rw [List.length_append, List.length_cons] at hfuel
    omega

end LetBlocks.Json
