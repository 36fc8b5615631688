import LetBlocks.Log.Record
import LetBlocks.Proofs.Json.Spelling
import Mathlib.Data.List.Basic

/-!
A record in JSON is one line, whatever bytes its texts hold, and no two records with different
contents are written alike. A reader of JSON accepts the line, and finds the record in it,
exactly if all control characters in the texts are tabs, line feeds or carriage returns. The
log has no escapes for the others; they stand in the line as they are, which JSON does not
allow inside a string.
-/

namespace LetBlocks.Log.Record

open Json Text

/-- What is logged of a record as a JSON value. -/
def toJson (r : Record) : Value :=
  .object
    [(utf8 "ts", .number r.stamp.millis 0), (utf8 "level", .string (utf8 r.level.name)),
      (utf8 "module", .string r.module), (utf8 "msg", .string r.message)]

/-- Bytes that can be written inside a string: all but the control characters for which a log
has no escape. -/
def isWritable (b : Byte) : Bool :=
  Byte.space ≤ b || b == Byte.tab || b == Byte.lf || b == Byte.cr

def allWritable (r : Record) : Bool := (r.module ++ r.message).all isWritable

/-! ### Escapes -/

def form (b : Byte) : Text := (shortEscape? b).getD [b]

theorem escape_append_cons (b : Byte) (text rest : Text) :
    escape (b :: text) ++ rest = form b ++ (escape text ++ rest) := by
  rw [← List.append_assoc]
  rfl

theorem form_cases (b : Byte) :
    (∃ e, form b = [Byte.backslash, e] ∧ shortEscapes.lookup e = some b) ∨
      (b ≠ Byte.doubleQuote ∧ b ≠ Byte.backslash ∧ form b = [b]) := by
  rw [form]
  cases hshort : shortEscape? b with
  | some text => exact .inl (shortEscape?_eq_some hshort)
  | none =>
      refine .inr ⟨?_, ?_, rfl⟩
      · rintro rfl
        cases hshort
      · rintro rfl
        cases hshort

/-- Where a log has all the escapes that it needs, they are those of a report. -/
theorem form_of_isWritable {b : Byte} (h : isWritable b = true) : form b = escapeByte b :=
  forall_byte_lt (fun b => isWritable b = true → form b = escapeByte b) 256 (by decide +kernel)
    b.toNat_lt h

theorem escape_of_isWritable {text : Text} (h : ∀ b ∈ text, isWritable b = true) :
    escape text = Json.escape text :=
  List.flatMap_congr fun b hb => form_of_isWritable (h b hb)

/-- Other control characters stand for themselves. -/
theorem form_of_not_isWritable {b : Byte} (h : isWritable b = false) :
    form b = [b] ∧ b < Byte.space :=
  forall_byte_lt (fun b => isWritable b = false → form b = [b] ∧ b < Byte.space) 256
    (by decide +kernel) b.toNat_lt h

theorem mem_escape_of_not_isWritable {b : Byte} (h : isWritable b = false) {text : Text}
    (hb : b ∈ text) : b ∈ escape text := by
  have hform : b ∈ form b := by
    rw [(form_of_not_isWritable h).1]
    exact List.mem_cons_self
  exact List.mem_flatMap.2 ⟨b, hb, hform⟩

theorem lf_notMem_escape (text : Text) : Byte.lf ∉ escape text := by
  have hform : ∀ b, (form b).contains Byte.lf = false := fun b =>
    forall_byte_lt (fun b => (form b).contains Byte.lf = false) 256 (by decide +kernel)
      b.toNat_lt
  intro hlf
  obtain ⟨b, -, hb⟩ := List.mem_flatMap.1 hlf
  exact Bool.eq_false_iff.1 (hform b) (List.contains_iff_mem.2 hb)

/-- No form of a byte is the beginning of another. -/
theorem form_append_inj {b c : Byte} {rest rest' : Text}
    (h : form b ++ rest = form c ++ rest') : b = c ∧ rest = rest' := by
  rcases form_cases b with ⟨e, hb, hlookup⟩ | ⟨-, hbackslash, hb⟩ <;>
    rcases form_cases c with ⟨e', hc, hlookup'⟩ | ⟨-, hbackslash', hc⟩ <;> rw [hb, hc] at h
  · obtain ⟨he, hrest⟩ := List.cons.inj (List.cons.inj h).2
    rw [he, hlookup'] at hlookup
    exact ⟨(Option.some.inj hlookup).symm, hrest⟩
  · exact absurd (List.cons.inj h).1.symm hbackslash'
  · exact absurd (List.cons.inj h).1 hbackslash
  · exact List.cons.inj h

/-- The quote that ends an escaped text can be told from those inside it, so that both the text
and what follows are determined. -/
theorem escape_append_quote_inj {text text' rest rest' : Text}
    (h : escape text ++ Byte.doubleQuote :: rest = escape text' ++ Byte.doubleQuote :: rest') :
    text = text' ∧ rest = rest' := by
  -- the form of a byte does not begin with a quote
  have hquote : ∀ (b : Byte) (rest rest' : Text), form b ++ rest ≠
      Byte.doubleQuote :: rest' := by
    intro b rest rest' heq
    rcases form_cases b with ⟨e, hform, -⟩ | ⟨hne, -, hform⟩
    · rw [hform] at heq
      exact absurd (List.cons.inj heq).1 (by decide)
    · rw [hform] at heq
      exact hne (List.cons.inj heq).1
  induction text generalizing text' with
  | nil =>
      cases text' with
      | nil => exact ⟨rfl, (List.cons.inj h).2⟩
      | cons c text' =>
          rw [escape_append_cons] at h
          exact absurd h.symm (hquote c _ rest)
  | cons b text ih =>
      cases text' with
      | nil =>
          rw [escape_append_cons] at h
          exact absurd h (hquote b _ rest')
      | cons c text' =>
          rw [escape_append_cons, escape_append_cons] at h
          obtain ⟨rfl, htail⟩ := form_append_inj h
          obtain ⟨rfl, hrest⟩ := ih htail
          exact ⟨rfl, hrest⟩

/-! ### Reading -/

/-- A control character inside a string ends the reading. -/
theorem readString_of_not_isWritable {text : Text} (h : ¬ ∀ b ∈ text, isWritable b = true)
    (rest : Text) : readString (escape text ++ Byte.doubleQuote :: rest) = none := by
  have hitems : readItems (escape text ++ Byte.doubleQuote :: rest) = none := by
    induction text with
    | nil => exact absurd (List.forall_mem_nil _) h
    | cons c text ih =>
        rw [escape_append_cons]
        cases hc : isWritable c with
        | false =>
            obtain ⟨hform, hspace⟩ := form_of_not_isWritable hc
            rw [hform, List.singleton_append]
            exact readItems_control hspace _
        | true =>
            obtain ⟨item, -, hread⟩ := exists_readItems_escapeByte c
            have htext : ¬ ∀ b ∈ text, isWritable b = true :=
              fun htext => h (List.forall_mem_cons.2 ⟨hc, htext⟩)
            rw [form_of_isWritable hc, hread, ih htext, Option.map_none]
  rw [readString, hitems, Option.map_none]

/-- The names of levels need no escapes. -/
theorem escape_name (level : Level) : Json.escape (utf8 level.name) = utf8 level.name := by
  have hall : ∀ x ∈ Level.names, Json.escape (utf8 x.2.1) = utf8 x.2.1 := by decide
  rw [Level.name]
  cases hlookup : Level.names.lookup level with
  | none => decide
  | some names =>
      obtain ⟨before, after, hnames, -⟩ := List.lookup_eq_some_iff.1 hlookup
      exact hall (level, names) (by rw [hnames]; simp)

theorem allWritable_iff {r : Record} :
    r.allWritable = true ↔
      (∀ b ∈ r.module, isWritable b = true) ∧ ∀ b ∈ r.message, isWritable b = true := by
  rw [allWritable, List.all_append, Bool.and_eq_true, List.all_eq_true, List.all_eq_true]

def textEntry (key : String) (text : Text) : Json.Entry :=
  ⟨key, utf8 "\"" ++ escape text ++ utf8 "\"", .string text⟩

def heading (r : Record) : List Json.Entry :=
  [⟨"ts", ofInt r.stamp.millis, .number r.stamp.millis 0⟩,
    ⟨"level", utf8 "\"" ++ utf8 r.level.name ++ utf8 "\"", .string (utf8 r.level.name)⟩]

def jsonBody (r : Record) : Text :=
  object ((r.heading ++ [textEntry "module" r.module, textEntry "msg" r.message]).map fun e =>
    member e.key e.text)

theorem jsonLine_eq (r : Record) : r.jsonLine = r.jsonBody ++ [Byte.lf] := by
  rw [jsonLine, stringMember_eq, stringMember_eq, stringMember_eq]
  rfl

theorem valid_of_mem_heading (r : Record) : ∀ e ∈ r.heading, e.Valid := by
  rw [heading, List.forall_mem_cons, List.forall_mem_singleton]
  refine ⟨Entry.valid_mk (by decide) (spells_integer _), Entry.valid_mk (by decide) ?_⟩
  have hspells := spells_string (utf8 r.level.name)
  rwa [escape_name] at hspells

theorem valid_textEntry {key : String} (hkey : Json.escape (utf8 key) = utf8 key) {text : Text}
    (h : ∀ b ∈ text, isWritable b = true) : (textEntry key text).Valid := by
  refine Entry.valid_mk hkey ?_
  rw [escape_of_isWritable h]
  exact spells_string text

theorem spells_jsonBody {r : Record} (h : r.allWritable = true) :
    Spells r.jsonBody r.toJson := by
  obtain ⟨hmodule, hmessage⟩ := allWritable_iff.1 h
  refine spells_object _ (by simp) ?_
  rw [List.forall_mem_append, List.forall_mem_cons, List.forall_mem_singleton]
  exact ⟨valid_of_mem_heading r, valid_textEntry (by decide) hmodule,
    valid_textEntry (by decide) hmessage⟩

theorem unreadable_textEntry {text : Text} (h : ¬ ∀ b ∈ text, isWritable b = true)
    (key : String) : Unreadable (textEntry key text).text :=
  unreadable_quoted (readString_of_not_isWritable h)

theorem decode_jsonLine_of_not_allWritable {r : Record} (h : r.allWritable = false) :
    decode r.jsonLine = none := by
  rw [jsonLine_eq]
  have hkeys : Json.escape (utf8 "module") = utf8 "module" ∧
      Json.escape (utf8 "msg") = utf8 "msg" := by decide
  by_cases hmodule : ∀ b ∈ r.module, isWritable b = true
  · have hmessage : ¬ ∀ b ∈ r.message, isWritable b = true := fun hmessage =>
      Bool.eq_false_iff.1 h (allWritable_iff.2 ⟨hmodule, hmessage⟩)
    have hvalid : ∀ e ∈ r.heading ++ [textEntry "module" r.module], e.Valid := by
      rw [List.forall_mem_append, List.forall_mem_singleton]
      exact ⟨valid_of_mem_heading r, valid_textEntry hkeys.1 hmodule⟩
    exact decode_object_of_unreadable hvalid hkeys.2 (unreadable_textEntry hmessage "msg") [] _
  · exact decode_object_of_unreadable (valid_of_mem_heading r) hkeys.1
      (unreadable_textEntry hmodule "module") [_] _

/-! ### The bytes of a line -/

theorem jsonBody_eq (r : Record) :
    r.jsonBody = utf8 "\x7b\"ts\":" ++
      (ofInt r.stamp.millis ++ (utf8 ",\"level\":\"" ++ (utf8 r.level.name ++
      (utf8 "\",\"module\":\"" ++
        (escape r.module ++ (utf8 "\",\"msg\":\"" ++ (escape r.message ++
        utf8 "\"\x7d"))))))) := by
  simp only [jsonBody, heading, textEntry, List.cons_append, List.nil_append, List.map_cons,
    List.map_nil, object, member, List.intercalate_cons_cons, List.intercalate_singleton,
    List.append_assoc]
  rfl

theorem mem_jsonBody (r : Record) :
    ∀ b ∈ r.jsonBody, Byte.space ≤ b ∨ b ∈ escape r.module ∨ b ∈ escape r.message := by
  have hnumber := (spells_integer r.stamp.millis).printable
  have hname : ∀ b ∈ utf8 r.level.name, Byte.space ≤ b :=
    escape_name r.level ▸ space_le_of_mem_escape
  rw [jsonBody_eq]
  simp only [List.forall_mem_append]
  refine ⟨?_, fun b hb => .inl (hnumber b hb), ?_, fun b hb => .inl (hname b hb), ?_,
    fun b hb => .inr (.inl hb), ?_, fun b hb => .inr (.inr hb), ?_⟩
  all_goals exact fun b hb => .inl (forall_mem_of_all (p := (Byte.space ≤ ·)) (by decide) b hb)

theorem lf_notMem_jsonBody (r : Record) : Byte.lf ∉ r.jsonBody := by
  intro hlf
  rcases mem_jsonBody r _ hlf with hspace | hmodule | hmessage
  · exact absurd hspace (by decide)
  · exact lf_notMem_escape _ hmodule
  · exact lf_notMem_escape _ hmessage

theorem printable_jsonBody_iff (r : Record) :
    (∀ b ∈ r.jsonBody, Byte.space ≤ b) ↔ r.allWritable = true := by
  refine ⟨fun hbody => ?_, fun h => (spells_jsonBody h).printable⟩
  have hwritable : ∀ text, (∀ b ∈ escape text, b ∈ r.jsonBody) →
      ∀ b ∈ text, isWritable b = true := by
    intro text htext b hb
    by_contra hnot
    rw [Bool.not_eq_true] at hnot
    have hspace := hbody b (htext b (mem_escape_of_not_isWritable hnot hb))
    exact absurd (form_of_not_isWritable hnot).2 (UInt8.not_lt.2 hspace)
  rw [allWritable_iff]
  constructor
  · refine hwritable r.module fun b hb => ?_
    rw [jsonBody_eq]
    simp [hb]
  · refine hwritable r.message fun b hb => ?_
    rw [jsonBody_eq]
    simp [hb]

theorem ofInt_append_comma_inj {n n' : Int} {rest rest' : Text}
    (h : ofInt n ++ Byte.comma :: rest = ofInt n' ++ Byte.comma :: rest') :
    n = n' ∧ rest = rest' := by
  have hread := congrArg readNumber h
  have hstop : ∀ rest, Avoids continuesNumber (Byte.comma :: rest) := fun _ => rfl
  rw [readNumber_ofInt n (hstop rest), readNumber_ofInt n' (hstop rest')] at hread
  injection hread with hread
  obtain ⟨hvalue, hcomma⟩ := Prod.mk.inj hread
  injection hvalue with hn
  exact ⟨hn, (List.cons.inj hcomma).2⟩

theorem jsonBody_inj {r r' : Record} (h : r.jsonBody = r'.jsonBody) :
    r.stamp.millis = r'.stamp.millis ∧ r.level.name = r'.level.name ∧ r.module = r'.module ∧
      r.message = r'.message := by
  have hname : ∀ level : Level, utf8 level.name = escape (utf8 level.name) := fun level => by
    rw [escape_of_isWritable, escape_name]
    intro b hb
    rw [isWritable, decide_eq_true (space_le_of_mem_escape b (escape_name level ▸ hb))]
    rfl
  rw [jsonBody_eq, jsonBody_eq, hname, hname r'.level] at h
  obtain ⟨hmillis, h⟩ := ofInt_append_comma_inj (List.append_cancel_left h)
  obtain ⟨hlevel, h⟩ := escape_append_quote_inj (List.append_cancel_left h)
  obtain ⟨hmodule, h⟩ := escape_append_quote_inj (List.append_cancel_left h)
  obtain ⟨hmessage, -⟩ := escape_append_quote_inj (List.append_cancel_left h)
  exact ⟨hmillis, utf8_injective hlevel, hmodule, hmessage⟩

/-- In JSON a record is one line. It is JSON, and then stands for the time, the level, the
module and the message of the record, byte for byte, exactly if all control characters of its
texts are tabs, line feeds or carriage returns; otherwise control characters stand inside its
strings. In any case the line determines what is logged. -/
theorem decode_jsonLine (r : Record) :
    (∃ body, r.jsonLine = body ++ [Byte.lf] ∧ Byte.lf ∉ body ∧
        ((∀ b ∈ body, Byte.space ≤ b) ↔ r.allWritable = true)) ∧
      decode r.jsonLine = (if r.allWritable then some r.toJson else none) ∧
      ∀ r' : Record, r.jsonLine = r'.jsonLine ↔
        r.stamp.millis = r'.stamp.millis ∧ r.level.name = r'.level.name ∧
          r.module = r'.module ∧ r.message = r'.message := by
  refine ⟨⟨r.jsonBody, jsonLine_eq r, lf_notMem_jsonBody r, printable_jsonBody_iff r⟩, ?_,
    fun r' => ?_⟩
  · split_ifs with hwritable
    · rw [jsonLine_eq]
      exact (spells_jsonBody hwritable).decode_append (List.forall_mem_singleton.2 rfl)
        (List.cons_ne_nil _ _)
    · exact decode_jsonLine_of_not_allWritable (Bool.eq_false_iff.2 hwritable)
  · rw [jsonLine_eq, jsonLine_eq, List.append_cancel_right_eq]
    refine ⟨jsonBody_inj, ?_⟩
    rintro ⟨hmillis, hname, hmodule, hmessage⟩
    rw [jsonBody_eq, jsonBody_eq, hmillis, hname, hmodule, hmessage]

/-- The character with the number one has no escape in a log, and a line with it is no JSON. -/
theorem jsonLine_with_raw_control :
    let r : Record :=
      { level := Level.info
        module := utf8 "m"
        message := [0x01]
        stamp := { millis := 0, clock := [] } }
    r.jsonLine.contains 0x01 = true ∧ decode r.jsonLine = none := by
  intro r
  exact ⟨by decide +kernel, decode_jsonLine_of_not_allWritable (by decide)⟩

end LetBlocks.Log.Record
