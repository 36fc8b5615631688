import LetBlocks.Json

/-!
JSON in bytes, from the reader's side. A string may hold any bytes but quotes, backslashes and
control characters, which are escaped; nothing asks whether its bytes are well-formed UTF-8.
The reader is one of recursive descent: each part takes a text and returns what it has read
together with what follows.
-/

namespace LetBlocks.Json

/-- A value of JSON. The number `m`, `e` is `m` times the power of ten with the exponent
`e`. -/
inductive Value
  | null
  | bool (b : Bool)
  | number (significand exponent : Int)
  | string (text : Text)
  | array (elements : List Value)
  | object (members : List (Text × Value))

/-! ### Strings -/

/-- What stands between the quotes of a string: bytes, and the 16-bit code units of escapes
with four digits. -/
inductive Item
  | byte (b : Byte)
  | code (n : Nat)
  deriving DecidableEq, Repr

def shortEscapes : List (Byte × Byte) :=
  [(0x22, 0x22), (0x5c, 0x5c), (0x2f, 0x2f), (0x62, 0x08), (0x66, 0x0c), (0x6e, 0x0a),
    (0x72, 0x0d), (0x74, 0x09)]

def hexValue? (b : Byte) : Option Nat :=
  if b.isDigit then some (b.toNat - 0x30)
  else if 0x61 ≤ b ∧ b ≤ 0x66 then some (b.toNat - 0x57)
  else if 0x41 ≤ b ∧ b ≤ 0x46 then some (b.toNat - 0x37)
  else none

def codeUnit? (a b c d : Byte) : Option Nat := do
  let a ← hexValue? a
  let b ← hexValue? b
  let c ← hexValue? c
  let d ← hexValue? d
  some (((a * 16 + b) * 16 + c) * 16 + d)

def readItems : Text → Option (List Item × Text)
  | [] => none
  | b :: text =>
    if b = Byte.doubleQuote then some ([], text)
    else if b = Byte.backslash then
      match text with
      | [] => none
      | e :: text =>
        match shortEscapes.lookup e with
        | some c => (readItems text).map fun (items, rest) => (.byte c :: items, rest)
        | none =>
          match text with
          | h₁ :: h₂ :: h₃ :: h₄ :: text =>
            match if e = 0x75 then codeUnit? h₁ h₂ h₃ h₄ else none with
            | some n => (readItems text).map fun (items, rest) => (.code n :: items, rest)
            | none => none
          | _ => none
    else if b < Byte.space then none
    else (readItems text).map fun (items, rest) => (.byte b :: items, rest)

/-- The bytes of a code point; those of U+FFFD for half of a surrogate pair. -/
def encode (n : Nat) : Text :=
  String.utf8EncodeChar (Char.ofNat (if n.isValidChar then n else 0xfffd))

/-- The text that the items of a string stand for. Two code units can be the halves of one code
point. -/
def meaning : List Item → Text
  | [] => []
  | .byte b :: items => b :: meaning items
  | .code high :: .code low :: items =>
    if high / 0x400 = 0x36 ∧ low / 0x400 = 0x37 then
      encode (0x10000 + high % 0x400 * 0x400 + low % 0x400) ++ meaning items
    else encode high ++ meaning (.code low :: items)
  | .code n :: items => encode n ++ meaning items

def readString (text : Text) : Option (Text × Text) :=
  (readItems text).map fun (items, rest) => (meaning items, rest)

/-- The text that the inside of a string stands for; empty for what cannot stand between
quotes. -/
def unescape (inside : Text) : Text :=
  match readString (inside ++ [Byte.doubleQuote]) with
  | some (text, []) => text
  | _ => []

/-! ### Numbers -/

def natural (digits : Text) : Nat := digits.foldl (fun n b => 10 * n + (b.toNat - 0x30)) 0

def readDigits (text : Text) : Option (Text × Text) :=
  let digits := text.takeWhile Byte.isDigit
  if digits = [] then none else some (digits, text.dropWhile Byte.isDigit)

def readMinus : Text → Bool × Text
  | [] => (false, [])
  | b :: text => if b = Byte.dash then (true, text) else (false, b :: text)

/-- Reads the digits before the point. A zero in front of other digits is not allowed. -/
def readWhole (text : Text) : Option (Text × Text) := do
  let (digits, rest) ← readDigits text
  if digits.head? = some 0x30 ∧ digits ≠ [0x30] then none else some (digits, rest)

def readFraction : Text → Option (Text × Text)
  | [] => some ([], [])
  | b :: text => if b = Byte.dot then readDigits text else some ([], b :: text)

def readExponent : Text → Option (Int × Text)
  | [] => some (0, [])
  | b :: text =>
    if b = 0x65 ∨ b = 0x45 then do
      let (negative, text) :=
        if text.head? = some 0x2b then (false, text.tail) else readMinus text
      let (digits, rest) ← readDigits text
      some (if negative then -(natural digits : Int) else natural digits, rest)
    else some (0, b :: text)

def readNumber (text : Text) : Option (Value × Text) := do
  let (negative, text) := readMinus text
  let (whole, text) ← readWhole text
  let (fraction, text) ← readFraction text
  let (exponent, rest) ← readExponent text
  let magnitude : Int := natural (whole ++ fraction)
  some (.number (if negative then -magnitude else magnitude) (exponent - fraction.length),
    rest)

/-! ### Values -/

def isBlank (b : Byte) : Bool :=
  b == Byte.space || b == Byte.tab || b == Byte.lf || b == Byte.cr

def skip (text : Text) : Text := text.dropWhile isBlank

def expect (b : Byte) (text : Text) : Option Text :=
  match skip text with
  | [] => none
  | c :: rest => if c = b then some rest else none

def readKey (text : Text) : Option (Text × Text) := do
  let text ← expect Byte.doubleQuote text
  let (key, text) ← readString text
  let text ← expect 0x3a text
  some (key, text)

def words : List (String × Value) :=
  [("null", .null), ("true", .bool true), ("false", .bool false)]

def readWord (text : Text) : Option (Value × Text) :=
  words.findSome? fun (word, v) => (text.after? word).map fun rest => (v, rest)

mutual

/-- Reads a value. Each value in a value and each element or member takes one of `fuel`; the
length of the text is more than enough. -/
def readValue : Nat → Text → Option (Value × Text)
  | 0, _ => none
  | _, [] => none
  | fuel + 1, b :: text =>
    if b = Byte.doubleQuote then (readString text).map fun (s, rest) => (.string s, rest)
    else if b = Byte.openSquare then
      match expect Byte.closeSquare text with
      | some rest => some (.array [], rest)
      | none => (readElements fuel text).map fun (vs, rest) => (.array vs, rest)
    else if b = Byte.openCurly then
      match expect Byte.closeCurly text with
      | some rest => some (.object [], rest)
      | none => (readMembers fuel text).map fun (ms, rest) => (.object ms, rest)
    else (readWord (b :: text)).or (readNumber (b :: text))

def readElements : Nat → Text → Option (List Value × Text)
  | 0, _ => none
  | fuel + 1, text => do
    let (v, text) ← readValue fuel (skip text)
    match expect Byte.closeSquare text with
    | some rest => some ([v], rest)
    | none =>
      let text ← expect Byte.comma text
      let (vs, rest) ← readElements fuel text
      some (v :: vs, rest)

def readMembers : Nat → Text → Option (List (Text × Value) × Text)
  | 0, _ => none
  | fuel + 1, text => do
    let (key, text) ← readKey text
    let (v, text) ← readValue fuel (skip text)
    match expect Byte.closeCurly text with
    | some rest => some ([(key, v)], rest)
    | none =>
      let text ← expect Byte.comma text
      let (ms, rest) ← readMembers fuel text
      some ((key, v) :: ms, rest)

end

/-- The value of a JSON text: one value, and nothing else but blanks. -/
def decode (text : Text) : Option Value := do
  let (v, rest) ← readValue text.length (skip text)
  if skip rest = [] then some v else none

end LetBlocks.Json
