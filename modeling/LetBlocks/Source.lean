import LetBlocks.Text

/-!
A source is a named text together with the offsets at which its lines start. A line ends with
LF, CR LF or a CR that no LF follows, and a CR LF counts once.

Lines, columns, offsets and lengths are reported as 32-bit numbers. For a text of 2^32 bytes or
more they are the true ones modulo 2^32, so `Location` holds machine words and the bounds it is
computed from are natural numbers.
-/

namespace LetBlocks

/-- A place in a file. Lines and columns count from 1; a line of 0 stands for no place at
all. -/
structure Location where
  file : Text := []
  line : UInt32 := 0
  column : UInt32 := 0
  offset : UInt32 := 0
  length : UInt32 := 0
  deriving DecidableEq, Repr, Inhabited

/-- The places of the first and of the last byte of a stretch. -/
structure Span where
  start : Location := {}
  stop : Location := {}
  deriving DecidableEq, Repr, Inhabited

def Span.merge (a b : Span) : Span := ⟨a.start, b.stop⟩

/-- Continues the list of line starts through a text that `pos` bytes precede. -/
def Text.lineStartsFrom (pos : Nat) (found : Array Nat) : Text → Array Nat
  | [] => found
  | b :: rest =>
    if b = Byte.lf ∨ (b = Byte.cr ∧ rest.head? ≠ some Byte.lf) then
      Text.lineStartsFrom (pos + 1) (found.push (pos + 1)) rest
    else Text.lineStartsFrom (pos + 1) found rest

def Text.lineStarts (text : Text) : Array Nat := Text.lineStartsFrom 0 #[0] text

structure Source where
  name : Text
  content : Text
  lineStarts : Array Nat := content.lineStarts
  lineStarts_eq : lineStarts = content.lineStarts := by rfl

namespace Source

instance : Inhabited Source := ⟨{ name := [], content := [] }⟩

def ofText (content : Text) (name : Text := utf8 "<input>") : Source := { name, content }

def length (source : Source) : Nat := source.content.length

def lineCount (source : Source) : UInt32 := source.lineStarts.size.toUInt32

/-- The byte at an offset, and 0 past the end. -/
def byteAt (source : Source) (offset : Nat) : Byte := source.content[offset]?.getD 0

def slice (source : Source) (start stop : Nat) : Text :=
  (source.content.drop start).take (stop - start)

/-- How many of the increasing numbers in `starts` are at most `x`, when that count is known to
lie between `lo` and `hi`: a search by halving. -/
def countUpTo (starts : Array Nat) (x lo hi : Nat) : Nat :=
  if lo < hi then
    let mid := (lo + hi) / 2
    if starts.getD mid 0 ≤ x then countUpTo starts x (mid + 1) hi
    else countUpTo starts x lo mid
  else lo
termination_by hi - lo

def lineIndex (source : Source) (offset : Nat) : Nat :=
  countUpTo source.lineStarts offset 0 source.lineStarts.size - 1

def location (source : Source) (offset : Nat) : Location :=
  let index := source.lineIndex offset
  { file := source.name
    line := index.toUInt32 + 1
    column := (offset - source.lineStarts.getD index 0).toUInt32 + 1
    offset := offset.toUInt32
    length := 1 }

/-- The span of the bytes from `start` up to `stop`. An empty one, or one whose bounds are the
wrong way round, lies at `start` and has length 0. -/
def span (source : Source) (start stop : Nat) : Span :=
  let length := (stop - start).toUInt32
  { start := { source.location start with length }
    stop := { source.location (if start < stop then stop - 1 else start) with length } }

def dropTrailing (b : Byte) (text : Text) : Text :=
  if text.getLast? = some b then text.dropLast else text

def line (source : Source) (number : UInt32) : Text :=
  match number.toNat with
  | 0 => []
  | index + 1 =>
    match source.lineStarts[index]?, source.lineStarts[index + 1]? with
    | some start, some next =>
      dropTrailing Byte.cr (dropTrailing Byte.lf (source.slice start next))
    | some start, none => source.content.drop start
    | none, _ => []

end Source

end LetBlocks
