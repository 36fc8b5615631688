import LetBlocks.Text

/-!
For a word that is not known, the nearest known one. Nearness is the edit distance, in bytes,
without regard to the case of ASCII letters. It is computed a row at a time: the row of a text
`s` holds the distances from `s` to all beginnings of the other text, and the row of `s` with
one more byte follows from it.
-/

namespace LetBlocks.Suggestion

/-- The rest of a row, from the cell to its left, the cell above that one, and the rest of the
row above. -/
def rowFrom (a : Byte) (left corner : Nat) : Text → List Nat → List Nat
  | b :: text, above :: row =>
    let cost := if a.toLower = b.toLower then 0 else 1
    let cell := min (min (above + 1) (left + 1)) (corner + cost)
    cell :: rowFrom a cell above text row
  | _, _ => []

/-- The row for one more byte `a`, when `row` holds the distances to the beginnings of
`text`. -/
def nextRow (text : Text) (row : List Nat) (a : Byte) : List Nat :=
  match row with
  | [] => []
  | corner :: above => (corner + 1) :: rowFrom a (corner + 1) corner text above

def distance (s t : Text) : Nat :=
  ((s.foldl (nextRow t) (List.range (t.length + 1))).getLast?).getD 0

def gap (m n : Nat) : Nat := max m n - min m n

structure Best where
  candidate : Text := []
  distance : Nat

/-- Weighs one more candidate. One whose length alone puts it beyond `limit` is not measured;
of two that are equally near the earlier one stays. -/
def weigh (input : Text) (limit : UInt64) (best : Best) (candidate : Text) : Best :=
  if limit.toNat < gap input.length candidate.length then best
  else
    let d := distance input candidate
    if d < best.distance then { candidate, distance := d } else best

/-- The nearest candidate within `limit`, or nothing. The limit is a 64-bit number, and so is
its successor, below which a distance has to be: with the largest limit there is no such
distance. -/
def nearest (input : Text) (candidates : List Text) (limit : UInt64 := 3) : Text :=
  if input = [] then []
  else (candidates.foldl (weigh input limit) { distance := (limit + 1).toNat }).candidate

end LetBlocks.Suggestion
