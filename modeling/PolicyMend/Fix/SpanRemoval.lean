import PolicyMend.Fix.Edit
import PolicyMend.Sorting
import PolicyMend.Text.Characters
import PolicyMend.Text.Rows

/-!
Removal of spans. A location that stops on its own row marks a span of bytes. On every row the spans
are taken from right to left, and one that reaches into a span already taken is passed over. All
spans are found in the text as it was, so dropping a row moves no other span.
-/

namespace PolicyMend.Fix

/-- What becomes of a row that the removal leaves blank. -/
inductive Emptied where
  | kept
  | dropped
  deriving DecidableEq

namespace SpanRemoval

/-- The row and the bytes that a location marks, if it fits the text. -/
def locate (rows : List (List Char)) (l : Location) : Option (Nat × Nat × Nat) := do
  let index ← Text.rowIndex rows.length l.row
  let row ← rows[index]?
  let start ← Text.columnIndex row l.col
  let stop ← Text.endColumnIndex row (← l.stopOnRow)
  if start < stop then return (index, start, stop) else none

/-- The spans that are taken, of spans in descending order. Each ends at or before the last one
taken. -/
def select : Option Nat → List (Nat × Nat) → List (Nat × Nat)
  | _, [] => []
  | taken, (start, stop) :: spans =>
    if taken.any (· < stop) then select taken spans
    else (start, stop) :: select (some start) spans

/-- A row without the bytes from `start` up to `stop`, if both are character boundaries of it. -/
def cut? (row : List Char) (span : Nat × Nat) : Option (List Char) := do
  let (before, _) ← Text.splitAtByte row span.1
  let (_, after) ← Text.splitAtByte row span.2
  return before ++ after

def cutAll (row : List Char) (spans : List (Nat × Nat)) : List Char :=
  spans.foldl (fun row span => (cut? row span).getD row) row

def reduce (emptied : Emptied) (spans : List (Nat × Nat)) (row : List Char) : Option (List Char) :=
  let left := cutAll row (select none (descending spans))
  if emptied = .dropped && !Text.isBlankRow row && Text.isBlankRow left then none else some left

def onRow (spans : List (Nat × Nat × Nat)) (index : Nat) : List (Nat × Nat) :=
  (spans.filter (·.1 = index)).map (·.2)

/-- The text without the spans that some locations mark, if any of them fits the text. -/
def edited? (emptied : Emptied) (contents : String) (locations : List Location) : Option String :=
  let rows := Text.rows contents.toList
  let spans := locations.filterMap (locate rows)
  if spans.isEmpty then none
  else
    let left := rows.zipIdx.filterMap fun (row, index) => reduce emptied (onRow spans index) row
    some (String.ofList (Text.unrows left))

end SpanRemoval

end PolicyMend.Fix
