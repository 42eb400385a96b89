import PolicyMend.Fix.Edit
import PolicyMend.Sorting
import PolicyMend.Text.Rows

/-!
Substitution of one character. A location names a row and a column at or before the character to
change; the first target character from there on is replaced if its neighbours allow it. All targets
are found in the text as it was, and each row is then edited from right to left.
-/

namespace PolicyMend.Fix

/-- A rule that replaces a target character, given a test of the characters beside it. -/
structure Substitution where
  target : Char
  replacement : List Char
  allows : Option Char → Option Char → Bool

namespace Substitution

/-- Whether an equals sign stands alone, so that it is no part of a longer operator. -/
def standsAlone (left right : Option Char) : Bool :=
  !(left = some ':' || left = some '=' || left = some '!' || left = some '<' || left = some '>')
    && right ≠ some '='

def assignment : Substitution := ⟨'=', [':', '='], standsAlone⟩

def comparison : Substitution := ⟨'=', ['=', '='], standsAlone⟩

/-- Sets a space after the mark of a comment, unless the comment is empty, starts with a blank or
with another mark, or is an interpreter line. -/
def spacedComment : Substitution :=
  ⟨'#', ['#', ' '], fun _ right =>
    !(right = none || right = some ' ' || right = some '\t' || right = some '#' ||
      right = some '!')⟩

/-- The row and the byte offset of the first target at or after a location. -/
def locate (target : Char) (rows : List (List Char)) (l : Location) : Option (Nat × Nat) := do
  let index ← Text.rowIndex rows.length l.row
  let row ← rows[index]?
  let start ← Text.columnIndex row l.col
  let (_, after) ← Text.splitAtByte row start
  if target ∈ after then
    return (index, start + Text.byteLength (after.takeWhile (· ≠ target)))
  else none

/-- Replaces the character of a row at a byte offset, if its neighbours allow it. -/
def replaceIn (s : Substitution) (row : List Char) (offset : Nat) : Option (List Char) :=
  match Text.splitAtByte row offset with
  | some (before, _ :: after) =>
    if s.allows before.getLast? after.head? then some (before ++ s.replacement ++ after) else none
  | _ => none

def step (s : Substitution) (state : List (List Char) × Bool) (target : Nat × Nat) :
    List (List Char) × Bool :=
  match state.1[target.1]?.bind (s.replaceIn · target.2) with
  | some row => (state.1.set target.1 row, true)
  | none => state

def edited? (s : Substitution) (contents : String) (locations : List Location) : Option String :=
  let rows := Text.rows contents.toList
  let targets := descending (locations.filterMap (locate s.target rows))
  let (edited, changed) := targets.foldl s.step (rows, false)
  if changed then some (String.ofList (Text.unrows edited)) else none

end Substitution

end PolicyMend.Fix
