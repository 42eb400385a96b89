import PolicyMend.Location

/-!
Violations named on the command line, as a fixer, an equals sign, a path and two or four numbers
with colons between them. The numbers are taken from the right, so a path may hold colons.
-/

namespace PolicyMend

structure Violation where
  fixer : String
  path : String
  location : Location
  deriving DecidableEq, Inhabited

namespace Violation

inductive Error where
  | malformed (input : String)
  | badLocation (input : String)
  deriving DecidableEq

def Error.message : Error → String
  | malformed input =>
    "invalid violation '" ++ input ++
      "', expected <fixer>=<path>:<row>:<col>[:<end_row>:<end_col>]"
  | badLocation input =>
    "invalid location in violation '" ++ input ++
      "': row and column must be non-negative integers"

def digitsValue? (digits : List Char) : Option Nat :=
  if digits ≠ [] ∧ digits.all Char.isDigit then
    some (digits.foldl (fun n c => 10 * n + (c.toNat - 48)) 0)
  else none

/-- A number of 32 bits in decimal, with or without a plus sign. -/
def number? (field : List Char) : Option UInt32 := do
  let digits :=
    match field with
    | '+' :: rest => rest
    | _ => field
  let n ← digitsValue? digits
  if n < UInt32.size then some (UInt32.ofNat n) else none

/-- The last `count` fields as numbers, and the fields before them, of which there must be some. -/
def trailing (fields : List (List Char)) (count : Nat) :
    Option (List (List Char) × List UInt32) :=
  if fields.length ≤ count then none
  else do
    let split := fields.length - count
    let numbers ← (fields.drop split).mapM number?
    return (fields.take split, numbers)

def target? (fields : List (List Char)) : Option (List (List Char) × Location) :=
  match trailing fields 4 with
  | some (path, [row, col, stopRow, stopCol]) =>
    some (path, { row, col, stop := some ⟨stopRow, stopCol⟩ })
  | _ =>
    match trailing fields 2 with
    | some (path, [row, col]) => some (path, { row, col })
    | _ => none

def parse (input : String) : Except Error Violation :=
  let text := input.toList
  let fixer := text.takeWhile (· ≠ '=')
  match text.dropWhile (· ≠ '=') with
  | [] => .error (.malformed input)
  | _ :: target =>
    if fixer.isEmpty then .error (.malformed input)
    else
      let fields := target.splitOn ':'
      match target? fields with
      | some (path, location) =>
        let path := [':'].intercalate path
        if path.isEmpty then .error (.malformed input)
        else .ok ⟨String.ofList fixer, String.ofList path, location⟩
      | none =>
        if fields.length > 2 then .error (.badLocation input) else .error (.malformed input)

def render (v : Violation) : String :=
  let number (n : UInt32) := ":" ++ toString n.toNat
  v.fixer ++ "=" ++ v.path ++ number v.location.row ++ number v.location.col ++
    match v.location.stop with
    | some stop => number stop.row ++ number stop.col
    | none => ""

end Violation

end PolicyMend
