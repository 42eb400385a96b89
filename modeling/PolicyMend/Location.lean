import PolicyMend.Json.Printer
import PolicyMend.Json.Record

/-!
Places in a file. A location names a row and a column, both counted from one, and may say where it
stops. Nothing ties it to the contents of a file: whoever uses a location checks it first.

Locations are read in two ways. `Location.reader` holds a text to the written form;
`Location.ofJson` takes a value from another tool, which may say `column` for `col`.
-/

namespace PolicyMend

/-- A row and a column, counted from one; columns count bytes. -/
structure Position where
  row : UInt32
  col : UInt32
  deriving DecidableEq, Inhabited

/-- A place in a file; the column at which it stops is excluded. -/
structure Location where
  row : UInt32
  col : UInt32
  stop : Option Position := none
  deriving DecidableEq, Inhabited

/-- The column at which a location stops, if that is on the row where it starts. -/
def Location.stopOnRow (l : Location) : Option UInt32 :=
  match l.stop with
  | some stop => if stop.row = l.row then some stop.col else none
  | none => none

/-! ### Written form -/

def wordToJson (n : UInt32) : Json := Json.ofNat n.toNat

def Position.toJson (p : Position) : Json :=
  .object [("row", wordToJson p.row), ("col", wordToJson p.col)]

def Location.toJson (l : Location) : Json :=
  .object ([("row", wordToJson l.row), ("col", wordToJson l.col)] ++
    l.stop.toList.map fun stop => ("end", stop.toJson))

open Json in
def Position.reader : Reader Position :=
  (Shape.field "row" Reader.word32 <| .field "col" Reader.word32 <| .done).record .skipped
    fun (row, col, _) => do return { row := ← row, col := ← col }

open Json in
def Location.reader : Reader Location :=
  (Shape.field "row" Reader.word32 <| .field "col" Reader.word32 <|
    .field "end" (Reader.optional Position.reader) <| .done).record .skipped
    fun (row, col, stop, _) => do return { row := ← row, col := ← col, stop := stop.getD none }

/-! ### Values from elsewhere -/

/-- The integer of a field, if it fits a word; `path` names the field in a mismatch. -/
def wordField (fields : List (String × Json)) (name path : String) :
    Except Json.Mismatch UInt32 :=
  let found := Json.field? fields name
  match found with
  | some (.number (.integer n)) =>
    if 0 ≤ n ∧ n.toNat < UInt32.size then .ok (UInt32.ofNat n.toNat)
    else .error (.of path "unsigned integer" found)
  | _ => .error (.of path "unsigned integer" found)

/-- The row and the column of an object; `column` stands in for an absent `col`. -/
def Position.ofFields (fields : List (String × Json)) (path : String) :
    Except Json.Mismatch Position := do
  let row ← wordField fields "row" (path ++ ".row")
  let name := if (Json.field? fields "col").isSome then "col" else "column"
  let col ← wordField fields name (path ++ "." ++ name)
  return { row, col }

def Location.ofJson : Json → Except Json.Mismatch Location
  | .object fields => do
    let start ← Position.ofFields fields "location"
    match Json.field? fields "end" with
    | none | some .null => return { row := start.row, col := start.col }
    | some (.object stop) =>
      let stop ← Position.ofFields stop "location.end"
      return { row := start.row, col := start.col, stop := some stop }
    | some other => .error (.of "location.end" "object" (some other))
  | other => .error (.of "location" "object" (some other))

end PolicyMend
