/-!
Rows of a text and columns of a row. A text is cut at every newline and rebuilt by joining with
newlines, so a final newline survives as a last empty row. Rows are numbered from one. A column
counts UTF-8 bytes from one, and it is usable only where it falls on a character boundary;
`splitAtByte` is the one place where byte offsets meet characters.
-/

namespace PolicyMend.Text

def rows (text : List Char) : List (List Char) :=
  text.splitOn '\n'

def unrows (rows : List (List Char)) : List Char :=
  ['\n'].intercalate rows

def splitRows (text : String) : List String :=
  (rows text.toList).map String.ofList

def joinRows (rows : List String) : String :=
  String.ofList (unrows (rows.map String.toList))

@[simp] theorem unrows_rows (text : List Char) : unrows (rows text) = text :=
  List.intercalate_splitOn '\n'

/-- The index of a row counted from one, if a text of `count` rows has it. -/
def rowIndex (count : Nat) (row : UInt32) : Option Nat :=
  match row.toNat with
  | 0 => none
  | index + 1 => if index < count then some index else none

/-- The number of rows of a text, where a final newline opens no row of its own. -/
def rowCount (text : String) : UInt32 :=
  let cs := text.toList
  let newlines := UInt32.ofNat (cs.count '\n')
  if cs = [] then 0
  else if cs.getLast? = some '\n' then newlines
  else newlines + 1

/-! ### Columns -/

def byteLength : List Char → Nat
  | [] => 0
  | c :: cs => c.utf8Size + byteLength cs

/-- Cuts a row after `offset` bytes, if that offset lies in the row and on a character boundary. -/
def splitAtByte : List Char → Nat → Option (List Char × List Char)
  | row, 0 => some ([], row)
  | [], _ + 1 => none
  | c :: row, offset + 1 =>
    if c.utf8Size ≤ offset + 1 then
      (splitAtByte row (offset + 1 - c.utf8Size)).map fun (before, after) => (c :: before, after)
    else none

/-- Whether a byte offset lies in the row, its end included, and on a character boundary. -/
def isBoundary (row : List Char) (offset : Nat) : Bool :=
  (splitAtByte row offset).isSome

/-- The byte offset of a column that names a character of the row. -/
def columnIndex (row : List Char) (col : UInt32) : Option Nat :=
  match col.toNat with
  | 0 => none
  | offset + 1 => if offset < byteLength row && isBoundary row offset then some offset else none

/-- The byte offset of an exclusive end column, which may stand just past the row. -/
def endColumnIndex (row : List Char) (col : UInt32) : Option Nat :=
  match col.toNat with
  | 0 => none
  | offset + 1 => if offset ≤ byteLength row && isBoundary row offset then some offset else none

end PolicyMend.Text
