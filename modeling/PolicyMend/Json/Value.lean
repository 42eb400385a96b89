import PolicyMend.Json.Binary64
import PolicyMend.OrderedMap

/-!
JSON values. An object keeps its fields in the order in which they were read; a field that is read
again keeps its place and takes the new value. `same` compares values without regard to that order.
-/

namespace PolicyMend

namespace Json

/-- A JSON number: an integer of at most 64 bits, or a binary64 number. -/
inductive Number where
  | integer (value : Int)
  | float (value : Binary64)
  deriving DecidableEq, Inhabited

end Json

inductive Json where
  | null
  | boolean (value : Bool)
  | number (value : Json.Number)
  | string (value : String)
  | array (elements : List Json)
  | object (fields : List (String × Json))
  deriving Inhabited

namespace Json

def ofNat (n : Nat) : Json := .number (.integer n)

def ofStrings (texts : List String) : Json := .array (texts.map .string)

def field? (fields : List (String × Json)) (name : String) : Option Json :=
  OrderedMap.lookup name fields

mutual

/-- Whether two values are equal up to the order of fields. -/
def same : Json → Json → Bool
  | .null, .null => true
  | .boolean a, .boolean b => a = b
  | .number a, .number b => a = b
  | .string a, .string b => a = b
  | .array as, .array bs => sameElements as bs
  | .object fs, .object gs => fs.length = gs.length && sameFields fs gs
  | _, _ => false

def sameElements : List Json → List Json → Bool
  | [], [] => true
  | a :: as, b :: bs => same a b && sameElements as bs
  | _, _ => false

/-- Whether every field of the first list has the same value in the second. -/
def sameFields : List (String × Json) → List (String × Json) → Bool
  | [], _ => true
  | (name, value) :: rest, gs =>
    (match field? gs name with
      | some other => same value other
      | none => false) && sameFields rest gs

end

instance : BEq Json := ⟨same⟩

end Json

end PolicyMend
