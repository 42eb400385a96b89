import PolicyMend.OrderedMap

/-!
Named stores of values under keys. Every operation is a change of the map of entries, and calls that
report something return it beside the new store.
-/

namespace PolicyMend

/-- A map with a name that is shown to the reader of a log. -/
structure Store (κ ν : Type) where
  name : String
  entries : OrderedMap κ ν := ∅

namespace Store

variable {κ ν : Type} [DecidableEq κ]

def get? (s : Store κ ν) (key : κ) : Option ν := s.entries.get? key

def contains (s : Store κ ν) (key : κ) : Bool := s.entries.contains key

def set (s : Store κ ν) (key : κ) (value : ν) : Store κ ν :=
  { s with entries := s.entries.insert key value }

def delete (s : Store κ ν) (key : κ) : Store κ ν :=
  { s with entries := s.entries.erase key }

/-- Moves the value under one key to another, over what was there. Without a value nothing happens.
-/
def rename (s : Store κ ν) (old new : κ) : Store κ ν :=
  match s.get? old with
  | some value => (s.delete old).set new value
  | none => s

def take (s : Store κ ν) (key : κ) : Option ν × Store κ ν := (s.get? key, s.delete key)

def move (s : Store κ ν) (old new : κ) : Bool × Store κ ν := (s.contains old, s.rename old new)

def update (s : Store κ ν) (key : κ) (change : Option ν → ν) : Store κ ν :=
  s.set key (change (s.get? key))

def holds [BEq ν] (s : Store κ ν) (key : κ) (value : ν) : Bool :=
  match s.get? key with
  | some stored => stored == value
  | none => false

/-- Stores a value unless an equal one is there, and says whether it did. -/
def setIfChanged [BEq ν] (s : Store κ ν) (key : κ) (value : ν) : Bool × Store κ ν :=
  if s.holds key value then (false, s) else (true, s.set key value)

def clear (s : Store κ ν) : Store κ ν := { s with entries := ∅ }

def size (s : Store κ ν) : Nat := s.entries.size

def isEmpty (s : Store κ ν) : Bool := s.entries.isEmpty

def describe (s : Store κ ν) : String :=
  "KeyedStore \x7b name: \"" ++ s.name ++ "\", len: " ++ toString s.size ++ " \x7d"

/-! ### Look-up after an operation -/

@[simp] theorem get?_set (s : Store κ ν) (key other : κ) (value : ν) :
    (s.set key value).get? other = if other = key then some value else s.get? other :=
  OrderedMap.get?_insert s.entries key other value

@[simp] theorem get?_delete (s : Store κ ν) (key other : κ) :
    (s.delete key).get? other = if other = key then none else s.get? other :=
  OrderedMap.get?_erase s.entries key other

@[simp] theorem get?_clear (s : Store κ ν) (key : κ) : s.clear.get? key = none := rfl

/-- After a rename the new key has the value of the old one if there was one, and the old key has
none. -/
theorem get?_rename (s : Store κ ν) (old new key : κ) :
    (s.rename old new).get? key =
      if key = new then (s.get? old).or (s.get? new)
      else if key = old then none
      else s.get? key := by
  unfold rename
  cases found : s.get? old with
  | none =>
    by_cases atNew : key = new
    · simp [atNew]
    · by_cases atOld : key = old
      · rw [if_neg atNew, if_pos atOld, atOld, found]
      · rw [if_neg atNew, if_neg atOld]
  | some value =>
    by_cases atNew : key = new
    · simp [atNew]
    · simp [atNew]

end Store

end PolicyMend
