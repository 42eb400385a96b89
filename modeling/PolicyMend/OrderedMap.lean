/-!
Maps that remember the order in which their keys arrived. A key that is set again keeps its place;
a key that is erased and set again goes to the end. Every operation is described by what it does
to `get?`, the look-up.
-/

namespace PolicyMend

/-- A finite map as its list of entries, one for each key. -/
structure OrderedMap (κ ν : Type) where
  entries : List (κ × ν)
  nodup : (entries.map Prod.fst).Nodup

namespace OrderedMap

variable {κ ν : Type}

theorem nodup_map_fst_filter (keep : κ × ν → Bool) (entries : List (κ × ν))
    (nodup : (entries.map Prod.fst).Nodup) : ((entries.filter keep).map Prod.fst).Nodup :=
  List.Nodup.sublist (List.filter_sublist.map Prod.fst) nodup

def empty : OrderedMap κ ν := ⟨[], List.nodup_nil⟩

instance : EmptyCollection (OrderedMap κ ν) := ⟨empty⟩

instance : Inhabited (OrderedMap κ ν) := ⟨empty⟩

def keys (m : OrderedMap κ ν) : List κ := m.entries.map Prod.fst

def values (m : OrderedMap κ ν) : List ν := m.entries.map Prod.snd

def size (m : OrderedMap κ ν) : Nat := m.entries.length

def isEmpty (m : OrderedMap κ ν) : Bool := m.entries.isEmpty

def filter (m : OrderedMap κ ν) (keep : κ × ν → Bool) : OrderedMap κ ν :=
  ⟨m.entries.filter keep, nodup_map_fst_filter keep m.entries m.nodup⟩

variable [DecidableEq κ]

instance [DecidableEq ν] : DecidableEq (OrderedMap κ ν) := fun a b =>
  decidable_of_iff (a.entries = b.entries) ⟨fun same => by cases a; cases b; simp_all,
    fun same => same ▸ rfl⟩

/-- The first value under a key in a list of entries. -/
def lookup (key : κ) : List (κ × ν) → Option ν
  | [] => none
  | (k, v) :: rest => if k = key then some v else lookup key rest

def get? (m : OrderedMap κ ν) (key : κ) : Option ν := lookup key m.entries

def contains (m : OrderedMap κ ν) (key : κ) : Bool := (m.get? key).isSome

/-- Sets a key in a list of entries, in its place if it has one and else at the end. -/
def put (key : κ) (value : ν) : List (κ × ν) → List (κ × ν)
  | [] => [(key, value)]
  | (k, v) :: rest => if k = key then (key, value) :: rest else (k, v) :: put key value rest

def drop (key : κ) (entries : List (κ × ν)) : List (κ × ν) :=
  entries.filter fun entry => entry.1 ≠ key

theorem map_fst_put (key : κ) (value : ν) (entries : List (κ × ν)) :
    (put key value entries).map Prod.fst =
      if key ∈ entries.map Prod.fst then entries.map Prod.fst
      else entries.map Prod.fst ++ [key] := by
  induction entries with
  | nil => simp [put]
  | cons entry rest ih =>
    obtain ⟨k, v⟩ := entry
    by_cases same : k = key
    · simp [put, same]
    · have other : key ≠ k := fun h => same h.symm
      simp only [put, same, if_false, List.map_cons, ih, List.mem_cons, other, false_or]
      split <;> simp

theorem nodup_put (key : κ) (value : ν) (entries : List (κ × ν))
    (nodup : (entries.map Prod.fst).Nodup) : ((put key value entries).map Prod.fst).Nodup := by
  rw [map_fst_put]
  split
  · exact nodup
  · next absent =>
    rw [List.nodup_append]
    refine ⟨nodup, by simp, fun a present b only => ?_⟩
    rintro rfl
    rw [List.mem_singleton] at only
    exact absent (only ▸ present)

/-- Sets the value of a key; a key already present keeps its place. -/
def insert (m : OrderedMap κ ν) (key : κ) (value : ν) : OrderedMap κ ν :=
  ⟨put key value m.entries, nodup_put key value m.entries m.nodup⟩

def erase (m : OrderedMap κ ν) (key : κ) : OrderedMap κ ν :=
  ⟨drop key m.entries, nodup_map_fst_filter _ m.entries m.nodup⟩

def alter (m : OrderedMap κ ν) (key : κ) (change : Option ν → ν) : OrderedMap κ ν :=
  m.insert key (change (m.get? key))

/-- The map that a list of entries sets one after the other. -/
def ofList (entries : List (κ × ν)) : OrderedMap κ ν :=
  entries.foldl (fun m (key, value) => m.insert key value) empty

/-! ### Look-up after an operation -/

@[simp] theorem get?_empty (key : κ) : (empty : OrderedMap κ ν).get? key = none := rfl

theorem lookup_put (key other : κ) (value : ν) (entries : List (κ × ν)) :
    lookup other (put key value entries) =
      if other = key then some value else lookup other entries := by
  induction entries with
  | nil =>
    by_cases same : other = key
    · simp [put, lookup, same]
    · have differ : key ≠ other := fun h => same h.symm
      simp [put, lookup, same, differ]
  | cons entry rest ih =>
    obtain ⟨k, v⟩ := entry
    by_cases here : k = key
    · subst here
      by_cases same : other = k
      · simp [put, lookup, same]
      · have differ : k ≠ other := fun h => same h.symm
        simp [put, lookup, same, differ]
    · by_cases found : k = other
      · subst found
        simp [put, lookup, here]
      · simp [put, lookup, here, found, ih]

@[simp] theorem get?_insert (m : OrderedMap κ ν) (key other : κ) (value : ν) :
    (m.insert key value).get? other = if other = key then some value else m.get? other :=
  lookup_put key other value m.entries

theorem lookup_drop (key other : κ) (entries : List (κ × ν)) :
    lookup other (drop key entries) = if other = key then none else lookup other entries := by
  induction entries with
  | nil => simp [drop, lookup]
  | cons entry rest ih =>
    obtain ⟨k, v⟩ := entry
    simp only [drop] at ih
    by_cases here : k = key
    · subst here
      by_cases same : other = k
      · simpa [drop, lookup, same] using ih
      · have differ : k ≠ other := fun h => same h.symm
        simpa [drop, lookup, same, differ] using ih
    · by_cases found : k = other
      · subst found
        simp [drop, lookup, here]
      · simpa [drop, lookup, here, found] using ih

@[simp] theorem get?_erase (m : OrderedMap κ ν) (key other : κ) :
    (m.erase key).get? other = if other = key then none else m.get? other :=
  lookup_drop key other m.entries

@[simp] theorem get?_alter (m : OrderedMap κ ν) (key other : κ) (change : Option ν → ν) :
    (m.alter key change).get? other =
      if other = key then some (change (m.get? key)) else m.get? other :=
  get?_insert m key other _

/-- The keys after setting one: the same if it was there, else with it at the end. -/
theorem keys_insert (m : OrderedMap κ ν) (key : κ) (value : ν) :
    (m.insert key value).keys = if key ∈ m.keys then m.keys else m.keys ++ [key] :=
  map_fst_put key value m.entries

end OrderedMap

end PolicyMend
