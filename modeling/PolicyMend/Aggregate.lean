import PolicyMend.Json.Value

/-!
What every file contributes to the rules that look at all files at once. The contributions of all
files stand in one composite, in the order in which the files came; a file that contributes nothing
has no entry. Keys are shared with the readers of the composite through a table of handles, which
holds the keys of the composite and no others.
-/

namespace PolicyMend.Aggregate

/-- The terms that one file contributes, by rule. -/
abbrev Data := OrderedMap String (List Json)

abbrev Composite := OrderedMap String Data

def isEmptyData (data : Data) : Bool := data.values.all List.isEmpty

structure Store where
  composite : Composite := ∅
  handles : List String := []

namespace Store

/-- The handle of a key: the one in the table, or a new one that is added to it. -/
def intern (handles : List String) (uri : String) : String × List String :=
  match handles.find? (· = uri) with
  | some handle => (handle, handles)
  | none => (uri, uri :: handles)

def forget (handles : List String) (uri : String) : List String :=
  handles.filter (· ≠ uri)

def get? (s : Store) (uri : String) : Option Data := s.composite.get? uri

def contains (s : Store) (uri : String) : Bool := s.composite.contains uri

def put (s : Store) (uri : String) (data : Data) : Store :=
  let (handle, handles) := intern s.handles uri
  ⟨s.composite.insert handle data, handles⟩

def delete (s : Store) (uri : String) : Store :=
  if s.contains uri then ⟨s.composite.erase uri, forget s.handles uri⟩ else s

/-- Replaces what a file contributes. Empty data changes nothing. -/
def set (s : Store) (uri : String) (data : Data) : Store :=
  if isEmptyData data then s else s.put uri data

/-- Moves the contribution of one file to another, over what was there. Without one nothing
happens. -/
def rename (s : Store) (old new : String) : Store :=
  match s.get? old with
  | some data => (s.delete old).put new data
  | none => s

def take (s : Store) (uri : String) : Option Data × Store := (s.get? uri, s.delete uri)

def move (s : Store) (old new : String) : Bool × Store := (s.contains old, s.rename old new)

/-- Replaces what a file contributes by something made from it. Empty data removes the file. -/
def update (s : Store) (uri : String) (change : Option Data → Data) : Store :=
  let data := change (s.get? uri)
  if isEmptyData data then s.delete uri else s.put uri data

/-- The part of the composite that belongs to some files, in the order of the composite. -/
def keep (s : Store) (uris : List String) : Composite :=
  s.composite.filter fun entry => entry.1 ∈ uris

/-- A store made of a composite, without its empty data. -/
def ofComposite (composite : Composite) : Store :=
  composite.entries.foldl (fun s (uri, data) => s.set uri data) {}

def uris (s : Store) : List String := s.composite.keys

def size (s : Store) : Nat := s.composite.size

def isEmpty (s : Store) : Bool := s.composite.isEmpty

def describe (s : Store) : String :=
  "AggregateStore \x7b uris: " ++ toString s.size ++ " \x7d"

end Store

end PolicyMend.Aggregate
