import PolicyMend.Cache
import PolicyMend.Proofs.OrderedMap

/-!
What the nine stores know of one address, as one record. A cache is described by its records: a
rename lays the record of the old address over that of the new one, leaves nothing behind, and
touches no other address.
-/

namespace PolicyMend

/-- The entry of one address in each of the nine stores. -/
structure Record where
  contents : Option String := none
  ignored : Option String := none
  modules : Option Json := none
  aggregates : Option Aggregate.Data := none
  diagnostics : Option (List Diagnostic) := none
  parseErrors : Option (List Diagnostic) := none
  builtins : Option BuiltinRows := none
  keywords : Option KeywordRows := none
  lineCounts : Option UInt32 := none

namespace Record

def isOccupied (r : Record) : Bool := r.contents.isSome || r.ignored.isSome

/-- One record laid over another, which shows where the first has no entry. -/
def overlay (upper lower : Record) : Record where
  contents := upper.contents.or lower.contents
  ignored := upper.ignored.or lower.ignored
  modules := upper.modules.or lower.modules
  aggregates := upper.aggregates.or lower.aggregates
  diagnostics := upper.diagnostics.or lower.diagnostics
  parseErrors := upper.parseErrors.or lower.parseErrors
  builtins := upper.builtins.or lower.builtins
  keywords := upper.keywords.or lower.keywords
  lineCounts := upper.lineCounts.or lower.lineCounts

@[simp] theorem overlay_self (r : Record) : r.overlay r = r := by
  simp [overlay]

@[simp] theorem overlay_empty (r : Record) : r.overlay {} = r := by
  simp [overlay]

@[simp] theorem isOccupied_empty : ({} : Record).isOccupied = false := rfl

end Record

namespace Aggregate.Store

theorem intern_eq (handles : List String) (uri : String) :
    intern handles uri = (uri, if uri ∈ handles then handles else uri :: handles) := by
  unfold intern
  split
  · next handle found =>
    obtain rfl : handle = uri := by simpa using List.find?_some found
    rw [if_pos (List.mem_of_find?_eq_some found)]
  · next absent =>
    rw [if_neg]
    intro present
    simpa using List.find?_eq_none.mp absent uri present

theorem get?_put (s : Store) (uri other : String) (data : Data) :
    (s.put uri data).get? other = if other = uri then some data else s.get? other := by
  rw [put, intern_eq]
  exact s.composite.get?_insert uri other data

theorem get?_delete (s : Store) (uri other : String) :
    (s.delete uri).get? other = if other = uri then none else s.get? other := by
  unfold delete
  split
  · exact s.composite.get?_erase uri other
  · next absent =>
    by_cases same : other = uri
    · rw [if_pos same, same]
      simpa [contains, OrderedMap.contains, get?] using absent
    · rw [if_neg same]

theorem get?_rename (s : Store) (old new uri : String) :
    (s.rename old new).get? uri =
      if uri = new then (s.get? old).or (s.get? new)
      else if uri = old then none
      else s.get? uri := by
  unfold rename
  cases found : s.get? old with
  | none =>
    by_cases atNew : uri = new
    · simp [atNew]
    · by_cases atOld : uri = old
      · rw [if_neg atNew, if_pos atOld, atOld, found]
      · rw [if_neg atNew, if_neg atOld]
  | some data => simp [get?_put, get?_delete]

end Aggregate.Store

namespace Cache

def record (c : Cache) (uri : String) : Record where
  contents := c.contents.get? uri
  ignored := c.ignored.get? uri
  modules := c.modules.get? uri
  aggregates := c.aggregates.get? uri
  diagnostics := c.diagnostics.get? uri
  parseErrors := c.parseErrors.get? uri
  builtins := c.builtins.get? uri
  keywords := c.keywords.get? uri
  lineCounts := c.lineCounts.get? uri

/-- Every address that some store knows has contents of either kind. -/
def Anchored (c : Cache) : Prop :=
  ∀ uri, (c.record uri).isOccupied = false → c.record uri = {}

theorem record_rename (c : Cache) (old new uri : String) :
    (c.rename old new).record uri =
      if uri = new then (c.record old).overlay (c.record new)
      else if uri = old then {}
      else c.record uri := by
  simp only [record, rename, Store.get?_rename, Aggregate.Store.get?_rename]
  by_cases atNew : uri = new
  · simp only [if_pos atNew]
    rfl
  · by_cases atOld : uri = old
    · simp only [if_neg atNew, if_pos atOld]
    · simp only [if_neg atNew, if_neg atOld]

theorem record_setContents (c : Cache) (key contents uri : String) :
    (c.setContents key contents).record uri =
      if uri = key then { c.record key with contents := some contents } else c.record uri := by
  simp only [record, setContents, Store.get?_set]
  by_cases same : uri = key
  · subst same
    simp only [↓reduceIte]
  · simp only [if_neg same]

theorem record_setDiagnostics (c : Cache) (key uri : String) (diagnostics : List Diagnostic) :
    (c.setDiagnostics key diagnostics).record uri =
      if uri = key then { c.record key with diagnostics := some diagnostics }
      else c.record uri := by
  simp only [record, setDiagnostics, Store.get?_set]
  by_cases same : uri = key
  · subst same
    simp only [↓reduceIte]
  · simp only [if_neg same]

theorem anchored_empty : ({} : Cache).Anchored := fun _ _ => rfl

theorem Anchored.setContents {c : Cache} (anchored : c.Anchored) (key contents : String) :
    (c.setContents key contents).Anchored := by
  intro uri vacant
  rw [record_setContents] at vacant ⊢
  by_cases same : uri = key
  · rw [if_pos same] at vacant
    simp [Record.isOccupied] at vacant
  · rw [if_neg same] at vacant ⊢
    exact anchored uri vacant

theorem Anchored.setDiagnostics {c : Cache} (anchored : c.Anchored) {key : String}
    (diagnostics : List Diagnostic) (occupied : (c.record key).isOccupied = true) :
    (c.setDiagnostics key diagnostics).Anchored := by
  intro uri vacant
  rw [record_setDiagnostics] at vacant ⊢
  by_cases same : uri = key
  · rw [if_pos same] at vacant
    exact absurd (occupied.symm.trans vacant) (by simp)
  · rw [if_neg same] at vacant ⊢
    exact anchored uri vacant

end Cache

/-! ### The number of entries of a store -/

namespace Store

variable {κ ν : Type} [DecidableEq κ]

theorem size_set_of_contains (s : Store κ ν) {key : κ} (value : ν)
    (present : s.contains key = true) : (s.set key value).size = s.size := by
  have found : s.entries.contains key = true := present
  rw [size, set, OrderedMap.size_insert, if_pos found, size]

theorem size_rename_of_vacant (s : Store κ ν) {old new : κ}
    (vacant : s.contains new = false) : (s.rename old new).size = s.size := by
  unfold rename
  cases found : s.get? old with
  | none => rfl
  | some value =>
    have present : s.entries.contains old = true := by
      rw [OrderedMap.contains, show s.entries.get? old = some value from found]
      rfl
    have gone : ¬(s.entries.erase old).contains new = true := by
      simp only [OrderedMap.contains, OrderedMap.get?_erase]
      split
      · simp
      · simpa [contains, OrderedMap.contains] using vacant
    have shrunk := s.entries.size_erase present
    simp only [size, set, delete, OrderedMap.size_insert, if_neg gone]
    exact shrunk

end Store

end PolicyMend
