import Mathlib.Data.List.Dedup
import PolicyMend.Proofs.CacheRecord

/-!
Aggregates over whole runs of changes. What the files contribute and when each of them came is told
by the changes alone, as a history. Main statement: after any changes the store holds just what its
history says, in the order of the last arrivals, and the table of handles has the keys of the
composite and no others.
-/

namespace PolicyMend.Aggregate

theorem dedup_append_eq {α : Type} [DecidableEq α] (front back : List α) :
    (front ++ back).dedup = front.dedup.filter (· ∉ back) ++ back.dedup := by
  induction front with
  | nil => simp
  | cons a front ih =>
    rw [List.cons_append]
    by_cases again : a ∈ front
    · rw [List.dedup_cons_of_mem again,
        List.dedup_cons_of_mem (List.mem_append_left back again), ih]
    · by_cases later : a ∈ back
      · rw [List.dedup_cons_of_mem (List.mem_append_right front later), ih,
          List.dedup_cons_of_notMem again, List.filter_cons_of_neg (by simpa using later)]
      · rw [List.dedup_cons_of_notMem (by simp [again, later]), ih,
          List.dedup_cons_of_notMem again, List.filter_cons_of_pos (by simpa using later),
          List.cons_append]

/-! ### Changes and their history -/

inductive Change where
  | set (uri : String) (data : Data)
  | delete (uri : String)
  | rename (old new : String)
  | update (uri : String) (change : Option Data → Data)
  | reset (composite : Composite)

def Store.apply (s : Store) : Change → Store
  | .set uri data => s.set uri data
  | .delete uri => s.delete uri
  | .rename old new => s.rename old new
  | .update uri change => s.update uri change
  | .reset composite => .ofComposite composite

def Store.ofChanges (changes : List Change) : Store := changes.foldl apply {}

def hasTerms (data : Data) : Bool := !isEmptyData data

abbrev Contributions := String → Option Data

def Change.view (known : Contributions) : Change → Contributions
  | .set uri data => fun other => if other = uri ∧ hasTerms data then some data else known other
  | .delete uri => fun other => if other = uri then none else known other
  | .rename old new => fun other =>
    if other = new then (known old).or (known new)
    else if other = old then none
    else known other
  | .update uri change => fun other =>
    if other = uri then (some (change (known uri))).filter hasTerms else known other
  | .reset composite => fun other => (composite.get? other).filter hasTerms

/-- The files that become present with a change, in order. A file that is renamed to itself leaves
and comes back. -/
def Change.arrivals (known : Contributions) : Change → List String
  | .set uri data => if hasTerms data ∧ (known uri).isNone then [uri] else []
  | .delete _ => []
  | .rename old new =>
    if (known old).isSome ∧ (old = new ∨ (known new).isNone) then [new] else []
  | .update uri change => if hasTerms (change (known uri)) ∧ (known uri).isNone then [uri] else []
  | .reset composite => (composite.entries.filter fun entry => hasTerms entry.2).map Prod.fst

structure History where
  known : Contributions := fun _ => none
  arrived : List String := []

def History.next (h : History) (change : Change) : History :=
  ⟨change.view h.known, h.arrived ++ change.arrivals h.known⟩

def History.ofChanges (changes : List Change) : History := changes.foldl next {}

namespace Store

theorem mem_uris {s : Store} {uri : String} : uri ∈ s.uris ↔ (s.get? uri).isSome = true :=
  s.composite.mem_keys_iff uri

theorem uris_nodup (s : Store) : s.uris.Nodup := s.composite.nodup

theorem uris_put (s : Store) (uri : String) (data : Data) :
    (s.put uri data).uris = if uri ∈ s.uris then s.uris else s.uris ++ [uri] := by
  rw [put, intern_eq]
  exact s.composite.keys_insert uri data

theorem uris_delete (s : Store) (uri : String) :
    (s.delete uri).uris = s.uris.filter (· ≠ uri) := by
  unfold delete
  split
  · refine (s.composite.keys_erase uri).trans ((s.uris_nodup.erase_eq_filter uri).trans ?_)
    refine List.filter_congr fun other _ => ?_
    rw [Bool.eq_iff_iff, decide_eq_true_iff, bne_iff_ne]
  · next absent =>
    rw [eq_comm, List.filter_eq_self]
    rintro other present
    refine decide_eq_true ?_
    rintro rfl
    exact absent (mem_uris.mp present)

/-! ### The representation -/

/-- The table has the keys of the composite, each once, and no data is empty. -/
structure Sound (s : Store) : Prop where
  handles : s.handles.Perm s.uris
  nonempty : ∀ uri data, s.get? uri = some data → hasTerms data = true

theorem Sound.put {s : Store} (sound : s.Sound) (uri : String) {data : Data}
    (worth : hasTerms data = true) : (s.put uri data).Sound where
  handles := by
    rw [uris_put]
    simp only [Store.put, intern_eq, sound.handles.mem_iff]
    split
    · exact sound.handles
    · exact (sound.handles.cons uri).trans (List.perm_append_singleton uri s.uris).symm
  nonempty other found known := by
    rw [get?_put] at known
    split at known
    · obtain rfl := Option.some.inj known
      exact worth
    · exact sound.nonempty other found known

theorem Sound.delete {s : Store} (sound : s.Sound) (uri : String) : (s.delete uri).Sound where
  handles := by
    have uris := s.uris_delete uri
    unfold Store.delete at uris ⊢
    split
    · next present =>
      rw [if_pos present] at uris
      rw [uris]
      exact sound.handles.filter _
    · exact sound.handles
  nonempty other found known := by
    rw [get?_delete] at known
    split at known
    · cases known
    · exact sound.nonempty other found known

theorem sound_empty : ({} : Store).Sound := ⟨.refl [], fun _ _ known => by cases known⟩

theorem Sound.set {s : Store} (sound : s.Sound) (uri : String) (data : Data) :
    (s.set uri data).Sound := by
  unfold Store.set
  split
  · exact sound
  · next worth => exact sound.put uri (by simpa [hasTerms] using worth)

theorem Sound.apply {s : Store} (sound : s.Sound) (change : Change) : (s.apply change).Sound := by
  cases change with
  | set uri data => exact sound.set uri data
  | delete uri => exact sound.delete uri
  | rename old new =>
    show (s.rename old new).Sound
    unfold rename
    split
    · next data known => exact (sound.delete old).put new (sound.nonempty old data known)
    · exact sound
  | update uri change =>
    show (s.update uri change).Sound
    unfold update
    dsimp only
    split
    · exact sound.delete uri
    · next worth => exact sound.put uri (by simpa [hasTerms] using worth)
  | reset composite =>
    exact List.foldlRecOn (motive := Sound) _ _ sound_empty fun _ sound entry _ =>
      sound.set entry.1 entry.2

/-! ### Look-up -/

theorem get?_set (s : Store) (uri other : String) (data : Data) :
    (s.set uri data).get? other =
      if other = uri ∧ hasTerms data then some data else s.get? other := by
  unfold set
  split
  · next empty => simp [hasTerms, empty]
  · next worth =>
    have worth' : hasTerms data = true := by simpa [hasTerms] using worth
    simp [get?_put, worth']

theorem foldl_set_get? {entries : List (String × Data)} (nodup : (entries.map Prod.fst).Nodup)
    (s : Store) (uri : String) :
    (entries.foldl (fun s entry => s.set entry.1 entry.2) s).get? uri =
      ((OrderedMap.lookup uri entries).filter hasTerms).or (s.get? uri) := by
  induction entries generalizing s with
  | nil => rfl
  | cons entry rest ih =>
    obtain ⟨key, data⟩ := entry
    obtain ⟨notLater, nodup'⟩ := List.nodup_cons.mp nodup
    rw [List.foldl_cons, ih nodup', get?_set, OrderedMap.lookup]
    by_cases here : key = uri
    · subst here
      have none : OrderedMap.lookup key rest = none := by
        rw [Option.eq_none_iff_forall_ne_some]
        intro later found
        have member := (OrderedMap.lookup_eq_some_iff nodup' key later).mp found
        exact notLater (List.mem_map.mpr ⟨_, member, rfl⟩)
      cases worth : hasTerms data with
      | true => simp [none, worth, Option.filter]
      | false => simp [none, worth, Option.filter]
    · rw [if_neg here, if_neg fun same => here same.1.symm]

theorem get?_apply (s : Store) (change : Change) :
    (s.apply change).get? = change.view s.get? := by
  funext other
  cases change with
  | set uri data => exact s.get?_set uri other data
  | delete uri => exact s.get?_delete uri other
  | rename old new => exact s.get?_rename old new other
  | update uri change =>
    show (s.update uri change).get? other = _
    unfold update
    dsimp only [Change.view]
    split
    · next empty => simp [get?_delete, Option.filter, hasTerms, empty]
    · next worth => simp [get?_put, Option.filter, hasTerms, worth]
  | reset composite =>
    have found := foldl_set_get? composite.nodup {} other
    exact found.trans (Option.or_none ..)

/-! ### Order -/

theorem foldl_set_uris {entries : List (String × Data)} {s : Store}
    (nodup : (s.uris ++ entries.map Prod.fst).Nodup) :
    (entries.foldl (fun s entry => s.set entry.1 entry.2) s).uris =
      s.uris ++ (entries.filter fun entry => hasTerms entry.2).map Prod.fst := by
  induction entries generalizing s with
  | nil => simp
  | cons entry rest ih =>
    obtain ⟨key, data⟩ := entry
    rw [List.foldl_cons]
    by_cases empty : isEmptyData data = true
    · have same : s.set key data = s := if_pos empty
      have skipped := nodup.sublist ((List.sublist_cons_self key (rest.map Prod.fst)).append_left _)
      rw [same, ih skipped, List.filter_cons_of_neg (by simp [hasTerms, empty])]
    · have same : s.set key data = s.put key data := if_neg empty
      have absent : key ∉ s.uris := fun present =>
        (List.nodup_append.mp nodup).2.2 key present key List.mem_cons_self rfl
      have placed : (s.put key data).uris = s.uris ++ [key] := by rw [uris_put, if_neg absent]
      rw [same, ih (by rw [placed]; simpa using nodup), placed,
        List.filter_cons_of_pos (by simp [hasTerms, empty])]
      simp

/-- What stays keeps its place, and what arrives comes last. -/
def Places (s s' : Store) (arriving : List String) : Prop :=
  s'.uris = s.uris.filter (fun uri => uri ∈ s'.uris ∧ uri ∉ arriving) ++ arriving

theorem places_self (s : Store) : Places s s [] := by
  unfold Places
  rw [List.append_nil, eq_comm, List.filter_eq_self]
  intro uri present
  simp [present]

theorem places_put (s : Store) (uri : String) (data : Data) :
    Places s (s.put uri data) (if uri ∈ s.uris then [] else [uri]) := by
  unfold Places
  rw [uris_put]
  split
  · next present =>
    rw [List.append_nil, eq_comm, List.filter_eq_self]
    intro other present'
    simp [present']
  · next absent =>
    refine congrArg (· ++ [uri]) ?_
    rw [eq_comm, List.filter_eq_self]
    intro other present
    have different : other ≠ uri := fun same => absent (same ▸ present)
    simp [present, different]

theorem places_delete (s : Store) (uri : String) : Places s (s.delete uri) [] := by
  unfold Places
  rw [List.append_nil, uris_delete]
  refine List.filter_congr fun other present => ?_
  simp [List.mem_filter, present]

theorem places_move (s : Store) (old new : String) (data : Data) :
    Places s ((s.delete old).put new data) (if old = new ∨ new ∉ s.uris then [new] else []) := by
  unfold Places
  rw [uris_put, uris_delete]
  by_cases arrives : old = new ∨ new ∉ s.uris
  · have absent : new ∉ s.uris.filter (· ≠ old) := by
      rw [List.mem_filter, decide_eq_true_iff]
      rintro ⟨present, different⟩
      rcases arrives with same | gone
      · exact different same.symm
      · exact gone present
    rw [if_neg absent, if_pos arrives]
    refine congrArg (· ++ [new]) (List.filter_congr fun other present => ?_)
    by_cases same : other = new
    · subst same
      have left : other = old := by
        rcases arrives with same | gone
        · exact same.symm
        · exact absurd present gone
      simp [left]
    · simp [same, List.mem_filter, present]
  · obtain ⟨different, present⟩ := not_or.mp arrives
    have stays : new ∈ s.uris.filter (· ≠ old) := by
      rw [List.mem_filter, decide_eq_true_iff]
      exact ⟨Decidable.not_not.mp present, Ne.symm different⟩
    rw [if_pos stays, if_neg arrives, List.append_nil]
    refine List.filter_congr fun other present => ?_
    simp [List.mem_filter, present]

theorem isNone_get?_iff {s : Store} {uri : String} :
    (s.get? uri).isNone = true ↔ uri ∉ s.uris := by
  rw [mem_uris, Bool.not_eq_true, Option.isSome_eq_false_iff]

theorem places_apply (s : Store) (change : Change) :
    Places s (s.apply change) (change.arrivals s.get?) := by
  cases change with
  | set uri data =>
    simp only [apply, set, Change.arrivals, hasTerms, isNone_get?_iff]
    split
    · next empty => simpa [empty] using s.places_self
    · next worth => simpa [worth] using s.places_put uri data
  | delete uri => exact s.places_delete uri
  | rename old new =>
    simp only [apply, rename, Change.arrivals, isNone_get?_iff]
    cases s.get? old with
    | none => simpa using s.places_self
    | some data => simpa using s.places_move old new data
  | update uri change =>
    simp only [apply, update, Change.arrivals, hasTerms, isNone_get?_iff]
    split
    · next empty => simpa [empty] using s.places_delete uri
    · next worth => simpa [worth] using s.places_put uri (change (s.get? uri))
  | reset composite =>
    have uris : (ofComposite composite).uris = (Change.reset composite).arrivals s.get? :=
      @foldl_set_uris composite.entries {} composite.nodup
    show (ofComposite composite).uris = _ ++ _
    rw [uris, List.filter_eq_nil_iff.mpr, List.nil_append]
    intro uri _ kept
    obtain ⟨inside, outside⟩ := of_decide_eq_true kept
    exact outside (uris ▸ inside)

end Store

/-! ### The whole history -/

/-- A store that holds what its history says, in the order of the last arrivals. -/
structure Follows (s : Store) (h : History) : Prop where
  known : s.get? = h.known
  order : s.uris = h.arrived.dedup.filter fun uri => (h.known uri).isSome

theorem Follows.next {s : Store} {h : History} (follows : Follows s h) (change : Change) :
    Follows (s.apply change) (h.next change) := by
  have known : (s.apply change).get? = change.view h.known := by
    rw [s.get?_apply change, follows.known]
  have present : ∀ uri, (change.view h.known uri).isSome = true ↔ uri ∈ (s.apply change).uris := by
    intro uri
    rw [Store.mem_uris, known]
  have places := s.places_apply change
  rw [follows.known] at places
  have arriving : (change.arrivals h.known).Sublist (s.apply change).uris := by
    rw [places]
    exact List.sublist_append_right _ _
  -- A file that is present and did not just arrive was present before.
  have stayed : ∀ uri ∈ (s.apply change).uris, uri ∉ change.arrivals h.known →
      (h.known uri).isSome = true := by
    intro uri here old
    rw [places] at here
    rcases List.mem_append.mp here with kept | new
    · rw [← follows.known]
      exact Store.mem_uris.mp (List.mem_filter.mp kept).1
    · exact absurd new old
  refine ⟨known, ?_⟩
  calc (s.apply change).uris
      = s.uris.filter (fun uri =>
          uri ∈ (s.apply change).uris ∧ uri ∉ change.arrivals h.known) ++
            change.arrivals h.known := places
    _ = (h.arrived.dedup.filter (· ∉ change.arrivals h.known)).filter
            (fun uri => (change.view h.known uri).isSome) ++ change.arrivals h.known := by
      rw [follows.order, List.filter_filter, List.filter_filter]
      refine congrArg (· ++ _) (List.filter_congr fun uri _ => ?_)
      rw [Bool.eq_iff_iff]
      simp only [Bool.and_eq_true, decide_eq_true_eq, present]
      constructor
      · rintro ⟨⟨here, old⟩, -⟩
        exact ⟨here, old⟩
      · rintro ⟨here, old⟩
        exact ⟨⟨here, old⟩, stayed uri here old⟩
    _ = (h.arrived ++ change.arrivals h.known).dedup.filter
            (fun uri => (change.view h.known uri).isSome) := by
      have nodup : (change.arrivals h.known).Nodup := (Store.uris_nodup _).sublist arriving
      have all : (change.arrivals h.known).filter
          (fun uri => (change.view h.known uri).isSome) = change.arrivals h.known :=
        List.filter_eq_self.mpr fun uri new => (present uri).mpr (arriving.subset new)
      rw [dedup_append_eq, nodup.dedup, List.filter_append, all]

theorem follows_ofChanges (changes : List Change) :
    Follows (.ofChanges changes) (.ofChanges changes) := by
  have run : ∀ {s : Store} {h : History}, Follows s h →
      Follows (changes.foldl Store.apply s) (changes.foldl History.next h) := by
    induction changes with
    | nil => exact id
    | cons change changes ih => exact fun follows => ih (follows.next change)
  exact run ⟨rfl, rfl⟩

theorem Store.sound_ofChanges (changes : List Change) : (Store.ofChanges changes).Sound :=
  List.foldlRecOn changes Store.apply sound_empty fun _ sound change _ => sound.apply change

/-! ### Parts of a composite -/

namespace Store

theorem keys_keep (s : Store) (wanted : List String) :
    (s.keep wanted).keys = s.uris.filter (· ∈ wanted) := by
  rw [uris, OrderedMap.keys, OrderedMap.keys, List.filter_map]
  rfl

theorem get?_keep (s : Store) (wanted : List String) (uri : String) :
    (s.keep wanted).get? uri = if uri ∈ wanted then s.get? uri else none := by
  apply Option.ext
  intro data
  rw [OrderedMap.get?_eq_some_iff, keep, OrderedMap.filter, List.mem_filter, decide_eq_true_iff,
    ← OrderedMap.get?_eq_some_iff]
  by_cases listed : uri ∈ wanted
  · simp [listed, get?]
  · simp [listed]

theorem keep_congr (s : Store) {wanted wanted' : List String}
    (same : ∀ uri, uri ∈ wanted ↔ uri ∈ wanted') : s.keep wanted = s.keep wanted' := by
  unfold keep
  refine congrArg s.composite.filter ?_
  funext entry
  exact decide_eq_decide.mpr (same entry.1)

end Store

/-- After any changes of an empty store, the look-ups are what the changes make of them, the table
of handles has the keys of the composite and no others, no data is empty, and the files stand in the
order in which each of them last became present (`dedup` leaves the last of equal elements). Some
files have the part of the composite that is theirs, in its order, however they are listed. -/
theorem ofChanges_represents_history (changes : List Change) :
    let s := Store.ofChanges changes
    let h := History.ofChanges changes
    s.get? = h.known ∧
      s.handles.Perm s.uris ∧ s.uris.Nodup ∧
      (∀ uri data, s.get? uri = some data → isEmptyData data = false) ∧
      s.uris = h.arrived.dedup.filter (fun uri => (h.known uri).isSome) ∧
      ∀ wanted,
        (s.keep wanted).keys = s.uris.filter (· ∈ wanted) ∧
        (∀ uri, (s.keep wanted).get? uri = if uri ∈ wanted then s.get? uri else none) ∧
        ∀ wanted', (∀ uri, uri ∈ wanted ↔ uri ∈ wanted') → s.keep wanted = s.keep wanted' := by
  intro s h
  obtain ⟨known, order⟩ := follows_ofChanges changes
  obtain ⟨handles, nonempty⟩ := Store.sound_ofChanges changes
  refine ⟨known, handles, s.uris_nodup, ?_, order, fun wanted => ⟨?_, ?_, ?_⟩⟩
  · intro uri data found
    simpa [hasTerms] using nonempty uri data found
  · exact s.keys_keep wanted
  · exact s.get?_keep wanted
  · intro wanted' same
    exact s.keep_congr same

def oneTerm (n : Nat) : Data := .ofList [("imports", [Json.ofNat n])]

/-- Three files come, the first is renamed to itself, the second loses its data and comes again, and
the third goes over the first. -/
def tangledChanges : List Change :=
  [.set "/w/a" (oneTerm 1), .set "/w/b" (oneTerm 2), .set "/w/c" (oneTerm 3), .rename "/w/a" "/w/a",
    .update "/w/b" (fun _ => ∅), .set "/w/b" (oneTerm 4), .rename "/w/c" "/w/a", .set "/w/d" ∅]

theorem ofChanges_represents_history_tangledChanges :
    let s := Store.ofChanges tangledChanges
    s.uris = ["/w/a", "/w/b"] ∧
      (History.ofChanges tangledChanges).arrived =
        ["/w/a", "/w/b", "/w/c", "/w/a", "/w/b"] ∧
      s.get? "/w/a" = some (oneTerm 3) ∧ isEmptyData (oneTerm 3) = false ∧
      s.keep ["/w/b", "/w/d", "/w/a", "/w/b"] = s.keep ["/w/a", "/w/b", "/w/d"] := by
  intro s
  obtain ⟨-, -, -, nonempty, -, keep⟩ := ofChanges_represents_history tangledChanges
  have found : s.get? "/w/a" = some (oneTerm 3) := by rfl
  refine ⟨by decide, by decide, found, nonempty "/w/a" (oneTerm 3) found, ?_⟩
  exact (keep ["/w/b", "/w/d", "/w/a", "/w/b"]).2.2 ["/w/a", "/w/b", "/w/d"] (by grind)

end PolicyMend.Aggregate
