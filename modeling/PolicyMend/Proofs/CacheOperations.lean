import PolicyMend.Proofs.AggregateOrder

/-!
Operations on one address in all stores. What they do is told by the records alone: they change
those of the addresses they name, and look at no others. Main statement: a deleted address is in no
answer of the cache, a renamed one has moved store by store and can be moved back, and operations
that name different addresses commute.
-/

namespace PolicyMend.Cache

/-! ### What a cache answers -/

/-- Two caches that give the same answers, of one address and of many. -/
structure Alike (c d : Cache) : Prop where
  record : ∀ uri, c.record uri = d.record uri
  contentsAndModule? : ∀ uri, c.contentsAndModule? uri = d.contentsAndModule? uri
  shownDiagnostics : ∀ uri, c.shownDiagnostics uri = d.shownDiagnostics uri
  aggregatesOf : ∀ uris uri, (c.aggregatesOf uris).get? uri = (d.aggregatesOf uris).get? uri

theorem get?_aggregatesOf (c : Cache) (uris : List String) (uri : String) :
    (c.aggregatesOf uris).get? uri =
      if uris = [] ∨ uri ∈ uris then (c.record uri).aggregates else none := by
  unfold aggregatesOf
  cases uris with
  | nil => simp [record, Aggregate.Store.get?]
  | cons first rest =>
    rw [if_neg (by simp), Aggregate.Store.get?_keep]
    simp [record]

theorem contentsAndModule?_eq (c : Cache) (uri : String) :
    c.contentsAndModule? uri =
      (c.record uri).contents.bind fun text => (c.record uri).modules.map fun m => (text, m) := by
  simp only [contentsAndModule?, record]
  cases c.contents.get? uri with
  | none => rfl
  | some text => cases c.modules.get? uri <;> rfl

theorem shownDiagnostics_congr {c d : Cache} {uri : String} (same : c.record uri = d.record uri) :
    c.shownDiagnostics uri = d.shownDiagnostics uri := by
  have errors : c.parseErrors.get? uri = d.parseErrors.get? uri := congrArg Record.parseErrors same
  have found : c.diagnostics.get? uri = d.diagnostics.get? uri := congrArg Record.diagnostics same
  simp only [shownDiagnostics, errors, found]

theorem alike_of_record {c d : Cache} (same : ∀ uri, c.record uri = d.record uri) : Alike c d where
  record := same
  contentsAndModule? uri := by rw [contentsAndModule?_eq, contentsAndModule?_eq, same]
  shownDiagnostics uri := shownDiagnostics_congr (same uri)
  aggregatesOf uris uri := by rw [get?_aggregatesOf, get?_aggregatesOf, same]

/-- Whether a view of many addresses shows this one. -/
def Listed (c : Cache) (uri : String) : Prop :=
  uri ∈ c.contents.entries.keys ∨ uri ∈ c.ignored.entries.keys ∨ uri ∈ c.modules.entries.keys ∨
    uri ∈ c.builtins.entries.keys ∨ ∃ uris, uri ∈ (c.aggregatesOf uris).keys

structure Unknown (c : Cache) (uri : String) : Prop where
  record : c.record uri = {}
  contentsAndModule? : c.contentsAndModule? uri = none
  shownDiagnostics : c.shownDiagnostics uri = []
  aggregatesOf : (c.aggregatesOf [uri]).entries = []
  listed : ¬c.Listed uri

theorem not_listed {c : Cache} {uri : String} (empty : c.record uri = {}) : ¬c.Listed uri := by
  rintro (inside | inside | inside | inside | ⟨uris, inside⟩)
  all_goals
    obtain ⟨value, found⟩ := Option.isSome_iff_exists.mp ((OrderedMap.mem_keys_iff _ uri).mp inside)
  · cases (congrArg Record.contents empty).symm.trans found
  · cases (congrArg Record.ignored empty).symm.trans found
  · cases (congrArg Record.modules empty).symm.trans found
  · cases (congrArg Record.builtins empty).symm.trans found
  · rw [get?_aggregatesOf, empty] at found
    simp at found

theorem unknown_of_record {c : Cache} {uri : String} (empty : c.record uri = {}) :
    c.Unknown uri where
  record := empty
  contentsAndModule? := by rw [contentsAndModule?_eq, empty]; rfl
  shownDiagnostics := shownDiagnostics_congr (d := {}) empty
  aggregatesOf := by
    have keys : (c.aggregatesOf [uri]).keys = [] := by
      rw [List.eq_nil_iff_forall_not_mem]
      intro other inside
      obtain ⟨data, found⟩ :=
        Option.isSome_iff_exists.mp ((OrderedMap.mem_keys_iff _ other).mp inside)
      rw [get?_aggregatesOf] at found
      split at found
      · next named =>
        obtain rfl : other = uri := by simpa using named
        rw [empty] at found
        cases found
      · cases found
    exact List.map_eq_nil_iff.mp keys
  listed := not_listed empty

/-! ### Operations -/

inductive Operation where
  | delete (uri : String)
  | rename (old new : String)

namespace Operation

def names : Operation → List String
  | delete uri => [uri]
  | rename old new => [old, new]

def apply (c : Cache) : Operation → Cache
  | delete uri => c.delete uri
  | rename old new => c.rename old new

def view (known : String → Record) : Operation → String → Record
  | delete uri => fun other => if other = uri then {} else known other
  | rename old new => fun other =>
    if other = new then (known old).overlay (known new)
    else if other = old then {}
    else known other

theorem record_apply (c : Cache) (op : Operation) : (apply c op).record = op.view c.record := by
  funext uri
  cases op with
  | delete key =>
    simp only [apply, view, record, Cache.delete, Store.get?_delete, Aggregate.Store.get?_delete]
    split <;> rfl
  | rename old new => exact c.record_rename old new uri

theorem view_of_unnamed {op : Operation} {uri : String} (other : uri ∉ op.names)
    (known : String → Record) : op.view known uri = known uri := by
  cases op with
  | delete key => exact if_neg fun same => other (by simp [names, same])
  | rename old new =>
    simp only [names, List.mem_cons, List.not_mem_nil, or_false, not_or] at other
    simp only [view, if_neg other.1, if_neg other.2]

theorem view_congr {op : Operation} {known known' : String → Record}
    (same : ∀ uri ∈ op.names, known uri = known' uri) {uri : String} (named : uri ∈ op.names) :
    op.view known uri = op.view known' uri := by
  cases op with
  | delete key => simp only [view, same uri named]
  | rename old new =>
    have first := same old (by simp [names])
    have second := same new (by simp [names])
    simp only [view, first, second, same uri named]

/-- Operations that name different addresses commute: where one acts, the other neither changes
anything nor looks. -/
theorem view_comm {first second : Operation} (apart : first.names.Disjoint second.names)
    (known : String → Record) :
    second.view (first.view known) = first.view (second.view known) := by
  have keeps : ∀ uri ∈ second.names, first.view known uri = known uri := fun uri named =>
    view_of_unnamed (fun also => apart also named) known
  have keeps' : ∀ uri ∈ first.names, second.view known uri = known uri := fun uri named =>
    view_of_unnamed (fun also => apart named also) known
  funext uri
  by_cases inFirst : uri ∈ first.names
  · rw [view_of_unnamed (fun also => apart inFirst also), view_congr keeps' inFirst]
  · rw [view_of_unnamed inFirst]
    by_cases inSecond : uri ∈ second.names
    · exact view_congr keeps inSecond
    · rw [view_of_unnamed inSecond, view_of_unnamed inSecond, view_of_unnamed inFirst]

/-- A move to an address of which nothing is known can be taken back. -/
theorem view_rename_back {known : String → Record} {old new : String} (vacant : known new = {}) :
    (rename new old).view ((rename old new).view known) = known := by
  funext uri
  by_cases same : old = new
  · subst same
    by_cases here : uri = old
    · simp [view, here]
    · simp [view, here]
  · by_cases atOld : uri = old
    · subst atOld
      simp [view, same, vacant]
    · by_cases atNew : uri = new
      · subst atNew
        simp [view, atOld, vacant]
      · simp [view, atOld, atNew]

end Operation

/-! ### Deleting twice -/

theorem drop_drop {κ ν : Type} [DecidableEq κ] (key : κ) (entries : List (κ × ν)) :
    OrderedMap.drop key (OrderedMap.drop key entries) = OrderedMap.drop key entries := by
  simp [OrderedMap.drop, List.filter_filter]

theorem store_delete_delete {ν : Type} (s : Store String ν) (uri : String) :
    (s.delete uri).delete uri = s.delete uri := by
  simp only [Store.delete, OrderedMap.erase, drop_drop]

theorem aggregates_delete_delete (s : Aggregate.Store) (uri : String) :
    (s.delete uri).delete uri = s.delete uri := by
  have gone : (s.delete uri).contains uri = false := by
    have absent := s.get?_delete uri uri
    rw [if_pos rfl] at absent
    simpa [Aggregate.Store.contains, OrderedMap.contains, Aggregate.Store.get?] using absent
  rw [Aggregate.Store.delete, if_neg (by simp [gone])]

theorem delete_delete (c : Cache) (uri : String) : (c.delete uri).delete uri = c.delete uri := by
  simp only [delete, store_delete_delete, aggregates_delete_delete]

/-- After a delete nothing is known of the address and everything of the others, and a second delete
changes nothing. After a rename the old address is unknown, the new one has in each store the entry
of the old one, or its own if there was none, and the others have theirs; a rename to an unknown
address can be taken back. Two operations that name different addresses commute. -/
theorem delete_rename_frame (c : Cache) :
    (∀ uri, (c.delete uri).Unknown uri ∧
      (∀ other, other ≠ uri → (c.delete uri).record other = c.record other) ∧
      (c.delete uri).delete uri = c.delete uri) ∧
    (∀ old new, old ≠ new →
      (c.rename old new).Unknown old ∧
      (c.rename old new).record new = (c.record old).overlay (c.record new) ∧
      ∀ other, other ≠ old → other ≠ new → (c.rename old new).record other = c.record other) ∧
    (∀ old new, c.record new = {} → Alike ((c.rename old new).rename new old) c) ∧
    ∀ first second : Operation, first.names.Disjoint second.names →
      Alike (second.apply (first.apply c)) (first.apply (second.apply c)) := by
  have deleted : ∀ uri, (c.delete uri).record = (Operation.delete uri).view c.record := fun uri =>
    Operation.record_apply c (.delete uri)
  have renamed : ∀ old new, (c.rename old new).record = (Operation.rename old new).view c.record :=
    fun old new => Operation.record_apply c (.rename old new)
  refine ⟨fun uri => ⟨?_, ?_, c.delete_delete uri⟩, fun old new different => ⟨?_, ?_, ?_⟩, ?_, ?_⟩
  · apply unknown_of_record
    rw [deleted]
    exact if_pos rfl
  · intro other outside
    rw [deleted]
    exact if_neg outside
  · apply unknown_of_record
    rw [renamed]
    exact (if_neg different).trans (if_pos rfl)
  · rw [renamed]
    exact if_pos rfl
  · intro other notOld notNew
    rw [renamed]
    exact (if_neg notNew).trans (if_neg notOld)
  · intro old new vacant
    apply alike_of_record
    intro uri
    have back := Operation.record_apply (c.rename old new) (.rename new old)
    rw [renamed, Operation.view_rename_back vacant] at back
    exact congrFun back uri
  · intro first second apart
    apply alike_of_record
    intro uri
    simp only [Operation.record_apply, Operation.view_comm apart]

/-- A file with contents and aggregates, and another one of which only the module and the number of
lines are known. -/
def twoFiles : Cache :=
  ((((({} : Cache).setContents "/w/a" "package a\n").setAggregates "/w/a"
    (.ofList [("imports", [.null])])).setModule "/w/a" .null).setModule "/w/b"
    (.boolean true)).setLineCount "/w/b" 7

theorem delete_rename_frame_twoFiles :
    (twoFiles.rename "/w/b" "/w/a").Unknown "/w/b" ∧
      (twoFiles.rename "/w/b" "/w/a").record "/w/a" =
        { contents := some "package a\n"
          modules := some (.boolean true)
          aggregates := some (.ofList [("imports", [.null])])
          lineCounts := some 7 } ∧
      (twoFiles.delete "/w/a").record "/w/b" = twoFiles.record "/w/b" ∧
      Alike ((twoFiles.rename "/w/a" "/w/c").rename "/w/c" "/w/a") twoFiles ∧
      Alike ((twoFiles.rename "/w/a" "/w/c").delete "/w/b")
        ((twoFiles.delete "/w/b").rename "/w/a" "/w/c") := by
  obtain ⟨deleted, renamed, restored, commuting⟩ := delete_rename_frame twoFiles
  obtain ⟨gone, moved, -⟩ := renamed "/w/b" "/w/a" (by decide)
  refine ⟨gone, moved.trans ?_, (deleted "/w/a").2.1 "/w/b" (by decide), ?_, ?_⟩
  · rfl
  · exact restored "/w/a" "/w/c" rfl
  · exact commuting (.rename "/w/a" "/w/c") (.delete "/w/b") (by simp [Operation.names])

end PolicyMend.Cache
