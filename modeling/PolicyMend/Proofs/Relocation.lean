import PolicyMend.Proofs.RunFiles

/-!
A commit to the cache that the run has seen. Although files are written one after the other, and
some onto places that others have just left, the records end up as if all applied files had gone
from their sources to their destinations at once.
-/

namespace PolicyMend.Commit

/-! ### All files at once -/

/-- What is left at an address when the files that move away are taken from it. -/
def leftAt (start : Cache) (applied : List FixedFile) (uri : String) : Record :=
  if applied.any fun f => f.isMove && f.source = uri then {} else start.record uri

def relocated (start : Cache) (applied : List FixedFile) (uri : String) : Record :=
  match applied.find? (·.dest = uri) with
  | some f =>
    { (start.record f.source).overlay (leftAt start applied uri) with contents := some f.contents }
  | none => leftAt start applied uri

theorem leftAt_of_unmoved {start : Cache} {applied : List FixedFile} {uri : String}
    (unmoved : ∀ f ∈ applied, f.isMove = true → f.source ≠ uri) :
    leftAt start applied uri = start.record uri := by
  refine if_neg ?_
  simpa using unmoved

theorem leftAt_of_moved {start : Cache} {applied : List FixedFile} {f : FixedFile}
    (member : f ∈ applied) (moves : f.isMove = true) : leftAt start applied f.source = {} := by
  refine if_pos ?_
  simpa using ⟨f, member, moves, rfl⟩

theorem leftAt_append_of_ne {start : Cache} {applied : List FixedFile} {f : FixedFile}
    {uri : String} (other : f.isMove = true → f.source ≠ uri) :
    leftAt start (applied ++ [f]) uri = leftAt start applied uri := by
  have unseen : (f.isMove && decide (f.source = uri)) = false := by simpa using other
  simp [leftAt, unseen]

theorem isOccupied_leftAt_append {start : Cache} {applied : List FixedFile} {f : FixedFile}
    {uri : String} (vacant : (leftAt start applied uri).isOccupied = false) :
    (leftAt start (applied ++ [f]) uri).isOccupied = false := by
  by_cases taken : f.isMove = true ∧ f.source = uri
  · obtain ⟨moves, rfl⟩ := taken
    rw [leftAt_of_moved (by simp) moves]
    rfl
  · rw [leftAt_append_of_ne fun moves same => taken ⟨moves, same⟩]
    exact vacant

theorem relocated_of_dest {start : Cache} {applied : List FixedFile}
    (distinct : (applied.map (·.dest)).Nodup) {f : FixedFile} (member : f ∈ applied) :
    relocated start applied f.dest =
      { (start.record f.source).overlay (leftAt start applied f.dest) with
        contents := some f.contents } := by
  have found : applied.find? (·.dest = f.dest) = some f := by
    cases first : applied.find? (·.dest = f.dest) with
    | none =>
      rw [List.find?_eq_none] at first
      exact absurd (decide_eq_true rfl) (first f member)
    | some g =>
      have same : g.dest = f.dest := by simpa using List.find?_some first
      rw [List.inj_on_of_nodup_map distinct (List.mem_of_find?_eq_some first) member same]
  rw [relocated, found]

theorem relocated_of_no_dest {start : Cache} {applied : List FixedFile} {uri : String}
    (free : ∀ f ∈ applied, f.dest ≠ uri) :
    relocated start applied uri = leftAt start applied uri := by
  have absent : applied.find? (·.dest = uri) = none := by simpa using free
  rw [relocated, absent]

theorem isOccupied_relocated_iff {start : Cache} {applied : List FixedFile} {uri : String} :
    (relocated start applied uri).isOccupied = true ↔
      (∃ f ∈ applied, f.dest = uri) ∨ (leftAt start applied uri).isOccupied = true := by
  unfold relocated
  split
  · next f found =>
    have same : f.dest = uri := by simpa using List.find?_some found
    exact ⟨fun _ => .inl ⟨f, List.mem_of_find?_eq_some found, same⟩, fun _ => rfl⟩
  · next absent =>
    have free : ¬∃ f ∈ applied, f.dest = uri := by simpa using absent
    simp [free]

/-! ### One file after the other -/

/-- A commit between two files: those applied so far might as well have gone at once, and nothing
has yet reached the sources of those to come. -/
structure Midway (start : Cache) (todo : List FixedFile) (state : Cache × CommitSummary) :
    Prop where
  record : ∀ uri, state.1.record uri = relocated start state.2.applied uri
  fresh : ∀ f ∈ todo, IsFresh start f
  sources : ((state.2.applied ++ todo).map (·.source)).Nodup
  dests : (state.2.applied.map (·.dest)).Nodup
  ahead : ∀ f ∈ state.2.applied, ∀ g ∈ todo, f.dest ≠ g.source
  landed : ∀ f ∈ state.2.applied, f.isMove = true →
    (leftAt start state.2.applied f.dest).isOccupied = false

theorem IsFresh.isOccupied {cache : Cache} {f : FixedFile} (fresh : IsFresh cache f) :
    (cache.record f.source).isOccupied = true := by
  obtain ⟨contents, found, -⟩ := Option.map_eq_some_iff.mp fresh
  simp [Record.isOccupied, Cache.record, found]

variable {start : Cache} {todo : List FixedFile} {state : Cache × CommitSummary}

theorem Midway.source_ne (midway : Midway start todo state) {f g : FixedFile}
    (applied : f ∈ state.2.applied) (member : g ∈ todo) : f.source ≠ g.source := by
  have apart := midway.sources
  rw [List.map_append, List.nodup_append] at apart
  exact apart.2.2 _ (List.mem_map_of_mem applied) _ (List.mem_map_of_mem member)

theorem Midway.intact (midway : Midway start todo state) {g : FixedFile} (member : g ∈ todo) :
    state.1.record g.source = start.record g.source := by
  rw [midway.record, relocated_of_no_dest fun f applied => midway.ahead f applied g member]
  exact leftAt_of_unmoved fun f applied _ => midway.source_ne applied member

theorem Midway.isFresh (midway : Midway start todo state) {g : FixedFile} (member : g ∈ todo) :
    IsFresh state.1 g := by
  have same : state.1.contents.get? g.source = start.contents.get? g.source :=
    congrArg Record.contents (midway.intact member)
  rw [IsFresh, same]
  exact midway.fresh g member

theorem Midway.skip {f : FixedFile} {summary : CommitSummary}
    (midway : Midway start (f :: todo) state) (same : summary.applied = state.2.applied) :
    Midway start todo (state.1, summary) where
  record uri := by rw [same]; exact midway.record uri
  fresh g member := midway.fresh g (List.mem_cons_of_mem f member)
  sources := by
    rw [same]
    exact midway.sources.sublist
      (((List.sublist_cons_self f todo).append_left state.2.applied).map _)
  dests := by rw [same]; exact midway.dests
  ahead g applied h member :=
    midway.ahead g (same ▸ applied) h (List.mem_cons_of_mem f member)
  landed := by rw [same]; exact midway.landed

section Written

variable {f : FixedFile} (midway : Midway start (f :: todo) state)
  (vacant : f.isMove = true → isOccupied state.1 f.dest = false)

include midway vacant

theorem Midway.dest_free : ∀ g ∈ state.2.applied, g.dest ≠ f.dest := by
  intro g applied same
  by_cases moves : f.isMove = true
  · have taken : (relocated start state.2.applied f.dest).isOccupied = true :=
      isOccupied_relocated_iff.mpr (.inl ⟨g, applied, same⟩)
    rw [← midway.record, ← isOccupied_eq, vacant moves] at taken
    exact absurd taken (by simp)
  · have stays := FixedFile.source_eq_dest moves
    exact midway.ahead g applied f List.mem_cons_self (same.trans stays.symm)

theorem Midway.dests_written : ((state.2.applied ++ [f]).map (·.dest)).Nodup := by
  rw [List.map_append, List.nodup_append]
  refine ⟨midway.dests, by simp, ?_⟩
  intro dest earlier other last
  obtain ⟨g, applied, rfl⟩ := List.mem_map.mp earlier
  obtain rfl : other = f.dest := by simpa using last
  exact midway.dest_free vacant g applied

theorem Midway.dest_ne_source : ∀ g ∈ todo, f.dest ≠ g.source := by
  intro g member same
  by_cases moves : f.isMove = true
  · have taken := (midway.fresh g (List.mem_cons_of_mem f member)).isOccupied
    rw [← midway.intact (List.mem_cons_of_mem f member), ← same, ← isOccupied_eq,
      vacant moves] at taken
    exact absurd taken (by simp)
  · have stays := FixedFile.source_eq_dest moves
    have apart := midway.sources
    rw [List.map_append, List.map_cons, List.nodup_append, List.nodup_cons] at apart
    exact apart.2.1.1 (List.mem_map.mpr ⟨g, member, (stays.trans same).symm⟩)

theorem Midway.record_written (uri : String) :
    (write state.1 f).record uri = relocated start (state.2.applied ++ [f]) uri := by
  have free := midway.dest_free vacant
  have stillFree : ∀ g ∈ state.2.applied, g.dest ≠ f.source := fun g applied =>
    midway.ahead g applied f List.mem_cons_self
  have atDest : leftAt start (state.2.applied ++ [f]) f.dest =
      leftAt start state.2.applied f.dest :=
    leftAt_append_of_ne FixedFile.isMove_iff.mp
  rw [record_write, midway.intact List.mem_cons_self]
  by_cases arrives : uri = f.dest
  · subst arrives
    rw [if_pos rfl, midway.record, relocated_of_no_dest free,
      relocated_of_dest (midway.dests_written vacant) (by simp), atDest]
  · rw [if_neg arrives]
    by_cases leaves : uri = f.source
    · subst leaves
      have moves := FixedFile.isMove_iff.mpr arrives
      rw [if_pos rfl, relocated_of_no_dest, leftAt_of_moved (by simp) moves]
      intro g member
      rcases List.mem_append.mp member with earlier | last
      · exact stillFree g earlier
      · obtain rfl := List.mem_singleton.mp last
        exact Ne.symm arrives
    · rw [if_neg leaves, midway.record, relocated, relocated, List.find?_append,
        leftAt_append_of_ne fun _ => Ne.symm leaves]
      have other : [f].find? (·.dest = uri) = none := by simpa using Ne.symm arrives
      rw [other, Option.or_none]

theorem Midway.written :
    Midway start todo
      (write state.1 f, { state.2 with applied := state.2.applied ++ [f] }) where
  record := midway.record_written vacant
  fresh g member := midway.fresh g (List.mem_cons_of_mem f member)
  sources := by simpa using midway.sources
  dests := midway.dests_written vacant
  ahead g applied h member := by
    rcases List.mem_append.mp applied with earlier | last
    · exact midway.ahead g earlier h (List.mem_cons_of_mem f member)
    · obtain rfl := List.mem_singleton.mp last
      exact midway.dest_ne_source vacant h member
  landed g applied moves := by
    rcases List.mem_append.mp applied with earlier | last
    · exact isOccupied_leftAt_append (midway.landed g earlier moves)
    · obtain rfl := List.mem_singleton.mp last
      refine isOccupied_leftAt_append ?_
      rw [← relocated_of_no_dest (midway.dest_free vacant), ← midway.record]
      exact vacant moves

end Written

theorem step_midway (conflicted : List String) {f : FixedFile}
    (midway : Midway start (f :: todo) state) :
    Midway start todo (step conflicted state f) := by
  have taken := step_spec conflicted state.1 state.2 f
  generalize step conflicted (state.1, state.2) f = next at taken ⊢
  cases taken with
  | held reason => exact midway.skip rfl
  | late source dest changed => exact midway.skip rfl
  | written source dest fresh vacant => exact midway.written vacant

theorem foldl_step_midway (conflicted : List String) (midway : Midway start todo state) :
    Midway start [] (todo.foldl (step conflicted) state) := by
  induction todo generalizing state with
  | nil => exact midway
  | cons f todo ih => exact ih (step_midway conflicted midway)

theorem midway_start {files : List FixedFile} (distinct : (files.map (·.source)).Nodup)
    (fresh : ∀ f ∈ files, IsFresh start f) : Midway start (order files) (start, {}) where
  record _ := rfl
  fresh f member := fresh f ((order_perm files).mem_iff.mp member)
  sources := ((order_perm files).map _).nodup_iff.mpr distinct
  dests := List.nodup_nil
  ahead _ applied := absurd applied (List.not_mem_nil)
  landed _ applied := absurd applied (List.not_mem_nil)

/-! ### The number of files -/

theorem size_write {cache : Cache} {f : FixedFile} (fresh : IsFresh cache f)
    (vacant : f.isMove = true → isOccupied cache f.dest = false) :
    (write cache f).contents.size = cache.contents.size := by
  obtain ⟨contents, found, -⟩ := Option.map_eq_some_iff.mp fresh
  simp only [write, Cache.setContents]
  by_cases moves : f.isMove = true
  · have free : cache.contents.contains f.dest = false :=
      (Bool.or_eq_false_iff.mp (vacant moves)).1
    have arrived : (cache.contents.rename f.source f.dest).contains f.dest = true := by
      show ((cache.contents.rename f.source f.dest).get? f.dest).isSome = true
      rw [Store.get?_rename, if_pos rfl, found]
      rfl
    rw [if_pos moves]
    exact (Store.size_set_of_contains _ _ arrived).trans (Store.size_rename_of_vacant _ free)
  · have stays := FixedFile.source_eq_dest moves
    have present : cache.contents.contains f.dest = true := by
      show (cache.contents.get? f.dest).isSome = true
      rw [← stays, found]
      rfl
    rw [if_neg moves]
    exact Store.size_set_of_contains _ _ present

theorem foldl_step_size (conflicted : List String) (files : List FixedFile)
    (state : Cache × CommitSummary) :
    (files.foldl (step conflicted) state).1.contents.size = state.1.contents.size := by
  induction files generalizing state with
  | nil => rfl
  | cons f files ih =>
    rw [List.foldl_cons, ih]
    have taken := step_spec conflicted state.1 state.2 f
    generalize step conflicted (state.1, state.2) f = next at taken ⊢
    cases taken with
    | held reason => rfl
    | late source dest changed => rfl
    | written source dest fresh vacant => exact size_write fresh vacant

/-! ### The commit of a run -/

/-- One cache is another after some files have all gone at once from their sources to their
destinations, each with its record and with new contents. -/
structure Relocates (before after : Cache) (applied : List FixedFile) : Prop where
  distinct : (applied.map (·.dest)).Nodup
  arrived : ∀ f ∈ applied,
    after.record f.dest = { before.record f.source with contents := some f.contents }
  vacated : ∀ f ∈ applied, f.isMove = true → (∀ g ∈ applied, g.dest ≠ f.source) →
    after.record f.source = {}
  kept : ∀ uri, (∀ f ∈ applied, f.dest ≠ uri) → (∀ f ∈ applied, f.isMove = true → f.source ≠ uri) →
    after.record uri = before.record uri
  notOverwritten : ∀ uri, isOccupied before uri = true → (∀ f ∈ applied, f.source ≠ uri) →
    after.record uri = before.record uri
  count : after.contents.size = before.contents.size

theorem Midway.leftAt_landed (midway : Midway start todo state) (anchored : start.Anchored)
    {f : FixedFile} (applied : f ∈ state.2.applied) (moves : f.isMove = true) :
    leftAt start state.2.applied f.dest = {} := by
  have vacant := midway.landed f applied moves
  unfold leftAt at vacant ⊢
  split at vacant
  · next taken => rw [if_pos taken]
  · next stays =>
    rw [if_neg stays]
    exact anchored f.dest vacant

theorem Midway.dest_ne_of_occupied (midway : Midway start todo state) {uri : String}
    (occupied : isOccupied start uri = true) (unmoved : ∀ f ∈ state.2.applied, f.source ≠ uri) :
    ∀ f ∈ state.2.applied, f.dest ≠ uri := by
  rintro f applied rfl
  have moves := FixedFile.isMove_iff.mpr (unmoved f applied)
  have vacant := midway.landed f applied moves
  rw [leftAt_of_unmoved fun g applied _ => unmoved g applied, ← isOccupied_eq, occupied] at vacant
  exact absurd vacant (by simp)

theorem Midway.relocates (midway : Midway start todo state) (anchored : start.Anchored)
    (count : state.1.contents.size = start.contents.size) :
    Relocates start state.1 state.2.applied where
  distinct := midway.dests
  arrived f applied := by
    rw [midway.record, relocated_of_dest midway.dests applied]
    by_cases moves : f.isMove = true
    · rw [midway.leftAt_landed anchored applied moves, Record.overlay_empty]
    · have stays := FixedFile.source_eq_dest moves
      have unmoved : ∀ g ∈ state.2.applied, g.isMove = true → g.source ≠ f.dest := by
        intro g applied' moves' same
        have sources := midway.sources
        rw [List.map_append, List.nodup_append] at sources
        have equal := List.inj_on_of_nodup_map sources.1 applied' applied (same.trans stays.symm)
        exact moves (equal ▸ moves')
      rw [leftAt_of_unmoved unmoved, ← stays, Record.overlay_self]
  vacated f applied moves free := by
    rw [midway.record, relocated_of_no_dest free, leftAt_of_moved applied moves]
  kept uri free unmoved := by
    rw [midway.record, relocated_of_no_dest free, leftAt_of_unmoved unmoved]
  notOverwritten uri occupied unmoved := by
    have left : leftAt start state.2.applied uri = start.record uri :=
      leftAt_of_unmoved fun f applied _ => unmoved f applied
    have free := midway.dest_ne_of_occupied occupied unmoved
    rw [midway.record, relocated_of_no_dest free, left]
  count := count

theorem commit_run_midway (registry : Fix.Registry) (baseDir : String) (cache : Cache) :
    Midway cache [] ((run registry baseDir cache).commit cache) :=
  foldl_step_midway _ (midway_start (run_sources_nodup registry baseDir cache)
    fun _ => run_files_fresh)

end PolicyMend.Commit

namespace PolicyMend

open Commit in
/-- The commit of a run to the cache it has seen moves the records of all applied files at once. -/
theorem commit_run_relocates (registry : Fix.Registry) (baseDir : String) (cache : Cache)
    (anchored : cache.Anchored) :
    Relocates cache ((run registry baseDir cache).commit cache).1
      ((run registry baseDir cache).commit cache).2.applied :=
  (commit_run_midway registry baseDir cache).relocates anchored (foldl_step_size _ _ _)

/-- A file in `x` that belongs to `y`, and one in `y` that belongs to `z`. -/
def chainedFiles : Cache :=
  let misplaced : List Diagnostic :=
    [{ code := "directory-package-mismatch", message := "", location := ⟨1, 1, none⟩ }]
  (((({} : Cache).setContents "/work/x/p.rego" "package y\n").setContents
    "/work/y/p.rego" "package z\n").setDiagnostics "/work/x/p.rego" misplaced).setDiagnostics
    "/work/y/p.rego" misplaced

theorem commit_run_relocates_chainedFiles :
    let committed := (run .defaults "/work" chainedFiles).commit chainedFiles
    chainedFiles.Anchored ∧
      committed.2.applied.map (fun f => (f.source, f.dest)) =
        [("/work/y/p.rego", "/work/z/p.rego"), ("/work/x/p.rego", "/work/y/p.rego")] ∧
      Commit.Relocates chainedFiles committed.1 committed.2.applied := by
  have anchored : chainedFiles.Anchored :=
    (((Cache.anchored_empty.setContents _ _).setContents _ _).setDiagnostics _ rfl).setDiagnostics
      _ rfl
  exact ⟨anchored, by decide +kernel, commit_run_relocates .defaults "/work" chainedFiles anchored⟩

end PolicyMend
