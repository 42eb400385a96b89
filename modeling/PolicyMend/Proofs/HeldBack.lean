import PolicyMend.Proofs.Relocation

/-!
Which files the commit of a run holds back: those that a conflict reaches, which is to say that
following the moves from their source leads to a path in conflict. The conflicts known beforehand,
the order of the files and the look at each destination all come to this one condition.
-/

namespace PolicyMend.Commit

open Relation

/-- Following the moves from a path leads to a path in conflict. -/
def Reached (l : Ledger) (path : String) : Prop :=
  ∃ conflicted ∈ l.conflictedPaths, ReflTransGen l.Moves path conflicted

theorem Reached.head {l : Ledger} {path next : String} (move : l.Moves path next)
    (reached : Reached l next) : Reached l path := by
  obtain ⟨conflicted, named, leads⟩ := reached
  exact ⟨conflicted, named, .head move leads⟩

variable {registry : Fix.Registry} {baseDir : String} {cache : Cache}

theorem reached_of_conflicting {old new : String}
    (conflict : (run registry baseDir cache).ledger.Conflicting (existing cache) old new) :
    Reached (run registry baseDir cache).ledger old :=
  ⟨old, mem_run_conflictedPaths.mpr ⟨old, new, conflict, .inl rfl⟩, .refl⟩

theorem exists_leaving {path next : String}
    (move : (run registry baseDir cache).ledger.Moves path next) :
    ∃ g ∈ (run registry baseDir cache).files, g.isMove = true ∧ g.source = path := by
  obtain ⟨g, member, moves, source, -⟩ := run_moves_iff.mp move
  exact ⟨g, member, moves, source⟩

theorem moves_of_mem {f : FixedFile} (member : f ∈ (run registry baseDir cache).files)
    (moves : f.isMove = true) :
    (run registry baseDir cache).ledger.Moves f.source f.dest :=
  run_moves_iff.mpr ⟨f, member, moves, rfl, rfl⟩

theorem eq_of_source_eq {f g : FixedFile} (first : f ∈ (run registry baseDir cache).files)
    (second : g ∈ (run registry baseDir cache).files) (same : f.source = g.source) : f = g :=
  List.inj_on_of_nodup_map (run_sources_nodup registry baseDir cache) first second same

/-! ### The order -/

/-- Files that wait for each other all lead into a cycle, which is a conflict. -/
theorem reached_of_stuck {stuck : List FixedFile}
    (files : ∀ f ∈ stuck, f ∈ (run registry baseDir cache).files) (isStuck : Stuck stuck)
    {f : FixedFile} (member : f ∈ stuck) :
    Reached (run registry baseDir cache).ledger f.source := by
  have closed : ∀ path ∈ stuck.map (·.source), ∃ next ∈ stuck.map (·.source),
      (run registry baseDir cache).ledger.Moves path next := by
    intro path listed
    obtain ⟨g, inside, rfl⟩ := List.mem_map.mp listed
    obtain ⟨h, inside', moves, same⟩ := isStuck g inside
    refine ⟨h.source, List.mem_map_of_mem inside', ?_⟩
    rw [same]
    exact moves_of_mem (files g inside) moves
  obtain ⟨turn, leads, cycle⟩ := Ledger.reaches_cycle closed (List.mem_map_of_mem member)
  obtain ⟨next, move, -⟩ := TransGen.head'_iff.mp cycle
  refine ⟨turn, ?_, leads⟩
  exact mem_run_conflictedPaths.mpr ⟨turn, next, .inr ⟨move, .inr cycle⟩, .inl rfl⟩

theorem mem_before_of_waitsFor {before after : List FixedFile} {f g : FixedFile}
    (split : order (run registry baseDir cache).files = before ++ f :: after)
    (unreached : ¬Reached (run registry baseDir cache).ledger f.source)
    (member : g ∈ (run registry baseDir cache).files) (waits : WaitsFor f g) : g ∈ before := by
  have notStuck : f ∉ waiting^[(run registry baseDir cache).files.length]
      (run registry baseDir cache).files := fun inside => unreached (reached_of_stuck
    (fun _ left => (iterate_waiting_sublist _ _).subset left) (iterate_waiting_stuck _) inside)
  rw [order_eq] at split
  exact (flatMap_readyIn_settled _ _).mem_before notStuck split member waits

/-! ### The look at the destination -/

open Classical in
/-- What a commit comes to if it holds back the files that a conflict reaches, and no others. -/
noncomputable def verdict (l : Ledger) (files : List FixedFile) : CommitSummary where
  applied := files.filter fun f => ¬Reached l f.source
  conflicted := (files.filter fun f => Reached l f.source).map (·.source)

theorem mem_verdict_applied {l : Ledger} {files : List FixedFile} {f : FixedFile} :
    f ∈ (verdict l files).applied ↔ f ∈ files ∧ ¬Reached l f.source := by
  simp [verdict]

section Turn

variable {done todo : List FixedFile} {f : FixedFile} {state : Cache × CommitSummary}
  (split : order (run registry baseDir cache).files = done ++ f :: todo)
  (midway : Midway cache (f :: todo) state)
  (decided : state.2.applied = (verdict (run registry baseDir cache).ledger done).applied)

include split in
theorem mem_files_iff {g : FixedFile} :
    g ∈ (run registry baseDir cache).files ↔ g ∈ done ∨ g ∈ f :: todo := by
  rw [← (order_perm _).mem_iff, split, List.mem_append]

include midway in
theorem isOccupied_iff {uri : String} :
    isOccupied state.1 uri = true ↔
      (∃ g ∈ state.2.applied, g.dest = uri) ∨
        (leftAt cache state.2.applied uri).isOccupied = true := by
  rw [isOccupied_eq, midway.record, isOccupied_relocated_iff]

include split decided in
theorem mem_files_of_applied {g : FixedFile} (applied : g ∈ state.2.applied) :
    g ∈ (run registry baseDir cache).files := by
  rw [decided, mem_verdict_applied] at applied
  exact (mem_files_iff split).mpr (.inl applied.1)

include split midway decided

/-- A destination that is taken when the turn of a file comes is taken because of a conflict. -/
theorem reached_of_taken (moves : f.isMove = true) (taken : isOccupied state.1 f.dest = true) :
    Reached (run registry baseDir cache).ledger f.source := by
  have member : f ∈ (run registry baseDir cache).files := (mem_files_iff split).mpr (by simp)
  have move := moves_of_mem member moves
  have appliedFile : ∀ g ∈ state.2.applied, g ∈ (run registry baseDir cache).files := fun _ =>
    mem_files_of_applied split decided
  by_contra unreached
  -- A file that stays on the destination, or was to stay there, is a conflict by itself.
  have leaves : isOccupied cache f.dest = true →
      ∃ g ∈ (run registry baseDir cache).files, g.isMove = true ∧ g.source = f.dest := by
    intro occupied
    by_contra stays
    refine unreached (reached_of_conflicting (.inr ⟨move, .inl ⟨mem_existing.mpr occupied, ?_⟩⟩))
    refine Bool.eq_false_iff.mpr fun away => stays ?_
    obtain ⟨next, further⟩ := Ledger.moves_contains_iff.mp away
    exact exists_leaving further
  rcases (isOccupied_iff midway).mp taken with ⟨g, applied, same⟩ | left
  · have different := midway.source_ne applied List.mem_cons_self
    by_cases moves' : g.isMove = true
    · have crowded := moves_of_mem (appliedFile g applied) moves'
      rw [same] at crowded
      exact unreached (reached_of_conflicting (.inl ⟨move, g.source, different, crowded⟩))
    · have stays : g.source = f.dest := by
        rw [← same]
        exact FixedFile.source_eq_dest moves'
      have occupied := (run_files_fresh (appliedFile g applied)).isOccupied
      rw [stays] at occupied
      obtain ⟨h, member', moving, from_⟩ := leaves occupied
      have equal := eq_of_source_eq member' (appliedFile g applied) (from_.trans stays.symm)
      exact moves' (equal ▸ moving)
  · by_cases moved : ∀ g ∈ state.2.applied, g.isMove = true → g.source ≠ f.dest
    · rw [leftAt_of_unmoved moved] at left
      obtain ⟨h, member', moving, from_⟩ := leaves left
      have earlier := mem_before_of_waitsFor split unreached member' ⟨moves, from_⟩
      have unreached' : ¬Reached (run registry baseDir cache).ledger h.source := fun reached =>
        unreached (.head move (from_ ▸ reached))
      have applied : h ∈ state.2.applied := by
        rw [decided, mem_verdict_applied]
        exact ⟨earlier, unreached'⟩
      exact moved h applied moving from_
    · push Not at moved
      obtain ⟨g, applied, moving, from_⟩ := moved
      rw [← from_, leftAt_of_moved applied moving] at left
      exact absurd left (by simp)

/-- A file whose destination is free when its turn comes, and which is in no conflict itself, is
reached by none. -/
theorem unreached_of_free (source : f.source ∉ (run registry baseDir cache).ledger.conflictedPaths)
    (dest : f.dest ∉ (run registry baseDir cache).ledger.conflictedPaths)
    (vacant : f.isMove = true → isOccupied state.1 f.dest = false) :
    ¬Reached (run registry baseDir cache).ledger f.source := by
  have member : f ∈ (run registry baseDir cache).files := (mem_files_iff split).mpr (by simp)
  rintro ⟨conflicted, named, leads⟩
  rcases ReflTransGen.cases_head leads with rfl | ⟨next, move, rest⟩
  · exact source named
  obtain ⟨f', member', moves, same, rfl⟩ := run_moves_iff.mp move
  obtain rfl : f' = f := eq_of_source_eq member' member same
  rcases ReflTransGen.cases_head rest with rfl | ⟨further, away, onward⟩
  · exact dest named
  -- The next file on the way is still in the place to which this one goes.
  obtain ⟨h, isFile, moving, from_⟩ := exists_leaving away
  have occupied := (run_files_fresh isFile).isOccupied
  have taken : isOccupied state.1 f'.dest = true := by
    rcases (mem_files_iff split).mp isFile with earlier | later
    · refine (isOccupied_iff midway).mpr (.inr ?_)
      rw [leftAt_of_unmoved, ← from_]
      · exact occupied
      · intro g applied _ source'
        have equal := eq_of_source_eq (mem_files_of_applied split decided applied) isFile
          (source'.trans from_.symm)
        rw [decided, equal, mem_verdict_applied, from_] at applied
        exact applied.2 ⟨conflicted, named, .head away onward⟩
    · rw [← from_, isOccupied_eq, midway.intact later]
      exact occupied
  rw [vacant moves] at taken
  exact absurd taken (by simp)

end Turn

/-! ### The whole commit -/

theorem step_verdict {done todo : List FixedFile} {f : FixedFile} {state : Cache × CommitSummary}
    (split : order (run registry baseDir cache).files = done ++ f :: todo)
    (midway : Midway cache (f :: todo) state)
    (decided : state.2 = verdict (run registry baseDir cache).ledger done) :
    (step (run registry baseDir cache).ledger.conflictedPaths state f).2 =
      verdict (run registry baseDir cache).ledger (done ++ [f]) := by
  have decided' := congrArg CommitSummary.applied decided
  have member : f ∈ (run registry baseDir cache).files := (mem_files_iff split).mpr (by simp)
  have taken := step_spec (run registry baseDir cache).ledger.conflictedPaths state.1 state.2 f
  generalize step _ (state.1, state.2) f = next at taken ⊢
  cases taken with
  | held reason =>
    have reached : Reached (run registry baseDir cache).ledger f.source := by
      rcases reason with source | dest | ⟨-, moves, taken⟩
      · exact ⟨f.source, source, .refl⟩
      · by_cases moves : f.isMove = true
        · exact ⟨f.dest, dest, .single (moves_of_mem member moves)⟩
        · have stays := FixedFile.source_eq_dest moves
          exact ⟨f.source, stays ▸ dest, .refl⟩
      · exact reached_of_taken split midway decided' moves taken
    simp [verdict, decided, List.filter_append, reached]
  | late source dest changed => exact absurd (midway.isFresh List.mem_cons_self) changed
  | written source dest fresh vacant =>
    have unreached := unreached_of_free split midway decided' source dest vacant
    simp [verdict, decided, List.filter_append, unreached]

theorem foldl_step_verdict {done todo : List FixedFile} {state : Cache × CommitSummary}
    (split : order (run registry baseDir cache).files = done ++ todo)
    (midway : Midway cache todo state)
    (decided : state.2 = verdict (run registry baseDir cache).ledger done) :
    (todo.foldl (step (run registry baseDir cache).ledger.conflictedPaths) state).2 =
      verdict (run registry baseDir cache).ledger (done ++ todo) := by
  induction todo generalizing done state with
  | nil => simpa using decided
  | cons f todo ih =>
    have split' : order (run registry baseDir cache).files = (done ++ [f]) ++ todo := by
      simpa using split
    have rest := ih split' (step_midway _ midway) (step_verdict split midway decided)
    simpa using rest

theorem commit_run_summary (registry : Fix.Registry) (baseDir : String) (cache : Cache) :
    ((run registry baseDir cache).commit cache).2 =
      verdict (run registry baseDir cache).ledger (order (run registry baseDir cache).files) :=
  @foldl_step_verdict registry baseDir cache [] _ _ rfl
    (midway_start (run_sources_nodup registry baseDir cache) fun _ => run_files_fresh) rfl

theorem exists_reached_iff :
    (∃ f ∈ (run registry baseDir cache).files,
        Reached (run registry baseDir cache).ledger f.source) ↔
      (run registry baseDir cache).ledger.hasConflicts = true := by
  rw [run_hasConflicts_iff]
  constructor
  · rintro ⟨f, -, path, named, -⟩
    obtain ⟨old, new, conflict, -⟩ := mem_run_conflictedPaths.mp named
    exact ⟨old, new, conflict⟩
  · rintro ⟨old, new, conflict⟩
    obtain ⟨f, member, -, rfl, -⟩ := run_moves_iff.mp conflict.moves
    exact ⟨f, member, reached_of_conflicting conflict⟩

end PolicyMend.Commit

namespace PolicyMend

open Commit in
/-- The commit of a run to the cache it has seen finds nothing stale. It holds back exactly the
files that a conflict reaches and applies the others, so it applies all of them if and only if the
ledger has no conflict. -/
theorem commit_run_holds_back_reached (registry : Fix.Registry) (baseDir : String) (cache : Cache) :
    let o := run registry baseDir cache
    let summary := (o.commit cache).2
    summary.stale = [] ∧
      (∀ f ∈ o.files,
        (f.source ∈ summary.conflicted ↔ Reached o.ledger f.source) ∧
        (f ∈ summary.applied ↔ ¬Reached o.ledger f.source)) ∧
      (summary.conflicted = [] ↔ o.ledger.hasConflicts = false) ∧
      (summary.applied.Perm o.files ↔ o.ledger.hasConflicts = false) := by
  intro o summary
  have decided : summary = verdict o.ledger (order o.files) :=
    commit_run_summary registry baseDir cache
  have listed : ∀ f, f ∈ order o.files ↔ f ∈ o.files := fun f => (order_perm o.files).mem_iff
  have clean : o.ledger.hasConflicts = false ↔ ∀ f ∈ o.files, ¬Reached o.ledger f.source := by
    rw [Bool.eq_false_iff, ne_eq, ← exists_reached_iff]
    simp [o]
  refine ⟨by rw [decided]; rfl, fun f member => ⟨?_, ?_⟩, ?_, ?_⟩
  · have held : f.source ∈ (verdict o.ledger (order o.files)).conflicted ↔
        ∃ g ∈ o.files, Reached o.ledger g.source ∧ g.source = f.source := by
      simp [verdict, listed, and_assoc]
    rw [decided, held]
    constructor
    · rintro ⟨g, -, reached, same⟩
      exact same ▸ reached
    · intro reached
      exact ⟨f, member, reached, rfl⟩
  · rw [decided, mem_verdict_applied, listed]
    exact and_iff_right member
  · rw [decided, clean]
    simp [verdict, listed]
  · rw [decided, clean]
    constructor
    · intro perm f member
      exact (mem_verdict_applied.mp (perm.mem_iff.mpr member)).2
    · intro unreached
      have all : (verdict o.ledger (order o.files)).applied = order o.files := by
        simp only [verdict, List.filter_eq_self, listed, decide_eq_true_eq]
        exact unreached
      rw [all]
      exact order_perm o.files

/-- A file in `w` that belongs to `x`, one in `x` that belongs to `y`, one in `y` that belongs to
`z`, and one in `z` that stays there. Only the last two paths are in conflict. -/
def blockedFiles : Cache :=
  let misplaced : List Diagnostic :=
    [{ code := "directory-package-mismatch", message := "", location := ⟨1, 1, none⟩ }]
  ((((((({} : Cache).setContents "/work/w/p.rego" "package x\n").setContents
    "/work/x/p.rego" "package y\n").setContents "/work/y/p.rego" "package z\n").setContents
    "/work/z/p.rego" "package z\n").setDiagnostics "/work/w/p.rego" misplaced).setDiagnostics
    "/work/x/p.rego" misplaced).setDiagnostics "/work/y/p.rego" misplaced

def blockedFile : FixedFile :=
  ⟨"/work/w/p.rego", "/work/x/p.rego", "package x\n", .compute "package x\n"⟩

theorem commit_run_holds_back_reached_blockedFiles :
    (run .defaults "/work" blockedFiles).ledger.conflictedPaths =
        ["/work/y/p.rego", "/work/z/p.rego"] ∧
      blockedFile ∈ (run .defaults "/work" blockedFiles).files ∧
      (blockedFile.source ∈
          ((run .defaults "/work" blockedFiles).commit blockedFiles).2.conflicted ↔
        Commit.Reached (run .defaults "/work" blockedFiles).ledger blockedFile.source) ∧
      (blockedFile ∈ ((run .defaults "/work" blockedFiles).commit blockedFiles).2.applied ↔
        ¬Commit.Reached (run .defaults "/work" blockedFiles).ledger blockedFile.source) := by
  have member : blockedFile ∈ (run .defaults "/work" blockedFiles).files := by decide +kernel
  obtain ⟨-, decided, -⟩ := commit_run_holds_back_reached .defaults "/work" blockedFiles
  exact ⟨by decide +kernel, member, decided blockedFile member⟩

end PolicyMend
