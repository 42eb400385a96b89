import PolicyMend.Proofs.CommitSteps
import PolicyMend.Proofs.MoveConflicts
import PolicyMend.Proofs.Sorting

/-!
What a run makes of a cache. Every address with contents is visited once, in ascending order, and
gives a file if some fixer edits it. Main statements: the files are what `fixedFile?` says of their
sources, and the moves of the ledger are the moves of these files.
-/

namespace PolicyMend

namespace Run

/-! ### The path of a file -/

/-- Where the renames among some edits lead, from a path on. -/
def lead (path : String) (edits : List Fix.Edit) : String :=
  (edits.filterMap (·.rename)).foldl (fun _ rename => rename.dest) path

/-- A file stands where the renames among its edits have led it from its address. -/
def Progress.IsLed (uri : String) (p : Progress) : Prop := p.path = lead uri p.edits

theorem Progress.accept_isLed {uri : String} {p : Progress} (led : p.IsLed uri)
    (edit : Fix.Edit) : (p.accept edit).IsLed uri := by
  simp only [IsLed, accept, lead, List.filterMap_append, List.foldl_append] at led ⊢
  cases renamed : edit.rename with
  | none => simp [renamed, led]
  | some rename => simp [renamed]

theorem Progress.step_isLed {uri baseDir : String} {locations : OrderedMap String (List Location)}
    {p : Progress} (led : p.IsLed uri) (fixer : Fix.Fixer) :
    (p.step baseDir locations fixer).IsLed uri := by
  unfold step
  split
  · exact led
  · split
    · next edits _ =>
      exact List.foldlRecOn edits accept led fun _ led edit _ => accept_isLed led edit
    · exact led

theorem mend_isLed (registry : Fix.Registry) (baseDir uri contents : String)
    (locations : OrderedMap String (List Location)) :
    (mend registry baseDir uri contents locations).IsLed uri :=
  List.foldlRecOn registry.fixers _ rfl fun _ led fixer _ => Progress.step_isLed led fixer

/-! ### The moves of the ledger -/

/-- A ledger in which the file of an address moves to a path, or stays if that is the address. -/
def Tracks (l : Ledger) (uri path : String) : Prop :=
  l.moves.get? uri = if path = uri then none else some path

theorem foldl_registerMove {l : Ledger} {uri path : String} (tracks : Tracks l uri path)
    (renames : List Fix.Rename) :
    let l' := renames.foldl (fun l rename => l.registerMove rename.dest uri) l
    Tracks l' uri (renames.foldl (fun _ rename => rename.dest) path) ∧
      ∀ other, other ≠ uri → l'.moves.get? other = l.moves.get? other := by
  induction renames generalizing l path with
  | nil => exact ⟨tracks, fun _ _ => rfl⟩
  | cons rename renames ih =>
    have next : Tracks (l.registerMove rename.dest uri) uri rename.dest := by
      rw [Tracks, Ledger.get?_registerMove, if_pos rfl]
    obtain ⟨tracked, kept⟩ := ih next
    refine ⟨tracked, fun other different => ?_⟩
    rw [List.foldl_cons, kept other different, Ledger.get?_registerMove, if_neg different]

theorem foldl_addFix (path : String) (edits : List Fix.Edit) (l : Ledger) :
    let l' := edits.foldl (fun l edit => l.addFix path edit.title edit.root) l
    l'.moves = l.moves ∧ l'.sourceFile = l.sourceFile ∧ l'.manyToOne = l.manyToOne := by
  induction edits generalizing l with
  | nil => exact ⟨rfl, rfl, rfl⟩
  | cons edit edits ih => exact ih (l.addFix path edit.title edit.root)

theorem foldl_registerMove_keeps (uri : String) (renames : List Fix.Rename) (l : Ledger) :
    let l' := renames.foldl (fun l rename => l.registerMove rename.dest uri) l
    l'.fixes = l.fixes ∧ l'.sourceFile = l.sourceFile ∧ l'.manyToOne = l.manyToOne := by
  induction renames generalizing l with
  | nil => exact ⟨rfl, rfl, rfl⟩
  | cons rename renames ih =>
    have kept : (l.registerMove rename.dest uri).fixes = l.fixes ∧
        (l.registerMove rename.dest uri).sourceFile = l.sourceFile ∧
        (l.registerMove rename.dest uri).manyToOne = l.manyToOne := by
      unfold Ledger.registerMove
      split <;> exact ⟨rfl, rfl, rfl⟩
    obtain ⟨fixes, first, second⟩ := ih (l.registerMove rename.dest uri)
    exact ⟨fixes.trans kept.1, first.trans kept.2.1, second.trans kept.2.2⟩

theorem Progress.record_clean {p : Progress} {uri : String} {l : Ledger} (clean : l.Clean) :
    (p.record uri l).Clean := by
  obtain ⟨-, first, second⟩ := foldl_addFix p.path p.edits
    ((p.edits.filterMap (·.rename)).foldl (fun l rename => l.registerMove rename.dest uri) l)
  obtain ⟨-, first', second'⟩ := foldl_registerMove_keeps uri (p.edits.filterMap (·.rename)) l
  exact ⟨first.trans (first'.trans clean.1), second.trans (second'.trans clean.2)⟩

theorem Progress.record_tracks {p : Progress} {uri : String} {l : Ledger} (led : p.IsLed uri)
    (unseen : l.moves.get? uri = none) :
    Tracks (p.record uri l) uri p.path ∧
      ∀ other, other ≠ uri → (p.record uri l).moves.get? other = l.moves.get? other := by
  have start : Tracks l uri uri := by rw [Tracks, if_pos rfl, unseen]
  obtain ⟨tracked, kept⟩ := foldl_registerMove start (p.edits.filterMap (·.rename))
  have moves := (foldl_addFix p.path p.edits
    ((p.edits.filterMap (·.rename)).foldl (fun l rename => l.registerMove rename.dest uri) l)).1
  rw [← lead, ← led] at tracked
  simp only [Tracks, record, moves]
  exact ⟨tracked, kept⟩

/-! ### One address -/

variable (registry : Fix.Registry) (baseDir : String) (cache : Cache)

def fixedFile? (uri : String) : Option FixedFile :=
  (cache.contents.get? uri).bind fun contents =>
    let p := mend registry baseDir uri contents (locationsByCode (cache.shownDiagnostics uri))
    if p.edits.isEmpty then none else some ⟨uri, p.path, p.contents, .compute contents⟩

def target? (f : FixedFile) : Option String := if f.isMove then some f.dest else none

variable {registry baseDir cache}

theorem source_of_fixedFile? {uri : String} {f : FixedFile}
    (fixed : fixedFile? registry baseDir cache uri = some f) :
    f.source = uri ∧ Commit.IsFresh cache f := by
  obtain ⟨contents, found, made⟩ := Option.bind_eq_some_iff.mp fixed
  simp only at made
  split at made
  · simp at made
  · obtain rfl := Option.some.inj made
    exact ⟨rfl, by simp [Commit.IsFresh, found]⟩

theorem visit_files (o : Outcome) (uri : String) :
    (visit registry baseDir cache o uri).files =
      o.files ++ (fixedFile? registry baseDir cache uri).toList := by
  unfold visit fixedFile?
  cases cache.contents.get? uri with
  | none => simp
  | some contents =>
    simp only [Progress.addTo, Option.bind_some]
    split <;> simp

theorem visit_clean {o : Outcome} (clean : o.ledger.Clean) (uri : String) :
    (visit registry baseDir cache o uri).ledger.Clean := by
  unfold visit
  split
  · exact clean
  · exact Progress.record_clean clean

theorem visit_moves {o : Outcome} {uri : String} (unseen : o.ledger.moves.get? uri = none) :
    (visit registry baseDir cache o uri).ledger.moves.get? uri =
        (fixedFile? registry baseDir cache uri).bind target? ∧
      ∀ other, other ≠ uri →
        (visit registry baseDir cache o uri).ledger.moves.get? other =
          o.ledger.moves.get? other := by
  unfold visit fixedFile?
  cases cache.contents.get? uri with
  | none => exact ⟨unseen, fun _ _ => rfl⟩
  | some contents =>
    have led := mend_isLed registry baseDir uri contents
      (locationsByCode (cache.shownDiagnostics uri))
    obtain ⟨tracked, kept⟩ := Progress.record_tracks led unseen
    refine ⟨tracked.trans ?_, kept⟩
    simp only [Option.bind_some]
    generalize mend registry baseDir uri contents _ = p at led ⊢
    by_cases noEdit : p.edits.isEmpty = true
    · -- Without edits there is no rename, so the file is still at its address.
      have home : p.path = uri := by rw [led, List.isEmpty_iff.mp noEdit]; rfl
      rw [if_pos home, if_pos noEdit]
      rfl
    · rw [if_neg noEdit, Option.bind_some]
      by_cases home : p.path = uri
      · simp [target?, FixedFile.isMove, home]
      · simp [target?, FixedFile.isMove, home, Ne.symm home]

/-! ### All addresses -/

theorem foldl_visit_files (uris : List String) (o : Outcome) :
    (uris.foldl (visit registry baseDir cache) o).files =
      o.files ++ uris.filterMap (fixedFile? registry baseDir cache) := by
  induction uris generalizing o with
  | nil => simp
  | cons uri uris ih =>
    rw [List.foldl_cons, ih, visit_files, List.filterMap_cons, List.append_assoc]
    cases fixedFile? registry baseDir cache uri <;> rfl

theorem foldl_visit_moves {uris : List String} (nodup : uris.Nodup) {o : Outcome}
    (unseen : ∀ uri ∈ uris, o.ledger.moves.get? uri = none) (path : String) :
    (uris.foldl (visit registry baseDir cache) o).ledger.moves.get? path =
      if path ∈ uris then (fixedFile? registry baseDir cache path).bind target?
      else o.ledger.moves.get? path := by
  induction uris generalizing o with
  | nil => simp
  | cons uri uris ih =>
    obtain ⟨notLater, nodup'⟩ := List.nodup_cons.mp nodup
    obtain ⟨here, elsewhere⟩ :=
      @visit_moves registry baseDir cache o uri (unseen uri List.mem_cons_self)
    rw [List.foldl_cons, ih nodup']
    · by_cases same : path = uri
      · subst same
        simp [notLater, here]
      · simp [same, elsewhere path same]
    · intro later member
      have different : later ≠ uri := fun same => notLater (same ▸ member)
      rw [elsewhere later different]
      exact unseen later (List.mem_cons_of_mem _ member)

end Run

open Run

variable {registry : Fix.Registry} {baseDir : String} {cache : Cache}

theorem run_files (registry : Fix.Registry) (baseDir : String) (cache : Cache) :
    (run registry baseDir cache).files =
      (ascending cache.contents.entries.keys).filterMap (fixedFile? registry baseDir cache) := by
  simp [run, foldl_visit_files]

theorem mem_run_files {f : FixedFile} :
    f ∈ (run registry baseDir cache).files ↔
      fixedFile? registry baseDir cache f.source = some f := by
  rw [run_files, List.mem_filterMap]
  constructor
  · rintro ⟨uri, -, fixed⟩
    rw [(source_of_fixedFile? fixed).1]
    exact fixed
  · intro fixed
    refine ⟨f.source, ?_, fixed⟩
    obtain ⟨contents, found, -⟩ := Option.bind_eq_some_iff.mp fixed
    rw [ascending, mem_sortDistinct, OrderedMap.mem_keys_iff]
    exact Option.isSome_iff_exists.mpr ⟨contents, found⟩

theorem run_files_fresh {f : FixedFile} (member : f ∈ (run registry baseDir cache).files) :
    Commit.IsFresh cache f :=
  (source_of_fixedFile? (mem_run_files.mp member)).2

theorem run_sources_sublist (registry : Fix.Registry) (baseDir : String) (cache : Cache) :
    ((run registry baseDir cache).files.map (·.source)).Sublist
      (ascending cache.contents.entries.keys) := by
  rw [run_files]
  generalize ascending cache.contents.entries.keys = uris
  induction uris with
  | nil => exact List.Sublist.refl []
  | cons uri uris ih =>
    cases fixed : fixedFile? registry baseDir cache uri with
    | none =>
      rw [List.filterMap_cons_none fixed]
      exact ih.cons uri
    | some f =>
      rw [List.filterMap_cons_some fixed, List.map_cons, (source_of_fixedFile? fixed).1]
      exact ih.cons_cons uri

theorem run_sources_nodup (registry : Fix.Registry) (baseDir : String) (cache : Cache) :
    ((run registry baseDir cache).files.map (·.source)).Nodup :=
  (ascending_nodup _).sublist (run_sources_sublist registry baseDir cache)

/-! ### The ledger of a run -/

def recorded (registry : Fix.Registry) (baseDir : String) (cache : Cache) : Ledger :=
  ((ascending cache.contents.entries.keys).foldl (visit registry baseDir cache) {}).ledger

def existing (cache : Cache) : List String :=
  cache.contents.entries.keys ++ cache.ignored.entries.keys

theorem mem_existing {uri : String} :
    uri ∈ existing cache ↔ Commit.isOccupied cache uri = true := by
  rw [existing, List.mem_append, OrderedMap.mem_keys_iff, OrderedMap.mem_keys_iff,
    Commit.isOccupied, Bool.or_eq_true]
  rfl

theorem run_ledger (registry : Fix.Registry) (baseDir : String) (cache : Cache) :
    (run registry baseDir cache).ledger =
      (recorded registry baseDir cache).detect (existing cache) := rfl

theorem recorded_clean (registry : Fix.Registry) (baseDir : String) (cache : Cache) :
    (recorded registry baseDir cache).Clean :=
  List.foldlRecOn (motive := fun o : Outcome => o.ledger.Clean) _ _ ⟨rfl, rfl⟩
    fun _ clean uri _ => visit_clean clean uri

theorem get?_recorded_moves (path : String) :
    (recorded registry baseDir cache).moves.get? path =
      (fixedFile? registry baseDir cache path).bind target? := by
  rw [recorded, foldl_visit_moves (ascending_nodup _) fun _ _ => rfl]
  split
  · rfl
  · next unseen =>
    rw [ascending, mem_sortDistinct, OrderedMap.mem_keys_iff, Bool.not_eq_true] at unseen
    have absent : cache.contents.get? path = none :=
      Option.isNone_iff_eq_none.mp (Option.isSome_eq_false_iff.mp unseen)
    rw [fixedFile?, absent]
    rfl

theorem run_moves_iff {old new : String} :
    (run registry baseDir cache).ledger.Moves old new ↔
      ∃ f ∈ (run registry baseDir cache).files,
        f.isMove = true ∧ f.source = old ∧ f.dest = new := by
  rw [run_ledger, (Ledger.sameMoves_detect _ _).rel, Ledger.Moves, get?_recorded_moves,
    Option.bind_eq_some_iff]
  constructor
  · rintro ⟨f, fixed, goal⟩
    obtain ⟨rfl, -⟩ := source_of_fixedFile? fixed
    simp only [target?, Option.ite_none_right_eq_some, Option.some.injEq] at goal
    exact ⟨f, mem_run_files.mpr fixed, goal.1, rfl, goal.2⟩
  · rintro ⟨f, member, moves, rfl, rfl⟩
    exact ⟨f, mem_run_files.mp member, by simp [target?, moves]⟩

theorem mem_run_conflictedPaths {path : String} :
    path ∈ (run registry baseDir cache).ledger.conflictedPaths ↔
      ∃ old new, (run registry baseDir cache).ledger.Conflicting (existing cache) old new ∧
        (path = old ∨ path = new) := by
  rw [run_ledger, Ledger.mem_conflictedPaths_detect (recorded_clean registry baseDir cache)]
  simp only [(Ledger.sameMoves_detect _ _).conflicting]

theorem run_hasConflicts_iff :
    (run registry baseDir cache).ledger.hasConflicts = true ↔
      ∃ old new, (run registry baseDir cache).ledger.Conflicting (existing cache) old new := by
  rw [run_ledger, Ledger.hasConflicts_detect (recorded_clean registry baseDir cache)]
  simp only [(Ledger.sameMoves_detect _ _).conflicting]

end PolicyMend
