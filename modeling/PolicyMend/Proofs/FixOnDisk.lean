import PolicyMend.Command.Fix
import PolicyMend.Proofs.DiskLookups
import PolicyMend.Proofs.Relocation

/-!
The command that fixes files, run on a disk. Preparing only reads; writing changes the files at the
sources and at the destinations, as the disk finds them and not as they are spelled. Main statement:
a file that is no source keeps its bytes unless a destination that was not loaded lands on it.
-/

namespace PolicyMend.Command

open Disk (Tree Spot)

variable {α β : Type}

def exec (command : ExceptT Failure (StateM Tree) α) (t : Tree) : Except Failure α × Tree :=
  command.run.run t

theorem exec_bind (x : ExceptT Failure (StateM Tree) α) (f : α → ExceptT Failure (StateM Tree) β)
    (t : Tree) :
    exec (x >>= f) t =
      match exec x t with
      | (.ok a, middle) => exec (f a) middle
      | (.error e, middle) => (.error e, middle) := by
  show (match x.run.run t with
    | (result, middle) => (ExceptT.bindCont f result).run middle) = _
  unfold exec
  rcases x.run.run t with ⟨result, middle⟩
  cases result <;> rfl

theorem exec_bind_ok {x : ExceptT Failure (StateM Tree) α}
    {f : α → ExceptT Failure (StateM Tree) β} {b : β} {t t' : Tree}
    (ran : exec (x >>= f) t = (.ok b, t')) :
    ∃ a middle, exec x t = (.ok a, middle) ∧ exec (f a) middle = (.ok b, t') := by
  rw [exec_bind] at ran
  split at ran
  · next a middle first => exact ⟨a, middle, first, ran⟩
  · cases ran

theorem exec_diskOp (op : StateM Tree (Except Disk.Error α)) (fail : Disk.Error → Failure)
    (t : Tree) : exec (diskOp op fail) t = ((op.run t).1.mapError fail, (op.run t).2) := rfl

theorem exec_diskOp_ok {op : StateM Tree (Except Disk.Error α)} {fail : Disk.Error → Failure}
    {a : α} {t t' : Tree} (ran : exec (diskOp op fail) t = (.ok a, t')) :
    op.run t = (.ok a, t') := by
  rw [exec_diskOp] at ran
  generalize op.run t = done at ran ⊢
  obtain ⟨result, after⟩ := done
  cases result with
  | error e => cases ran
  | ok found => cases ran; rfl

/-! ### Preparing -/

def ReadsOnly (command : ExceptT Failure (StateM Tree) α) : Prop := ∀ t, (exec command t).2 = t

theorem readsOnly_pure (a : α) : ReadsOnly (pure a) := fun _ => rfl

theorem readsOnly_throw (e : Failure) : ReadsOnly (throw e : ExceptT Failure (StateM Tree) α) :=
  fun _ => rfl

theorem ReadsOnly.bind {x : ExceptT Failure (StateM Tree) α}
    {f : α → ExceptT Failure (StateM Tree) β} (first : ReadsOnly x)
    (rest : ∀ a, ReadsOnly (f a)) : ReadsOnly (x >>= f) := by
  intro t
  have same := first t
  rw [exec_bind]
  generalize exec x t = done at same ⊢
  obtain ⟨result, middle⟩ := done
  obtain rfl : middle = t := same
  cases result with
  | error e => rfl
  | ok a => exact rest a middle

theorem readsOnly_diskOp {op : StateM Tree (Except Disk.Error α)} (fail : Disk.Error → Failure)
    (reads : ∀ t, (op.run t).2 = t) : ReadsOnly (diskOp op fail) := reads

theorem readsOnly_liftExcept (x : Except Failure α) :
    ReadsOnly (liftExcept x : ExceptT Failure (StateM Tree) α) := by
  cases x with
  | error e => exact readsOnly_throw e
  | ok a => exact readsOnly_pure a

theorem readsOnly_foldlM {f : β → α → ExceptT Failure (StateM Tree) β}
    (step : ∀ b a, ReadsOnly (f b a)) (elements : List α) (b : β) :
    ReadsOnly (elements.foldlM f b) := by
  induction elements generalizing b with
  | nil => exact readsOnly_pure b
  | cons a elements ih =>
    rw [List.foldlM_cons]
    exact (step b a).bind ih

theorem readsOnly_mapM {f : α → ExceptT Failure (StateM Tree) β} (step : ∀ a, ReadsOnly (f a))
    (elements : List α) : ReadsOnly (elements.mapM f) := by
  induction elements with
  | nil => exact readsOnly_pure []
  | cons a elements ih =>
    rw [List.mapM_cons]
    exact (step a).bind fun b => ih.bind fun rest => readsOnly_pure (b :: rest)

theorem canonical_readsOnly (path : String) :
    ReadsOnly (canonical path : ExceptT Failure (StateM Tree) String) :=
  readsOnly_diskOp _ fun _ => rfl

theorem policyFilesAt_readsOnly (path : String) :
    ReadsOnly (policyFilesAt path : ExceptT Failure (StateM Tree) (List String)) := by
  refine (canonical_readsOnly path).bind fun root => ReadsOnly.bind (fun _ => rfl) fun isFile => ?_
  split
  · exact readsOnly_pure _
  · exact (readsOnly_diskOp _ fun _ => rfl).bind fun _ => readsOnly_pure _

theorem refreshFromDisk_run (cache : Cache) (uri path : String) (t : Tree) :
    (StateT.run (refreshFromDisk cache uri path : ExceptT ReadError (StateM Tree) _).run t).2 =
      t := by
  have reads : (MonadDisk.readText path : StateM Tree _).run t = (t.readText path, t) := rfl
  rw [refreshFromDisk, ExceptT.run_mk, StateT.run_bind, reads]
  cases t.readText path with
  | error cause => rfl
  | ok contents => rfl

theorem loadFile_readsOnly (ignore : Ignore) (cache : Cache) (path : String) :
    ReadsOnly (loadFile ignore cache path : ExceptT Failure (StateM Tree) Cache) := by
  unfold loadFile
  split
  · exact (readsOnly_diskOp _ fun _ => rfl).bind fun _ => readsOnly_pure _
  · exact ReadsOnly.bind (refreshFromDisk_run cache path path) fun _ => readsOnly_pure _

theorem locateViolation_readsOnly (cache : Cache) (registry : Fix.Registry) (v : Violation) :
    ReadsOnly (locateViolation cache registry v : ExceptT Failure (StateM Tree) _) := by
  refine (readsOnly_liftExcept _).bind fun _ => (canonical_readsOnly v.path).bind fun uri => ?_
  split
  · exact readsOnly_pure _
  · split
    · exact readsOnly_pure _
    · exact readsOnly_throw _

theorem attachViolations_readsOnly (cache : Cache) (registry : Fix.Registry)
    (violations : List Violation) :
    ReadsOnly (attachViolations cache registry violations : ExceptT Failure (StateM Tree) _) := by
  refine ReadsOnly.bind (readsOnly_foldlM ?_ _ _) fun _ => readsOnly_pure _
  intro gathered v
  refine (locateViolation_readsOnly cache registry v).bind fun located => ?_
  cases located with
  | none => exact readsOnly_pure _
  | some uri => exact readsOnly_pure _

theorem prepare_readsOnly (request : FixRequest) :
    ReadsOnly (prepare request : ExceptT Failure (StateM Tree) (Cache × Outcome)) := by
  refine (canonical_readsOnly _).bind fun baseDir => ?_
  refine (readsOnly_liftExcept _).bind fun ignore => ?_
  refine ReadsOnly.bind ?_ fun files => ?_
  · exact (readsOnly_mapM policyFilesAt_readsOnly _).bind fun _ => readsOnly_pure _
  · refine (readsOnly_foldlM (loadFile_readsOnly ignore) files {}).bind fun loaded => ?_
    exact (attachViolations_readsOnly loaded _ _).bind fun _ => readsOnly_pure _

theorem prepare_ok {request : FixRequest} {cache : Cache} {o : Outcome} {t t' : Tree}
    (ran : exec (prepare request) t = (.ok (cache, o), t')) :
    t' = t ∧ ∃ baseDir, o = run request.config.registry baseDir cache := by
  have same := prepare_readsOnly request t
  rw [ran] at same
  refine ⟨same, ?_⟩
  unfold prepare at ran
  obtain ⟨baseDir, _, -, ran⟩ := exec_bind_ok ran
  obtain ⟨_, _, -, ran⟩ := exec_bind_ok ran
  obtain ⟨_, _, -, ran⟩ := exec_bind_ok ran
  obtain ⟨_, _, -, ran⟩ := exec_bind_ok ran
  obtain ⟨_, _, -, ran⟩ := exec_bind_ok ran
  cases ran
  exact ⟨baseDir, rfl⟩

/-! ### Writing -/

theorem exec_attempt_ok {change : Tree → Except Disk.Error Tree} {fail : Disk.Error → Failure}
    {t t' : Tree} (ran : exec (diskOp (Disk.attempt change) fail) t = (.ok (), t')) :
    change t = .ok t' := by
  have attempted := exec_diskOp_ok ran
  simp only [Disk.attempt, StateT.run] at attempted
  split at attempted
  · next changed eq =>
    cases attempted
    exact eq
  · cases attempted

theorem createDirs_ok {path : String} {fail : Disk.Error → Failure} {t t' : Tree}
    (ran : exec (diskOp (MonadDisk.createDirs path) fail) t = (.ok (), t')) :
    Tree.Grows (t.Visits path) t t' := by
  have created : t.createDirs path = (.ok (), t') := exec_diskOp_ok ran
  have grown := Tree.createDirsUp_grows (path.length + 1) t path
  rw [← Tree.createDirs, created] at grown
  exact grown

theorem writeAndRemove_ok {f : FixedFile} {failed removing : Disk.Error → Failure} {t t' : Tree}
    (ran : exec (do
      diskOp (MonadDisk.writeText f.dest f.contents) failed
      if f.isMove then diskOp (MonadDisk.removeFile f.source) removing) t = (.ok (), t')) :
    ∃ written, t.writeText f.dest f.contents = .ok written ∧
      (if f.isMove then written.removeFile f.source = .ok t' else t' = written) := by
  obtain ⟨_, written, first, rest⟩ := exec_bind_ok ran
  refine ⟨written, exec_attempt_ok first, ?_⟩
  split at rest
  · next moves =>
    rw [if_pos moves]
    exact exec_attempt_ok rest
  · next stays =>
    rw [if_neg stays]
    cases rest
    rfl

theorem writeFile_ok {f : FixedFile} {t t' : Tree} (ran : exec (writeFile f) t = (.ok (), t')) :
    ∃ made written, Tree.Grows (t.Passes f.dest) t made ∧
      made.writeText f.dest f.contents = .ok written ∧
      (if f.isMove then written.removeFile f.source = .ok t' else t' = written) := by
  unfold writeFile at ran
  dsimp only at ran
  split at ran
  · next parent found =>
    obtain ⟨_, made, first, rest⟩ := exec_bind_ok ran
    obtain ⟨written, wrote, removed⟩ := writeAndRemove_ok rest
    have grows := (createDirs_ok first).mono fun _ visits => visits.passes_of_parent found
    exact ⟨made, written, grows, wrote, removed⟩
  · obtain ⟨written, wrote, removed⟩ := writeAndRemove_ok ran
    exact ⟨t, written, Tree.Grows.refl _ t, wrote, removed⟩

/-- Whether a file moves away from a location. -/
def leaves (t : Tree) (f : FixedFile) (spot : Spot) : Bool :=
  f.isMove && decide (t.landing f.source = spot)

structure Wrote (f : FixedFile) (t t' : Tree) : Prop where
  keeps : Tree.Keeps t t'
  dest : t'.NamesPlace f.dest
  source : f.isMove = true → t'.NamesPlace f.source
  file? : ∀ spot, t'.file? spot =
    if leaves t f spot then none
    else if t.landing f.dest = spot then some f.contents.toUTF8
    else t.file? spot
  directory_iff : ∀ spot, t'.at? spot = some .directory ↔
    t.at? spot = some .directory ∨ t.Passes f.dest spot
  cleared : f.isMove = true → t'.at? (t.landing f.source) = none

theorem writeText_wrote {f : FixedFile} {t made written : Tree}
    (grows : Tree.Grows (t.Passes f.dest) t made)
    (ran : made.writeText f.dest f.contents = .ok written) :
    Tree.Keeps t written ∧ written.NamesPlace f.dest ∧
      (∀ spot, written.file? spot =
        if t.landing f.dest = spot then some f.contents.toUTF8 else t.file? spot) ∧
      ∀ spot, written.at? spot = some .directory ↔
        t.at? spot = some .directory ∨ t.Passes f.dest spot := by
  have keeps : Tree.Keeps made written :=
    ⟨(Tree.writeText_at? ran).1, fun _ => (Tree.writeText_directory_iff ran).mpr⟩
  have names := Tree.writeText_namesPlace ran
  refine ⟨grows.keeps.trans keeps, names.keeps keeps, fun spot => ?_, fun spot => ?_⟩
  · rw [Tree.writeText_file? ran spot, grows.file? spot, Tree.landing_congr grows.current]
  · rw [Tree.writeText_directory_iff ran]
    constructor
    · intro directory
      rcases grows.at? spot with same | ⟨-, -, passes⟩
      · exact .inl (same ▸ directory)
      · exact .inr passes
    · rintro (before | passes)
      · exact grows.keeps.directories spot before
      · obtain ⟨above, piece, parent, -⟩ := names
        exact ((Tree.passes_congr grows.current).mpr passes).directory parent

theorem writeFile_wrote {f : FixedFile} {t t' : Tree} (ran : exec (writeFile f) t = (.ok (), t')) :
    Wrote f t t' := by
  obtain ⟨made, written, grows, wrote, removed⟩ := writeFile_ok ran
  obtain ⟨keeps, names, files, directories⟩ := writeText_wrote grows wrote
  split at removed
  · next moves =>
    obtain ⟨current, gone⟩ := Tree.removeFile_at? removed
    have later : Tree.Keeps written t' :=
      ⟨current, fun _ => (Tree.removeFile_directory_iff removed).mpr⟩
    refine ⟨keeps.trans later, names.keeps later, fun _ => ?_, fun spot => ?_, fun spot => ?_,
      fun _ => ?_⟩
    · exact (Tree.removeFile_namesPlace removed).keeps later
    · rw [Tree.removeFile_file? removed spot, files spot, Tree.landing_congr keeps.current]
      simp [leaves, moves]
    · rw [Tree.removeFile_directory_iff removed]
      exact directories spot
    · rw [gone, if_pos (Tree.landing_congr keeps.current f.source).symm]
  · next stays =>
    subst removed
    refine ⟨keeps, names, fun moves => absurd moves stays, fun spot => ?_, directories,
      fun moves => absurd moves stays⟩
    rw [files spot]
    simp [leaves, stays]

/-! ### The last file that touches a location -/

/-- The last of some files that moves away from a location or is written there. -/
def lastTouching (t : Tree) (files : List FixedFile) (spot : Spot) : Option FixedFile :=
  (files.filter fun f => leaves t f spot || decide (t.landing f.dest = spot)).getLast?

theorem leaves_congr {t t' : Tree} (same : t'.current = t.current) (f : FixedFile) (spot : Spot) :
    leaves t' f spot = leaves t f spot := by
  rw [leaves, leaves, Tree.landing_congr same]

theorem lastTouching_congr {t t' : Tree} (same : t'.current = t.current) (files : List FixedFile)
    (spot : Spot) : lastTouching t' files spot = lastTouching t files spot := by
  simp only [lastTouching, leaves_congr same, Tree.landing_congr same]

theorem lastTouching_cons (t : Tree) (f : FixedFile) (files : List FixedFile) (spot : Spot) :
    lastTouching t (f :: files) spot = (lastTouching t files spot).or
      (if leaves t f spot || decide (t.landing f.dest = spot) then some f else none) := by
  unfold lastTouching
  rw [List.filter_cons]
  split
  · rw [List.getLast?_cons]
    cases (files.filter fun f =>
      leaves t f spot || decide (t.landing f.dest = spot)).getLast? <;> rfl
  · rw [Option.or_none]

theorem exists_lastTouching {t : Tree} {files : List FixedFile} {f : FixedFile} (member : f ∈ files)
    {spot : Spot} (touches : leaves t f spot = true ∨ t.landing f.dest = spot) :
    ∃ g, lastTouching t files spot = some g := by
  have kept : f ∈ files.filter fun f => leaves t f spot || decide (t.landing f.dest = spot) :=
    List.mem_filter.mpr ⟨member, by simpa using touches⟩
  exact ⟨_, List.getLast?_eq_some_getLast (List.ne_nil_of_mem kept)⟩

structure WroteAll (files : List FixedFile) (t t' : Tree) : Prop where
  keeps : Tree.Keeps t t'
  dest : ∀ f ∈ files, t'.NamesPlace f.dest
  source : ∀ f ∈ files, f.isMove = true → t'.NamesPlace f.source
  file? : ∀ spot, t'.file? spot =
    match lastTouching t files spot with
    | none => t.file? spot
    | some f => if leaves t f spot then none else some f.contents.toUTF8
  directory_iff : ∀ spot, t'.at? spot = some .directory ↔
    t.at? spot = some .directory ∨ ∃ f ∈ files, t.Passes f.dest spot
  stood : ∀ f ∈ files, f.isMove = true → t.at? (t.landing f.source) ≠ some .directory

theorem Wrote.stood {f : FixedFile} {t t' : Tree} (wrote : Wrote f t t') (moves : f.isMove = true) :
    t.at? (t.landing f.source) ≠ some .directory := by
  intro directory
  have kept := wrote.keeps.directories _ directory
  rw [wrote.cleared moves] at kept
  cases kept

theorem Wrote.cons {f : FixedFile} {files : List FixedFile} {t middle t' : Tree}
    (one : Wrote f t middle) (rest : WroteAll files middle t') : WroteAll (f :: files) t t' where
  keeps := one.keeps.trans rest.keeps
  dest g member := by
    rcases List.mem_cons.mp member with rfl | later
    · exact one.dest.keeps rest.keeps
    · exact rest.dest g later
  source g member moves := by
    rcases List.mem_cons.mp member with rfl | later
    · exact (one.source moves).keeps rest.keeps
    · exact rest.source g later moves
  file? spot := by
    rw [rest.file? spot, lastTouching_congr one.keeps.current, lastTouching_cons]
    cases lastTouching t files spot with
    | some g => simp only [Option.some_or, leaves_congr one.keeps.current]
    | none =>
      rw [Option.none_or, one.file? spot]
      by_cases left : leaves t f spot = true
      · simp [left]
      · by_cases lands : t.landing f.dest = spot
        · simp [left, lands]
        · simp [left, lands]
  directory_iff spot := by
    rw [rest.directory_iff, one.directory_iff, List.exists_mem_cons_iff, or_assoc]
    simp only [Tree.passes_congr one.keeps.current]
  stood g member moves := by
    rcases List.mem_cons.mp member with rfl | later
    · exact one.stood moves
    · intro directory
      refine rest.stood g later moves ?_
      rw [Tree.landing_congr one.keeps.current]
      exact one.keeps.directories _ directory

theorem writeFiles_wroteAll {files : List FixedFile} {t t' : Tree}
    (ran : exec (writeFiles files) t = (.ok (), t')) : WroteAll files t t' := by
  induction files generalizing t with
  | nil =>
    cases ran
    exact ⟨Tree.Keeps.refl _, by simp, by simp, fun _ => rfl, by simp, by simp⟩
  | cons f files ih =>
    obtain ⟨_, middle, first, rest⟩ := exec_bind_ok ran
    exact (writeFile_wrote first).cons (ih rest)

/-- The bytes of the last of some files that lands on a location. -/
def lastOnto (t : Tree) (files : List FixedFile) (spot : Spot) : Option ByteArray :=
  ((files.filter fun f => t.landing f.dest = spot).map (·.contents.toUTF8)).getLast?

theorem leaves_eq_false {t : Tree} {f : FixedFile} {spot : Spot}
    (bystander : t.landing f.source ≠ spot) : leaves t f spot = false := by
  rw [leaves, decide_eq_false bystander, Bool.and_false]

/-- Where no file moves away, the last one that touches a location lands on it. -/
theorem lastOnto_eq_map_lastTouching {t : Tree} {files : List FixedFile} {spot : Spot}
    (bystander : ∀ f ∈ files, t.landing f.source ≠ spot) :
    lastOnto t files spot = (lastTouching t files spot).map (·.contents.toUTF8) := by
  have same : files.filter (fun f => leaves t f spot || decide (t.landing f.dest = spot)) =
      files.filter fun f => t.landing f.dest = spot := by
    refine List.filter_congr fun f member => ?_
    rw [leaves_eq_false (bystander f member), Bool.false_or]
  rw [lastOnto, lastTouching, same, List.getLast?_map]

theorem WroteAll.at?_of_bystander {files : List FixedFile} {t t' : Tree} {spot : Spot}
    {data : ByteArray} (wrote : WroteAll files t t') (file : t.at? spot = some (.file data))
    (bystander : ∀ f ∈ files, t.landing f.source ≠ spot) :
    t'.at? spot = some (.file ((lastOnto t files spot).getD data)) := by
  rw [← Tree.file?_eq_some_iff] at file ⊢
  rw [wrote.file? spot, lastOnto_eq_map_lastTouching bystander]
  cases last : lastTouching t files spot with
  | none => exact file
  | some f =>
    have member := (List.mem_filter.mp (List.mem_of_getLast? last)).1
    dsimp only
    rw [leaves_eq_false (bystander f member), if_neg Bool.false_ne_true]
    rfl

/-! ### The command -/

theorem runFix_ok {request : FixRequest} {report : FixReport} {t t' : Tree}
    (ran : exec (runFix request) t = (.ok report, t')) :
    ∃ cache, exec (prepare request) t = (.ok (cache, report.outcome), t) ∧
      (if request.dryRun then report.written = []
        else report.written = (report.outcome.commit cache).2.applied) ∧
      exec (writeFiles report.written) t = (.ok (), t') := by
  unfold runFix at ran
  obtain ⟨⟨cache, o⟩, middle, prepared, rest⟩ := exec_bind_ok ran
  obtain ⟨rfl, -⟩ := prepare_ok prepared
  dsimp only at rest
  split at rest
  · next dry =>
    cases rest
    exact ⟨cache, prepared, by rw [if_pos dry], rfl⟩
  · next wet =>
    obtain ⟨_, after, wrote, rest⟩ := exec_bind_ok rest
    cases rest
    exact ⟨cache, prepared, by rw [if_neg wet], wrote⟩

theorem vacant_of_landing {registry : Fix.Registry} {baseDir : String} {cache : Cache} {t : Tree}
    {spot : Spot} {f : FixedFile}
    (applied : f ∈ ((run registry baseDir cache).commit cache).2.applied)
    (bystander : ∀ g ∈ ((run registry baseDir cache).commit cache).2.applied,
      t.landing g.source ≠ spot)
    (lands : t.landing f.dest = spot) : Commit.isOccupied cache f.dest = false := by
  have midway := Commit.commit_run_midway registry baseDir cache
  have moves : f.isMove = true := by
    refine FixedFile.isMove_iff.mpr fun same => bystander f applied ?_
    rw [same]
    exact lands
  have vacant := midway.landed f applied moves
  rw [Commit.leftAt_of_unmoved, ← Commit.isOccupied_eq] at vacant
  · exact vacant
  · intro g applied' _ same
    refine bystander g applied' ?_
    rw [same]
    exact lands

/-- A file from which none is written keeps its bytes if and only if no written file lands on it,
or the last one that does has the same bytes. A destination lands there only if it is an address
that was not loaded: the file was left out, or it is spelled in another way. -/
theorem runFix_spares_bystander_iff {request : FixRequest} {report : FixReport} {t t' : Tree}
    (ran : exec (runFix request) t = (.ok report, t')) {spot : Spot} {data : ByteArray}
    (file : t.at? spot = some (.file data))
    (bystander : ∀ f ∈ report.written, t.landing f.source ≠ spot) :
    (t'.at? spot = some (.file data) ↔ ∀ bytes ∈ lastOnto t report.written spot, bytes = data) ∧
      ∃ cache, exec (prepare request) t = (.ok (cache, report.outcome), t) ∧
        ∀ f ∈ report.written, t.landing f.dest = spot → Commit.isOccupied cache f.dest = false := by
  obtain ⟨cache, prepared, decided, wrote⟩ := runFix_ok ran
  refine ⟨?_, cache, prepared, ?_⟩
  · rw [(writeFiles_wroteAll wrote).at?_of_bystander file bystander]
    cases lastOnto t report.written spot with
    | none => simp
    | some bytes => simp
  · intro f member lands
    obtain ⟨-, baseDir, computed⟩ := prepare_ok prepared
    split at decided
    · rw [decided] at member
      cases member
    · rw [computed] at decided
      rw [decided] at member bystander
      exact vacant_of_landing member bystander lands

def strayTree : Tree where
  root := .directory [("a.rego", .file "package p\n".toUTF8),
    ("p", .directory [("a.rego", .file "package p\n\nallow := true\n".toUTF8)])]

def strayRequest : FixRequest where
  paths := ["/a.rego"]
  violations := [⟨"directory-package-mismatch", "/a.rego", ⟨1, 1, none⟩⟩]
  config := .defaults "/"

theorem exec_strayRequest :
    ∃ report t', exec (runFix strayRequest) strayTree = (.ok report, t') ∧
      report.written.map (·.source) = ["/a.rego"] ∧
      t'.at? ["p", "a.rego"] = some (.file "package p\n".toUTF8) := by
  have evaluated : (match exec (runFix strayRequest) strayTree with
      | (.ok report, t') => decide (report.written.map (·.source) = ["/a.rego"]) &&
          decide (t'.at? ["p", "a.rego"] = some (.file "package p\n".toUTF8))
      | (.error _, _) => false) = true := by
    decide +kernel
  split at evaluated
  · next report t' ran =>
    obtain ⟨written, overwritten⟩ := Bool.and_eq_true_iff.mp evaluated
    exact ⟨report, t', ran, of_decide_eq_true written, of_decide_eq_true overwritten⟩
  · cases evaluated

theorem strayTree_bystander {report : FixReport}
    (written : report.written.map (·.source) = ["/a.rego"]) :
    ∀ f ∈ report.written, strayTree.landing f.source ≠ ["p", "a.rego"] := by
  intro f member
  have source : f.source ∈ report.written.map (·.source) := List.mem_map_of_mem member
  rw [written, List.mem_singleton] at source
  rw [source]
  decide +kernel

theorem runFix_spares_bystander_iff_stray :
    ∃ report t', exec (runFix strayRequest) strayTree = (.ok report, t') ∧
      strayTree.at? ["p", "a.rego"] = some (.file "package p\n\nallow := true\n".toUTF8) ∧
      (∀ f ∈ report.written, strayTree.landing f.source ≠ ["p", "a.rego"]) ∧
      (t'.at? ["p", "a.rego"] = some (.file "package p\n\nallow := true\n".toUTF8) ↔
        ∀ bytes ∈ lastOnto strayTree report.written ["p", "a.rego"],
          bytes = "package p\n\nallow := true\n".toUTF8) ∧
      ∃ cache, exec (prepare strayRequest) strayTree = (.ok (cache, report.outcome), strayTree) ∧
        ∀ f ∈ report.written, strayTree.landing f.dest = ["p", "a.rego"] →
          Commit.isOccupied cache f.dest = false := by
  obtain ⟨report, t', ran, written, -⟩ := exec_strayRequest
  have file : strayTree.at? ["p", "a.rego"] =
      some (.file "package p\n\nallow := true\n".toUTF8) := by
    decide +kernel
  have bystander := strayTree_bystander written
  exact ⟨report, t', ran, file, bystander, runFix_spares_bystander_iff ran file bystander⟩

/-- A fix can overwrite a file that it was not asked about. -/
theorem runFix_overwrites_stray :
    ∃ report t', strayRequest.dryRun = false ∧
      exec (runFix strayRequest) strayTree = (.ok report, t') ∧
      strayTree.at? ["p", "a.rego"] = some (.file "package p\n\nallow := true\n".toUTF8) ∧
      (∀ f ∈ report.written, strayTree.landing f.source ≠ ["p", "a.rego"]) ∧
      t'.at? ["p", "a.rego"] ≠ some (.file "package p\n\nallow := true\n".toUTF8) := by
  obtain ⟨report, t', ran, written, overwritten⟩ := exec_strayRequest
  refine ⟨report, t', rfl, ran, by decide +kernel, strayTree_bystander written, ?_⟩
  rw [overwritten]
  decide +kernel

end PolicyMend.Command
