import PolicyMend.Proofs.FixOnDisk

/-!
Where written files are after the command that fixes files. Files are written one after the other,
and each that moves is removed from where it was, so the last file that touches a location decides
what is there. Main statement: a written file can be read at its destination if and only if the last
one to touch that location stays and has the same contents, and this is so whenever no two spellings
of one location are among the written paths.
-/

namespace PolicyMend.Command

open Disk (Tree Spot)

/-! ### Reading what was written -/

section Read

variable {files : List FixedFile} {t t' : Tree} (wrote : WroteAll files t t')

include wrote

theorem WroteAll.at?_file_iff {f : FixedFile} {spot : Spot}
    (touched : lastTouching t files spot = some f) {data : ByteArray} :
    t'.at? spot = some (.file data) ↔ leaves t f spot = false ∧ f.contents.toUTF8 = data := by
  rw [← Tree.file?_eq_some_iff, wrote.file? spot, touched]
  by_cases left : leaves t f spot = true
  · simp [left]
  · simp [left]

theorem WroteAll.readText_iff {f : FixedFile} (member : f ∈ files) :
    t'.readText f.dest = .ok f.contents ↔
      ∃ g, lastTouching t files (t.landing f.dest) = some g ∧
        leaves t g (t.landing f.dest) = false ∧ g.contents = f.contents := by
  obtain ⟨g, last⟩ := exists_lastTouching member (.inr rfl : _ ∨ t.landing f.dest = _)
  rw [(wrote.dest f member).readText_iff, Tree.landing_congr wrote.keeps.current,
    wrote.at?_file_iff last]
  simp only [last, Option.some.injEq, exists_eq_left', String.toUTF8_eq_toByteArray,
    String.toByteArray_inj]

theorem WroteAll.isFile_source_iff {f : FixedFile} (member : f ∈ files) (moves : f.isMove = true) :
    t'.isFile f.source = true ↔
      ∃ g, lastTouching t files (t.landing f.source) = some g ∧
        leaves t g (t.landing f.source) = false := by
  have left : leaves t f (t.landing f.source) = true := by simp [leaves, moves]
  obtain ⟨g, last⟩ := exists_lastTouching member (.inl left)
  rw [(wrote.source f member moves).isFile_iff, Tree.landing_congr wrote.keeps.current]
  simp [wrote.at?_file_iff last, last]

theorem WroteAll.isDirectory_source_iff {f : FixedFile} (member : f ∈ files)
    (moves : f.isMove = true) :
    t'.isDirectory f.source = true ↔ ∃ g ∈ files, t.Passes g.dest (t.landing f.source) := by
  rw [(wrote.source f member moves).isDirectory_iff, Tree.landing_congr wrote.keeps.current,
    wrote.directory_iff]
  exact or_iff_right (wrote.stood f member moves)

end Read

/-! ### Files in the order of a commit -/

/-- Files in an order in which each place is left before another file gets there. -/
structure Ordered (files : List FixedFile) : Prop where
  dests : (files.map (·.dest)).Nodup
  ahead : files.Pairwise fun f g => f.dest ≠ g.source

open Commit in
theorem foldl_step_ahead {start : Cache} (conflicted : List String) {todo : List FixedFile}
    {state : Cache × CommitSummary} (midway : Midway start todo state)
    (ahead : state.2.applied.Pairwise fun f g => f.dest ≠ g.source) :
    (todo.foldl (step conflicted) state).2.applied.Pairwise fun f g => f.dest ≠ g.source := by
  induction todo generalizing state with
  | nil => exact ahead
  | cons f todo ih =>
    refine ih (step_midway conflicted midway) ?_
    have taken := step_spec conflicted state.1 state.2 f
    generalize step conflicted (state.1, state.2) f = next at taken ⊢
    cases taken with
    | held reason => exact ahead
    | late source dest changed => exact ahead
    | written source dest fresh vacant =>
      refine List.pairwise_append.mpr ⟨ahead, List.pairwise_singleton _ _, ?_⟩
      intro g applied h last
      obtain rfl := List.mem_singleton.mp last
      exact midway.ahead g applied h List.mem_cons_self

theorem applied_ordered (registry : Fix.Registry) (baseDir : String) (cache : Cache) :
    Ordered ((run registry baseDir cache).commit cache).2.applied where
  dests := (Commit.commit_run_midway registry baseDir cache).dests
  ahead := foldl_step_ahead _ (Commit.midway_start (run_sources_nodup registry baseDir cache)
    fun _ => run_files_fresh) List.Pairwise.nil

/-- No two written paths are different spellings of one location. -/
def OneSpelling (t : Tree) (files : List FixedFile) : Prop :=
  ∀ path ∈ files.flatMap fun f => [f.source, f.dest],
    ∀ other ∈ files.flatMap fun f => [f.source, f.dest],
      t.landing path = t.landing other → path = other

instance (t : Tree) (files : List FixedFile) : Decidable (OneSpelling t files) :=
  inferInstanceAs (Decidable (∀ path ∈ _, ∀ other ∈ _, _ → _))

theorem lastTouching_of_split {t : Tree} {before after : List FixedFile} {f : FixedFile}
    {spot : Spot} (touches : leaves t f spot = true ∨ t.landing f.dest = spot)
    (later : ∀ g ∈ after, leaves t g spot = false ∧ t.landing g.dest ≠ spot) :
    lastTouching t (before ++ f :: after) spot = some f := by
  have none : after.filter (fun g => leaves t g spot || decide (t.landing g.dest = spot)) = [] := by
    refine List.filter_eq_nil_iff.mpr fun g member => ?_
    simp [later g member]
  rw [lastTouching, List.filter_append, List.filter_cons_of_pos (by simpa using touches), none]
  exact List.getLast?_concat

section Spelling

variable {files : List FixedFile} {t : Tree} (ordered : Ordered files)
  (spelling : OneSpelling t files)

include spelling

theorem OneSpelling.dest_eq {f g : FixedFile} (member : f ∈ files) (member' : g ∈ files)
    (same : t.landing f.dest = t.landing g.dest) : f.dest = g.dest :=
  spelling _ (List.mem_flatMap.mpr ⟨f, member, by simp⟩) _
    (List.mem_flatMap.mpr ⟨g, member', by simp⟩) same

theorem OneSpelling.source_eq_dest {f g : FixedFile} (member : f ∈ files) (member' : g ∈ files)
    (same : t.landing f.source = t.landing g.dest) : f.source = g.dest :=
  spelling _ (List.mem_flatMap.mpr ⟨f, member, by simp⟩) _
    (List.mem_flatMap.mpr ⟨g, member', by simp⟩) same

include ordered

theorem Ordered.lastTouching_dest {f : FixedFile} (member : f ∈ files) :
    lastTouching t files (t.landing f.dest) = some f ∧ leaves t f (t.landing f.dest) = false := by
  refine ⟨?_, Bool.eq_false_iff.mpr fun left => ?_⟩
  · obtain ⟨before, after, rfl⟩ := List.append_of_mem member
    refine lastTouching_of_split (.inr rfl) fun g later => ?_
    have member' : g ∈ before ++ f :: after :=
      List.mem_append_right _ (List.mem_cons_of_mem f later)
    have ahead := List.rel_of_pairwise_cons (List.pairwise_append.mp ordered.ahead).2.1 later
    have dests := (List.nodup_append.mp (List.map_append ▸ ordered.dests)).2.1
    refine ⟨Bool.eq_false_iff.mpr fun left => ?_, fun lands => ?_⟩
    · obtain ⟨-, same⟩ := Bool.and_eq_true_iff.mp left
      exact ahead (spelling.source_eq_dest member' member (of_decide_eq_true same)).symm
    · have same := spelling.dest_eq member' member lands
      exact (List.nodup_cons.mp dests).1 (List.mem_map.mpr ⟨g, later, same⟩)
  · obtain ⟨moves, same⟩ := Bool.and_eq_true_iff.mp left
    exact FixedFile.isMove_iff.mp moves
      (spelling.source_eq_dest member member (of_decide_eq_true same))

/-- A place that a file has left is taken if and only if another file has it as destination. -/
theorem Ordered.lastTouching_source_iff {f : FixedFile} (member : f ∈ files) :
    (∃ g, lastTouching t files (t.landing f.source) = some g ∧
      leaves t g (t.landing f.source) = false) ↔ ∃ g ∈ files, g.dest = f.source := by
  constructor
  · rintro ⟨g, last, stays⟩
    obtain ⟨member', touches⟩ := List.mem_filter.mp (List.mem_of_getLast? last)
    rw [stays, Bool.false_or] at touches
    have lands := (of_decide_eq_true touches).symm
    exact ⟨g, member', (spelling.source_eq_dest member member' lands).symm⟩
  · rintro ⟨g, member', same⟩
    rw [← same]
    exact ⟨g, ordered.lastTouching_dest spelling member'⟩

end Spelling

/-! ### The command -/

theorem runFix_written {request : FixRequest} {report : FixReport} {t t' : Tree}
    (ran : exec (runFix request) t = (.ok report, t')) :
    WroteAll report.written t t' ∧ Ordered report.written := by
  obtain ⟨cache, prepared, decided, wrote⟩ := runFix_ok ran
  refine ⟨writeFiles_wroteAll wrote, ?_⟩
  split at decided
  · rw [decided]
    exact ⟨List.nodup_nil, List.Pairwise.nil⟩
  · obtain ⟨-, baseDir, computed⟩ := prepare_ok prepared
    rw [decided, computed]
    exact applied_ordered _ _ _

/-- A written file can be read at its destination if and only if the last written file that touches
the place stays there with the same contents, and a file stands at the source of a move if and only
if the last one to touch that place stays. If no location is spelled in two ways, every written file
can be read, and its source holds a file only if that is the destination of another one. -/
theorem runFix_written_stands_iff {request : FixRequest} {report : FixReport} {t t' : Tree}
    (ran : exec (runFix request) t = (.ok report, t')) {f : FixedFile}
    (member : f ∈ report.written) :
    (t'.readText f.dest = .ok f.contents ↔
      ∃ g, lastTouching t report.written (t.landing f.dest) = some g ∧
        leaves t g (t.landing f.dest) = false ∧ g.contents = f.contents) ∧
      (f.isMove = true →
        (t'.isFile f.source = true ↔
          ∃ g, lastTouching t report.written (t.landing f.source) = some g ∧
            leaves t g (t.landing f.source) = false) ∧
        (t'.isDirectory f.source = true ↔
          ∃ g ∈ report.written, t.Passes g.dest (t.landing f.source))) ∧
      (OneSpelling t report.written →
        t'.readText f.dest = .ok f.contents ∧
          (f.isMove = true →
            (t'.isFile f.source = true ↔ ∃ g ∈ report.written, g.dest = f.source))) := by
  obtain ⟨wrote, ordered⟩ := runFix_written ran
  refine ⟨wrote.readText_iff member, fun moves => ?_, fun spelling => ⟨?_, fun moves => ?_⟩⟩
  · exact ⟨wrote.isFile_source_iff member moves, wrote.isDirectory_source_iff member moves⟩
  · obtain ⟨last, stays⟩ := ordered.lastTouching_dest spelling member
    exact (wrote.readText_iff member).mpr ⟨f, last, stays, rfl⟩
  · rw [wrote.isFile_source_iff member moves]
    exact ordered.lastTouching_source_iff spelling member

/-- A file in `x` that belongs to `y`, and one in `y` that belongs to `z`. -/
def chainTree : Tree where
  root := .directory [("x", .directory [("p.rego", .file "package y\n".toUTF8)]),
    ("y", .directory [("p.rego", .file "package z\n".toUTF8)])]

def chainRequest : FixRequest where
  violations := [⟨"directory-package-mismatch", "/x/p.rego", ⟨1, 1, none⟩⟩,
    ⟨"directory-package-mismatch", "/y/p.rego", ⟨1, 1, none⟩⟩]
  config := .defaults "/"

theorem exec_chainRequest :
    ∃ report t', exec (runFix chainRequest) chainTree = (.ok report, t') ∧
      report.written.map (fun f => (f.source, f.dest)) =
        [("/y/p.rego", "/z/p.rego"), ("/x/p.rego", "/y/p.rego")] ∧
      OneSpelling chainTree report.written := by
  have evaluated : (match exec (runFix chainRequest) chainTree with
      | (.ok report, _) => decide (report.written.map (fun f => (f.source, f.dest)) =
          [("/y/p.rego", "/z/p.rego"), ("/x/p.rego", "/y/p.rego")]) &&
          decide (OneSpelling chainTree report.written)
      | (.error _, _) => false) = true := by
    decide +kernel
  split at evaluated
  · next report t' ran =>
    obtain ⟨written, spelling⟩ := Bool.and_eq_true_iff.mp evaluated
    exact ⟨report, t', ran, of_decide_eq_true written, of_decide_eq_true spelling⟩
  · cases evaluated

theorem runFix_written_stands_iff_chain :
    ∃ report t', exec (runFix chainRequest) chainTree = (.ok report, t') ∧
      report.written.map (fun f => (f.source, f.dest)) =
        [("/y/p.rego", "/z/p.rego"), ("/x/p.rego", "/y/p.rego")] ∧
      OneSpelling chainTree report.written ∧
      ∀ f ∈ report.written, t'.readText f.dest = .ok f.contents ∧
        (f.isMove = true →
          (t'.isFile f.source = true ↔ ∃ g ∈ report.written, g.dest = f.source)) := by
  obtain ⟨report, t', ran, written, spelling⟩ := exec_chainRequest
  exact ⟨report, t', ran, written, spelling,
    fun f member => (runFix_written_stands_iff ran member).2.2 spelling⟩

/-- A file in `a` that belongs to `a/../b`, and one of the same name in `b` that belongs to `c`. -/
def crossingTree : Tree where
  root := .directory [("a", .directory [("m.rego", .file "package a[\"..\"].b\n".toUTF8)]),
    ("b", .directory [("m.rego", .file "package c\n".toUTF8)])]

def crossingRequest : FixRequest where
  violations := [⟨"directory-package-mismatch", "/a/m.rego", ⟨1, 1, none⟩⟩,
    ⟨"directory-package-mismatch", "/b/m.rego", ⟨1, 1, none⟩⟩]
  config := .defaults "/"

/-- A fix can remove a file that it has just written, and report that it is there. -/
theorem runFix_removes_written :
    ∃ report t' f, crossingRequest.dryRun = false ∧
      exec (runFix crossingRequest) crossingTree = (.ok report, t') ∧ f ∈ report.written ∧
      f.dest = "/a/../b/m.rego" ∧ t'.readText f.dest = .error .notFound := by
  have evaluated : (match exec (runFix crossingRequest) crossingTree with
      | (.ok report, t') => report.written.any fun f => decide (f.dest = "/a/../b/m.rego") &&
          (match t'.readText f.dest with
            | .error e => decide (e = .notFound)
            | .ok _ => false)
      | (.error _, _) => false) = true := by
    decide +kernel
  split at evaluated
  · next report t' ran =>
    obtain ⟨f, member, lost⟩ := List.any_eq_true.mp evaluated
    obtain ⟨dest, missing⟩ := Bool.and_eq_true_iff.mp lost
    refine ⟨report, t', f, rfl, ran, member, of_decide_eq_true dest, ?_⟩
    split at missing
    · next failed => rw [failed, of_decide_eq_true missing]
    · cases missing
  · cases evaluated

end PolicyMend.Command
