import PolicyMend.Proofs.Attribution
import PolicyMend.Proofs.HeldBack
import PolicyMend.Proofs.PathJoins

/-!
Runs that only move files. A file that has been moved is in its place, so the fixer leaves it alone
from then on, and the files that a commit has held back have their records as they were. Main
statement: a run after a commit finds the files that were held back and no others.
-/

namespace PolicyMend

namespace Fix

def Registry.moving (besideTested : Bool) : Registry :=
  ({} : Registry).register (Builtin.directoryPackageMismatch besideTested).fixer

namespace Builtin

variable {besideTested : Bool} {candidate : Candidate} {options : Options}

theorem relocate_eq_some {edit : Edit}
    (moved : relocate besideTested candidate options = some edit) :
    ∃ home, Package.home? besideTested options.baseDir candidate.filename candidate.contents =
        some home ∧ candidate.filename ≠ home ∧ edit.contents = candidate.contents ∧
      edit.rename = some ⟨candidate.filename, home⟩ := by
  obtain ⟨home, found, rest⟩ := Option.bind_eq_some_iff.mp moved
  split at rest
  · cases rest
  · next elsewhere =>
    cases rest
    refine ⟨home, found, ?_, rfl, rfl⟩
    rintro rfl
    exact elsewhere (decide_eq_true rfl)

theorem relocate_of_home (home : Package.home? besideTested options.baseDir candidate.filename
      candidate.contents = some candidate.filename) :
    relocate besideTested candidate options = none := by
  unfold relocate
  rw [home, Option.bind_eq_bind, Option.bind_some]
  exact if_pos (decide_eq_true rfl)

/-- A file under the name to which the fixer has moved it stays there. -/
theorem relocate_relocated {edit : Edit} {rename : Rename}
    (moved : relocate besideTested candidate options = some edit)
    (renamed : edit.rename = some rename) (locations : List Location) :
    relocate besideTested ⟨rename.dest, edit.contents⟩ ⟨options.baseDir, locations⟩ = none := by
  obtain ⟨home, found, -, contents, dest⟩ := relocate_eq_some moved
  obtain rfl := Option.some.inj (renamed.symm.trans dest)
  rw [contents]
  exact relocate_of_home (Package.home?_home found)

end Builtin

end Fix

namespace Run

open PolicyMend.Fix (Builtin)

variable {besideTested : Bool} {baseDir uri contents : String}

theorem mend_moving (besideTested : Bool) (baseDir uri contents : String)
    (locations : OrderedMap String (List Location)) :
    (mend (.moving besideTested) baseDir uri contents locations).edits = [] ∨
      ∃ found edit,
        Builtin.relocate besideTested ⟨uri, contents⟩ ⟨baseDir, found⟩ = some edit ∧
        mend (.moving besideTested) baseDir uri contents locations =
          ({ path := uri, contents } : Progress).accept edit := by
  show (Progress.step baseDir locations _ _).edits = [] ∨ ∃ found edit, _ ∧
    Progress.step baseDir locations _ _ = _
  unfold Progress.step
  cases locations.get? (Builtin.directoryPackageMismatch besideTested).fixer.name with
  | none => exact .inl rfl
  | some found =>
    show ((Builtin.relocate besideTested ⟨uri, contents⟩ ⟨baseDir, found⟩).toList.foldl
      Progress.accept { path := uri, contents }).edits = [] ∨ _
    cases moved : Builtin.relocate besideTested ⟨uri, contents⟩ ⟨baseDir, found⟩ with
    | none => exact .inl rfl
    | some edit =>
      refine .inr ⟨found, edit, moved, ?_⟩
      show (Builtin.relocate besideTested ⟨uri, contents⟩ ⟨baseDir, found⟩).toList.foldl
        Progress.accept { path := uri, contents } = _
      rw [moved]
      rfl

theorem fixedFile?_moving {cache : Cache} {f : FixedFile}
    (fixed : fixedFile? (.moving besideTested) baseDir cache uri = some f) :
    cache.contents.get? uri = some f.contents ∧ f.isMove = true ∧
      ∀ locations,
        Builtin.relocate besideTested ⟨f.dest, f.contents⟩ ⟨baseDir, locations⟩ = none := by
  obtain ⟨contents, found, made⟩ := Option.bind_eq_some_iff.mp fixed
  dsimp only at made
  rcases mend_moving besideTested baseDir uri contents
    (locationsByCode (cache.shownDiagnostics uri)) with idle | ⟨locations, edit, moved, mended⟩
  · rw [idle, List.isEmpty_nil, if_pos rfl] at made
    cases made
  · obtain ⟨home, -, away, same, renamed⟩ := Builtin.relocate_eq_some moved
    have settled := Builtin.relocate_relocated moved renamed
    rw [mended] at made
    simp only [Progress.accept, renamed, same] at made settled
    obtain rfl := Option.some.inj made
    exact ⟨found, FixedFile.isMove_iff.mpr away, settled⟩

theorem fixedFile?_moving_of_settled {cache : Cache}
    (found : cache.contents.get? uri = some contents)
    (settled : ∀ locations,
      Builtin.relocate besideTested ⟨uri, contents⟩ ⟨baseDir, locations⟩ = none) :
    fixedFile? (.moving besideTested) baseDir cache uri = none := by
  rw [fixedFile?, found, Option.bind_some]
  rcases mend_moving besideTested baseDir uri contents
    (locationsByCode (cache.shownDiagnostics uri)) with idle | ⟨locations, edit, moved, -⟩
  · exact if_pos (List.isEmpty_iff.mpr idle)
  · rw [settled locations] at moved
    cases moved

/-- What a run makes of an address depends on the record of the address only. -/
theorem fixedFile?_congr {registry : Fix.Registry} {cache cache' : Cache}
    (same : cache'.record uri = cache.record uri) :
    fixedFile? registry baseDir cache' uri = fixedFile? registry baseDir cache uri := by
  have contents : cache'.contents.get? uri = cache.contents.get? uri :=
    congrArg Record.contents same
  have diagnostics : cache'.diagnostics.get? uri = cache.diagnostics.get? uri :=
    congrArg Record.diagnostics same
  have parseErrors : cache'.parseErrors.get? uri = cache.parseErrors.get? uri :=
    congrArg Record.parseErrors same
  have shown : cache'.shownDiagnostics uri = cache.shownDiagnostics uri := by
    unfold Cache.shownDiagnostics
    rw [diagnostics, parseErrors]
  rw [fixedFile?, fixedFile?, contents, shown]

theorem eq_of_sources_ascending {files files' : List FixedFile}
    (sorted : (files.map (·.source)).Pairwise (· < ·))
    (sorted' : (files'.map (·.source)).Pairwise (· < ·)) (same : ∀ f, f ∈ files ↔ f ∈ files') :
    files = files' := by
  rw [List.pairwise_map] at sorted sorted'
  have nodup : ∀ {files : List FixedFile}, files.Pairwise (fun f g => f.source < g.source) →
      files.Nodup := by
    intro files sorted
    refine sorted.imp fun {f g} less => ?_
    rintro rfl
    exact String.lt_irrefl _ less
  have perm := (List.perm_ext_iff_of_nodup (nodup sorted) (nodup sorted')).mpr same
  refine perm.eq_of_pairwise ?_ sorted sorted'
  intro f g _ _ less greater
  exact absurd (String.lt_trans less greater) (String.lt_irrefl f.source)

end Run

namespace Commit

variable {registry : Fix.Registry} {baseDir : String} {cache : Cache}

theorem mem_files_of_mem_applied {f : FixedFile}
    (applied : f ∈ ((run registry baseDir cache).commit cache).2.applied) :
    f ∈ (run registry baseDir cache).files := by
  rw [commit_run_summary, mem_verdict_applied, (order_perm _).mem_iff] at applied
  exact applied.1

theorem mem_applied_of_free (free : (run registry baseDir cache).ledger.hasConflicts = false)
    {f : FixedFile} (member : f ∈ (run registry baseDir cache).files) :
    f ∈ ((run registry baseDir cache).commit cache).2.applied := by
  rw [commit_run_summary, mem_verdict_applied, (order_perm _).mem_iff]
  refine ⟨member, fun reached => ?_⟩
  have conflicts := exists_reached_iff.mp ⟨f, member, reached⟩
  rw [free] at conflicts
  cases conflicts

/-! ### Addresses after the commit -/

theorem contents_arrived {f : FixedFile}
    (applied : f ∈ ((run registry baseDir cache).commit cache).2.applied) :
    ((run registry baseDir cache).commit cache).1.contents.get? f.dest = some f.contents := by
  have midway := commit_run_midway registry baseDir cache
  have record := midway.record f.dest
  rw [relocated_of_dest midway.dests applied] at record
  exact congrArg Record.contents record

theorem contents_left {f : FixedFile}
    (applied : f ∈ ((run registry baseDir cache).commit cache).2.applied) (moves : f.isMove = true)
    (free : ∀ g ∈ ((run registry baseDir cache).commit cache).2.applied, g.dest ≠ f.source) :
    ((run registry baseDir cache).commit cache).1.contents.get? f.source = none := by
  have record := (commit_run_midway registry baseDir cache).record f.source
  rw [relocated_of_no_dest free, leftAt_of_moved applied moves] at record
  exact congrArg Record.contents record

theorem record_untouched {uri : String}
    (free : ∀ g ∈ ((run registry baseDir cache).commit cache).2.applied, g.dest ≠ uri)
    (unmoved : ∀ g ∈ ((run registry baseDir cache).commit cache).2.applied, g.source ≠ uri) :
    ((run registry baseDir cache).commit cache).1.record uri = cache.record uri := by
  rw [(commit_run_midway registry baseDir cache).record, relocated_of_no_dest free]
  exact leftAt_of_unmoved fun g applied _ => unmoved g applied

/-! ### The second run -/

variable {besideTested : Bool}

theorem moved_of_applied {f : FixedFile}
    (applied : f ∈ ((run (.moving besideTested) baseDir cache).commit cache).2.applied) :
    f.isMove = true ∧ ∀ locations,
      Fix.Builtin.relocate besideTested ⟨f.dest, f.contents⟩ ⟨baseDir, locations⟩ = none :=
  (Run.fixedFile?_moving (mem_run_files.mp (mem_files_of_mem_applied applied))).2

theorem mem_rerun_moving {f : FixedFile} :
    f ∈ (run (.moving besideTested) baseDir
        ((run (.moving besideTested) baseDir cache).commit cache).1).files ↔
      f ∈ (run (.moving besideTested) baseDir cache).files ∧
        f ∉ ((run (.moving besideTested) baseDir cache).commit cache).2.applied := by
  constructor
  · intro again
    have fixed := mem_run_files.mp again
    have free : ∀ g ∈ ((run (.moving besideTested) baseDir cache).commit cache).2.applied,
        g.dest ≠ f.source := by
      intro g applied arrived
      obtain ⟨-, settled⟩ := moved_of_applied applied
      have stays := Run.fixedFile?_moving_of_settled (contents_arrived applied) settled
      rw [arrived, fixed] at stays
      cases stays
    have unmoved : ∀ g ∈ ((run (.moving besideTested) baseDir cache).commit cache).2.applied,
        g.source ≠ f.source := by
      intro g applied same
      obtain ⟨moves, -⟩ := moved_of_applied applied
      have gone := contents_left applied moves fun h applied' => same ▸ free h applied'
      rw [same, (Run.fixedFile?_moving fixed).1] at gone
      cases gone
    rw [Run.fixedFile?_congr (record_untouched free unmoved)] at fixed
    exact ⟨mem_run_files.mpr fixed, fun applied => unmoved f applied rfl⟩
  · rintro ⟨member, heldBack⟩
    have unmoved : ∀ g ∈ ((run (.moving besideTested) baseDir cache).commit cache).2.applied,
        g.source ≠ f.source := by
      intro g applied same
      exact heldBack (eq_of_source_eq (mem_files_of_mem_applied applied) member same ▸ applied)
    have free := (commit_run_midway (.moving besideTested) baseDir cache).dest_ne_of_occupied
      (run_files_fresh member).isOccupied unmoved
    rw [mem_run_files, Run.fixedFile?_congr (record_untouched free unmoved)]
    exact mem_run_files.mp member

end Commit

open Run in
theorem run_total_eq_zero {registry : Fix.Registry} {baseDir : String} {cache : Cache}
    (idle : (run registry baseDir cache).files = []) :
    (run registry baseDir cache).ledger.total = 0 := by
  rw [run_total, List.length_eq_zero_iff, List.flatMap_eq_nil_iff]
  intro uri _
  have none : fixedFile? registry baseDir cache uri = none := by
    by_contra fixed
    obtain ⟨f, made⟩ := Option.ne_none_iff_exists'.mp fixed
    have member := mem_run_files.mpr ((source_of_fixedFile? made).1 ▸ made)
    rw [idle] at member
    cases member
  unfold turnsAt
  cases found : cache.contents.get? uri with
  | none => rfl
  | some contents =>
    rw [fixedFile?, found, Option.bind_some] at none
    dsimp only at none
    split at none
    · next noEdit =>
      have edits := @foldl_step_edits baseDir (locationsByCode (cache.shownDiagnostics uri))
        registry.fixers { path := uri, contents }
      rw [← mend, List.nil_append, List.isEmpty_iff.mp noEdit] at edits
      exact edits.symm
    · cases none

/-- After the commit of a run that moves files, another such run finds just the files that were held
back, each as it was found before. So it finds nothing to fix if the first one had no conflict. -/
theorem rerun_moving_files (besideTested : Bool) (baseDir : String) (cache : Cache) :
    let first := run (.moving besideTested) baseDir cache
    let committed := first.commit cache
    let second := run (.moving besideTested) baseDir committed.1
    second.files = first.files.filter (fun f => f ∉ committed.2.applied) ∧
      (first.ledger.hasConflicts = false → second.files = [] ∧ second.ledger.total = 0) := by
  intro first committed second
  have again : second.files = first.files.filter (fun f => f ∉ committed.2.applied) := by
    refine Run.eq_of_sources_ascending (run_sources_ascending _ _ _) ?_ fun f => ?_
    · exact (run_sources_ascending _ _ _).sublist (List.filter_sublist.map _)
    · rw [List.mem_filter, decide_eq_true_iff]
      exact Commit.mem_rerun_moving
  refine ⟨again, fun free => ?_⟩
  have none : second.files = [] := by
    rw [again, List.filter_eq_nil_iff]
    intro f member heldBack
    exact of_decide_eq_true heldBack (Commit.mem_applied_of_free free member)
  exact ⟨none, run_total_eq_zero none⟩

theorem rerun_moving_files_chainedFiles :
    let first := run (.moving true) "/work" chainedFiles
    let second := run (.moving true) "/work" (first.commit chainedFiles).1
    first.files.map (fun f => (f.source, f.dest)) =
        [("/work/x/p.rego", "/work/y/p.rego"), ("/work/y/p.rego", "/work/z/p.rego")] ∧
      first.ledger.hasConflicts = false ∧ second.files = [] ∧ second.ledger.total = 0 := by
  have free : (run (.moving true) "/work" chainedFiles).ledger.hasConflicts = false := by
    decide +kernel
  exact ⟨by decide +kernel, free, (rerun_moving_files true "/work" chainedFiles).2 free⟩

end PolicyMend
