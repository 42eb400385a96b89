import PolicyMend.Proofs.FixerTurns
import PolicyMend.Proofs.RunFiles

/-!
The contents that the built-in fixers leave. Each takes the contents from the one before it, and all
take their locations from the diagnostics of the file as it was. Main statement: the contents of a
fixed file are those of the cached one after the edits of all built-in fixers, one after the other.
-/

namespace PolicyMend

namespace Fix.Builtin

def edit (b : Builtin) (locations : List Location) (contents : String) : String :=
  match b with
  | useAssignmentOperator => (Substitution.assignment.edited? contents locations).getD contents
  | preferEqualsComparison => (Substitution.comparison.edited? contents locations).getD contents
  | noWhitespaceComment => (Substitution.spacedComment.edited? contents locations).getD contents
  | constantCondition => (remove .dropped contents locations).getD contents
  | redundantExistenceCheck => (remove .kept contents locations).getD contents
  | directoryPackageMismatch _ => contents

theorem edit_nil (b : Builtin) (contents : String) : b.edit [] contents = contents := by
  cases b <;> rfl

end Fix.Builtin

namespace Run

open PolicyMend.Fix (Builtin)

def located (diagnostics : List Diagnostic) (code : String) : List Location :=
  (diagnostics.filter (·.code = code)).map (·.location)

theorem foldl_locationsByCode (diagnostics : List Diagnostic) (code : String)
    (groups : OrderedMap String (List Location)) :
    ((diagnostics.foldl (fun groups d =>
      groups.alter d.code fun known => known.getD [] ++ [d.location]) groups).get? code).getD [] =
      (groups.get? code).getD [] ++ located diagnostics code := by
  induction diagnostics generalizing groups with
  | nil => simp [located]
  | cons d diagnostics ih =>
    rw [List.foldl_cons, ih, OrderedMap.get?_alter]
    by_cases same : code = d.code
    · simp [located, same]
    · simp [located, same, Ne.symm same]

theorem get?_locationsByCode (diagnostics : List Diagnostic) (code : String) :
    ((locationsByCode diagnostics).get? code).getD [] = located diagnostics code :=
  foldl_locationsByCode diagnostics code ∅

def Progress.acceptAll (p : Progress) : Except Fix.Error (List Fix.Edit) → Progress
  | .ok edits => edits.foldl accept p
  | .error _ => { p with failures := p.failures + 1 }

theorem Progress.acceptAll_editing (p : Progress) (name baseDir : String) (found : List Location)
    (change : String → List Location → Option String) :
    (p.acceptAll ((Fix.Fixer.editing name change).fix ⟨p.path, p.contents⟩
      (some ⟨baseDir, found⟩))).contents = (change p.contents found).getD p.contents := by
  simp only [Fix.Fixer.editing, Fix.Fixer.requiring, acceptAll]
  cases change p.contents found <;> rfl

theorem Progress.acceptAll_moving (p : Progress) (besideTested : Bool) (options : Fix.Options) :
    (p.acceptAll ((Builtin.directoryPackageMismatch besideTested).fixer.fix ⟨p.path, p.contents⟩
      (some options))).contents = p.contents := by
  show ((Builtin.relocate besideTested ⟨p.path, p.contents⟩ options).toList.foldl
    accept p).contents = p.contents
  cases moved : Builtin.relocate besideTested ⟨p.path, p.contents⟩ options with
  | none => rfl
  | some edit =>
    obtain ⟨home, -, rest⟩ := Option.bind_eq_some_iff.mp moved
    split at rest
    · cases rest
    · cases rest
      rfl

theorem Progress.acceptAll_fixer (p : Progress) (b : Builtin) (baseDir : String)
    (found : List Location) :
    (p.acceptAll (b.fixer.fix ⟨p.path, p.contents⟩ (some ⟨baseDir, found⟩))).contents =
      b.edit found p.contents := by
  cases b with
  | directoryPackageMismatch besideTested => exact p.acceptAll_moving besideTested ⟨baseDir, found⟩
  | _ => exact p.acceptAll_editing _ baseDir found _

theorem Progress.step_contents {baseDir : String} {locations : OrderedMap String (List Location)}
    (p : Progress) (b : Builtin) :
    (p.step baseDir locations b.fixer).contents =
      b.edit ((locations.get? b.name).getD []) p.contents := by
  unfold step
  rw [b.fixer_name]
  cases locations.get? b.name with
  | none => exact (b.edit_nil p.contents).symm
  | some found => exact p.acceptAll_fixer b baseDir found

def textAfter (diagnostics : List Diagnostic) (contents : String) (asked : List Builtin) : String :=
  asked.foldl (fun text b => b.edit (located diagnostics b.name) text) contents

theorem foldl_step_contents {baseDir : String} (diagnostics : List Diagnostic)
    (asked : List Builtin) (p : Progress) :
    ((asked.map Builtin.fixer).foldl
      (Progress.step baseDir (locationsByCode diagnostics)) p).contents =
      textAfter diagnostics p.contents asked := by
  induction asked generalizing p with
  | nil => rfl
  | cons b asked ih =>
    rw [List.map_cons, List.foldl_cons, ih, Progress.step_contents, get?_locationsByCode]
    rfl

theorem defaults_fixers : Fix.Registry.defaults.fixers = Builtin.all.map Builtin.fixer := rfl

end Run

open Run in
theorem contents_of_mem_run_defaults {baseDir : String} {cache : Cache} {f : FixedFile}
    (member : f ∈ (run .defaults baseDir cache).files) {contents : String}
    (found : cache.contents.get? f.source = some contents) :
    f.contents = textAfter (cache.shownDiagnostics f.source) contents Fix.Builtin.all := by
  have fixed := mem_run_files.mp member
  rw [fixedFile?, found, Option.bind_some] at fixed
  dsimp only at fixed
  split at fixed
  · cases fixed
  · have made := congrArg FixedFile.contents (Option.some.inj fixed)
    rw [← made, mend, defaults_fixers]
    exact foldl_step_contents _ _ _

end PolicyMend
