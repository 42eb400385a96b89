import PolicyMend.Run

/-!
The turns of the fixers in a run. Each fixer is asked once, in the order of the registry, and works
on what those before it have left. Main statements: the edits of a file are the results of all turns
put together, and a built-in fixer that gives a result gives one, under its own name.
-/

namespace PolicyMend

namespace Run

variable (baseDir : String) (locations : OrderedMap String (List Location))

/-- What a fixer gives when its turn comes: nothing if it has no locations, and nothing if it
fails. -/
def Progress.results (p : Progress) (fixer : Fix.Fixer) : List Fix.Edit :=
  match locations.get? fixer.name with
  | none => []
  | some found =>
    match fixer.fix ⟨p.path, p.contents⟩ (some ⟨baseDir, found⟩) with
    | .ok edits => edits
    | .error _ => []

/-- The turns of some fixers, one after the other: the name of each with what it gives. -/
def turns : Progress → List Fix.Fixer → List (String × List Fix.Edit)
  | _, [] => []
  | p, fixer :: rest =>
    (fixer.name, p.results baseDir locations fixer) :: turns (p.step baseDir locations fixer) rest

def producers (asked : List (String × List Fix.Edit)) : List String :=
  (asked.filter fun turn => !turn.2.isEmpty).map Prod.fst

def resultsOf (asked : List (String × List Fix.Edit)) : List Fix.Edit := asked.flatMap Prod.snd

variable {baseDir locations}

theorem Progress.foldl_accept_edits (edits : List Fix.Edit) (p : Progress) :
    (edits.foldl accept p).edits = p.edits ++ edits := by
  induction edits generalizing p with
  | nil => simp
  | cons edit edits ih =>
    rw [List.foldl_cons, ih]
    simp [accept]

theorem Progress.step_edits (p : Progress) (fixer : Fix.Fixer) :
    (p.step baseDir locations fixer).edits = p.edits ++ p.results baseDir locations fixer := by
  unfold step results
  cases locations.get? fixer.name with
  | none => simp
  | some found =>
    dsimp only
    cases fixer.fix ⟨p.path, p.contents⟩ (some ⟨baseDir, found⟩) with
    | ok edits => exact foldl_accept_edits edits p
    | error e => simp

theorem foldl_step_edits (fixers : List Fix.Fixer) (p : Progress) :
    (fixers.foldl (Progress.step baseDir locations) p).edits =
      p.edits ++ resultsOf (turns baseDir locations p fixers) := by
  induction fixers generalizing p with
  | nil => simp [turns, resultsOf]
  | cons fixer fixers ih =>
    rw [List.foldl_cons, ih, Progress.step_edits, turns, resultsOf, resultsOf, List.flatMap_cons,
      List.append_assoc]

theorem turns_names (p : Progress) (fixers : List Fix.Fixer) :
    (turns baseDir locations p fixers).map Prod.fst = fixers.map (·.name) := by
  induction fixers generalizing p with
  | nil => rfl
  | cons fixer fixers ih => rw [turns, List.map_cons, List.map_cons, ih]

theorem producers_sublist (p : Progress) (fixers : List Fix.Fixer) :
    (producers (turns baseDir locations p fixers)).Sublist (fixers.map (·.name)) := by
  rw [← @turns_names baseDir locations p fixers]
  exact List.filter_sublist.map Prod.fst

end Run

/-! ### Built-in fixers -/

namespace Fix

/-- A fixer that gives at most one edit, and gives it its own name. -/
def Fixer.GivesOneTitled (fixer : Fixer) : Prop :=
  ∀ candidate options edits, fixer.fix candidate options = .ok edits →
    edits = [] ∨ ∃ edit, edits = [edit] ∧ edit.title = fixer.name

theorem Fixer.requiring_givesOneTitled {name : String}
    {edit : Candidate → Options → Option Edit}
    (titled : ∀ candidate options made, edit candidate options = some made → made.title = name) :
    (Fixer.requiring name edit).GivesOneTitled := by
  intro candidate options edits ran
  cases options with
  | none => cases ran
  | some options =>
    obtain rfl := Except.ok.inj ran
    cases made : edit candidate options with
    | none => exact .inl rfl
    | some single => exact .inr ⟨single, rfl, titled candidate options single made⟩

theorem Fixer.editing_givesOneTitled (name : String)
    (edit : String → List Location → Option String) :
    (Fixer.editing name edit).GivesOneTitled := by
  refine Fixer.requiring_givesOneTitled fun candidate options made found => ?_
  obtain ⟨contents, -, rfl⟩ := Option.map_eq_some_iff.mp found
  rfl

section Editing

variable {name : String} {edit : String → List Location → Option String} {candidate : Candidate}
  {options : Options}

theorem Fixer.editing_fix :
    (Fixer.editing name edit).fix candidate (some options) =
      .ok ((edit candidate.contents options.locations).map fun contents =>
        { title := name
          root := options.baseDir
          contents
          sourceHash := .compute candidate.contents : Edit }).toList := rfl

theorem Fixer.editing_fix_eq_nil_iff :
    (Fixer.editing name edit).fix candidate (some options) = .ok [] ↔
      edit candidate.contents options.locations = none := by
  rw [Fixer.editing_fix, Except.ok.injEq, Option.toList_eq_nil_iff, Option.map_eq_none_iff]

theorem Fixer.editing_fix_of_eq_some {text : String}
    (edited : edit candidate.contents options.locations = some text) :
    (Fixer.editing name edit).fix candidate (some options) = .ok [{
      title := name
      root := options.baseDir
      contents := text
      sourceHash := .compute candidate.contents }] := by
  rw [Fixer.editing_fix, edited]
  rfl

end Editing

theorem Builtin.fixer_name (b : Builtin) : b.fixer.name = b.name := by
  cases b <;> rfl

theorem Builtin.fixer_givesOneTitled (b : Builtin) : b.fixer.GivesOneTitled := by
  cases b with
  | directoryPackageMismatch besideTested =>
    refine Fixer.requiring_givesOneTitled fun candidate options made found => ?_
    obtain ⟨home, -, rest⟩ := Option.bind_eq_some_iff.mp found
    split at rest
    · cases rest
    · cases rest
      rfl
  | _ => exact Fixer.editing_givesOneTitled _ _

/-! ### Registries of built-in fixers -/

inductive Registry.Change where
  | register (b : Builtin)
  | unregister (name : String)
  deriving DecidableEq

namespace Registry

def apply (r : Registry) : Change → Registry
  | .register b => r.register b.fixer
  | .unregister name => r.unregister name

def ofChanges (changes : List Change) : Registry := changes.foldl apply {}

/-- A registry of built-in fixers, one for each name. -/
structure IsBuiltin (r : Registry) : Prop where
  builtin : ∀ fixer ∈ r.fixers, ∃ b : Builtin, fixer = b.fixer
  distinct : r.names.Nodup

theorem IsBuiltin.unregister {r : Registry} (known : r.IsBuiltin) (name : String) :
    (r.unregister name).IsBuiltin where
  builtin fixer member := known.builtin fixer (List.mem_filter.mp member).1
  distinct := known.distinct.sublist (List.filter_sublist.map _)

theorem IsBuiltin.register {r : Registry} (known : r.IsBuiltin) (b : Builtin) :
    (r.register b.fixer).IsBuiltin where
  builtin fixer member := by
    rcases List.mem_append.mp member with old | new
    · exact (known.unregister b.fixer.name).builtin fixer old
    · exact ⟨b, List.mem_singleton.mp new⟩
  distinct := by
    rw [names, Registry.register, List.map_append, List.nodup_append]
    refine ⟨(known.unregister b.fixer.name).distinct, by simp, ?_⟩
    intro name old other new same
    obtain ⟨fixer, kept, rfl⟩ := List.mem_map.mp old
    obtain rfl : other = b.fixer.name := by simpa using new
    exact absurd same (by simpa using (List.mem_filter.mp kept).2)

theorem ofChanges_isBuiltin (changes : List Change) : (ofChanges changes).IsBuiltin := by
  refine List.foldlRecOn changes apply ⟨by simp, List.nodup_nil⟩ ?_
  intro r known change _
  cases change with
  | register b => exact known.register b
  | unregister name => exact known.unregister name

end Registry

end Fix

namespace Run

variable {baseDir : String} {locations : OrderedMap String (List Location)}

theorem Progress.results_of_builtin (p : Progress) (b : Fix.Builtin) :
    p.results baseDir locations b.fixer = [] ∨
      ∃ edit, p.results baseDir locations b.fixer = [edit] ∧ edit.title = b.fixer.name := by
  unfold results
  split
  · exact .inl rfl
  · split
    · next ran => exact b.fixer_givesOneTitled _ _ _ ran
    · exact .inl rfl

/-- Among built-in fixers the titles of the results are the names of those that gave them. -/
theorem titles_turns {fixers : List Fix.Fixer} (builtin : ∀ fixer ∈ fixers,
    ∃ b : Fix.Builtin, fixer = b.fixer) (p : Progress) :
    (resultsOf (turns baseDir locations p fixers)).map (·.title) =
      producers (turns baseDir locations p fixers) := by
  induction fixers generalizing p with
  | nil => rfl
  | cons fixer fixers ih =>
    obtain ⟨b, rfl⟩ := builtin fixer List.mem_cons_self
    have rest := ih (fun fixer member => builtin fixer (List.mem_cons_of_mem _ member))
      (p.step baseDir locations b.fixer)
    rw [resultsOf] at rest
    rw [turns, resultsOf, List.flatMap_cons, List.map_append, rest]
    rcases @Progress.results_of_builtin baseDir locations p b with none | ⟨edit, one, titled⟩
    · simp [producers, none]
    · simp [producers, one, titled]

end Run

end PolicyMend
