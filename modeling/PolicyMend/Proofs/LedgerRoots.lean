import Mathlib.Data.List.Perm.Basic
import PolicyMend.Proofs.Detection

/-!
The roots of a ledger that was changed in any way, conflicts included. Every root that a file or a
conflict has is known, once, so the files and their titles are split among the roots without loss.
To merge the fixes of two files keeps every title.
-/

namespace PolicyMend.Ledger

/-! ### Changing a ledger -/

inductive Event where
  | note (n : Note)
  | manyToOne (root old new : String)
  | sourceFile (root existing incoming : String)
  | detect (existing : List String)
  deriving DecidableEq

def handle (l : Ledger) : Event → Ledger
  | .note n => l.note n
  | .manyToOne root old new => l.registerManyToOne root old new
  | .sourceFile root existing incoming => l.registerSourceFile root existing incoming
  | .detect existing => l.detect existing

def ofEvents (events : List Event) : Ledger := events.foldl handle {}

/-! ### Roots -/

/-- No root is noted twice and no conflict is, and each root that is used is noted. -/
structure Rooted (l : Ledger) : Prop where
  roots : l.roots.Nodup
  fixes : ∀ path file, l.fixes.get? path = some file → file.root ∈ l.roots
  conflicts : l.RootsSeen
  manyToOne : l.manyToOne.Nodup
  sourceFile : l.sourceFile.Nodup

theorem nodup_addNew {α : Type} [DecidableEq α] {known : List α} (nodup : known.Nodup) (a : α) :
    (addNew known a).Nodup := by
  unfold addNew
  split
  · exact nodup
  · next absent => exact List.nodup_append_comm.mp (List.nodup_cons.mpr ⟨absent, nodup⟩)

theorem Rooted.addFix {l : Ledger} (rooted : l.Rooted) (dest title root : String) :
    (l.addFix dest title root).Rooted where
  roots := nodup_addNew rooted.roots root
  fixes path file found := by
    refine mem_addNew.mpr ?_
    simp only [Ledger.addFix, OrderedMap.get?_alter] at found
    split at found
    · cases known : l.fixes.get? dest with
      | none =>
        rw [known, Option.some.injEq] at found
        exact .inr (found ▸ rfl)
      | some before =>
        rw [known, Option.some.injEq] at found
        exact .inl (found ▸ rooted.fixes dest before known)
    · exact .inl (rooted.fixes path file found)
  conflicts := ⟨fun c member => mem_addNew.mpr (.inl (rooted.conflicts.1 c member)),
    fun c member => mem_addNew.mpr (.inl (rooted.conflicts.2 c member))⟩
  manyToOne := rooted.manyToOne
  sourceFile := rooted.sourceFile

theorem roots_mergeFixes (l : Ledger) (new old : String) :
    (l.mergeFixes new old).roots = l.roots := by
  unfold mergeFixes
  split
  · rfl
  · split <;> rfl

def joined (moved : FileFixes) : Option FileFixes → FileFixes
  | some known => { known with titles := known.titles ++ moved.titles }
  | none => moved

theorem mergeFixes_cases (l : Ledger) (new old : String) :
    l.mergeFixes new old = l ∨ ∃ moved, new ≠ old ∧ l.fixes.get? old = some moved ∧
      ∀ path, (l.mergeFixes new old).fixes.get? path =
        if path = new then some (joined moved (l.fixes.get? new))
        else if path = old then none else l.fixes.get? path := by
  by_cases same : new = old
  · exact .inl (if_pos same)
  · cases known : l.fixes.get? old with
    | none =>
      left
      rw [mergeFixes, if_neg same, known]
    | some moved =>
      refine .inr ⟨moved, same, rfl, fun path => ?_⟩
      rw [mergeFixes, if_neg same, known]
      simp only [OrderedMap.get?_alter, OrderedMap.get?_erase, if_neg same]
      cases l.fixes.get? new <;> rfl

theorem root_mergeFixes {l : Ledger} {new old path : String} {file : FileFixes}
    (found : (l.mergeFixes new old).fixes.get? path = some file) :
    ∃ path' file', l.fixes.get? path' = some file' ∧ file.root = file'.root := by
  rcases l.mergeFixes_cases new old with same | ⟨moved, -, known, merged⟩
  · rw [same] at found
    exact ⟨path, file, found, rfl⟩
  · rw [merged] at found
    split at found
    · rw [Option.some.injEq] at found
      cases there : l.fixes.get? new with
      | none =>
        rw [there] at found
        exact ⟨old, moved, known, found ▸ rfl⟩
      | some before =>
        rw [there] at found
        exact ⟨new, before, there, found ▸ rfl⟩
    · split at found
      · cases found
      · exact ⟨path, file, found, rfl⟩

theorem Rooted.mergeFixes {l : Ledger} (rooted : l.Rooted) (new old : String) :
    (l.mergeFixes new old).Rooted := by
  obtain ⟨-, sourceFile, manyToOne⟩ := l.mergeFixes_frame new old
  have roots := l.roots_mergeFixes new old
  refine ⟨?_, ?_, ⟨?_, ?_⟩, ?_, ?_⟩
  · rw [roots]
    exact rooted.roots
  · intro path file found
    obtain ⟨path', file', known, same⟩ := root_mergeFixes found
    rw [roots, same]
    exact rooted.fixes path' file' known
  · rw [roots, manyToOne]
    exact rooted.conflicts.1
  · rw [roots, sourceFile]
    exact rooted.conflicts.2
  · rw [manyToOne]
    exact rooted.manyToOne
  · rw [sourceFile]
    exact rooted.sourceFile

theorem Rooted.registerMove {l : Ledger} (rooted : l.Rooted) (new old : String) :
    (l.registerMove new old).Rooted := by
  unfold Ledger.registerMove
  split <;> exact ⟨rooted.roots, rooted.fixes, rooted.conflicts, rooted.manyToOne,
    rooted.sourceFile⟩

theorem Rooted.registerManyToOne {l : Ledger} (rooted : l.Rooted) (root old new : String) :
    (l.registerManyToOne root old new).Rooted where
  roots := nodup_addNew rooted.roots root
  fixes path file found := mem_addNew.mpr (.inl (rooted.fixes path file found))
  conflicts := rooted.conflicts.registerManyToOne root old new
  manyToOne := nodup_addNew rooted.manyToOne _
  sourceFile := rooted.sourceFile

theorem Rooted.registerSourceFile {l : Ledger} (rooted : l.Rooted) (root path other : String) :
    (l.registerSourceFile root path other).Rooted where
  roots := nodup_addNew rooted.roots root
  fixes path file found := mem_addNew.mpr (.inl (rooted.fixes path file found))
  conflicts := rooted.conflicts.registerSourceFile root path other
  manyToOne := rooted.manyToOne
  sourceFile := nodup_addNew rooted.sourceFile _

theorem Rooted.handle {l : Ledger} (rooted : l.Rooted) (event : Event) :
    (l.handle event).Rooted := by
  cases event with
  | note n =>
    cases n with
    | fix dest title root => exact rooted.addFix dest title root
    | merge new old => exact rooted.mergeFixes new old
    | move new old => exact rooted.registerMove new old
  | manyToOne root old new => exact rooted.registerManyToOne root old new
  | sourceFile root existing incoming => exact rooted.registerSourceFile root existing incoming
  | detect existing =>
    exact detect_induction existing rooted
      (fun _ root old new rooted => rooted.registerManyToOne root old new)
      fun _ root path other rooted => rooted.registerSourceFile root path other

theorem rooted_ofEvents (events : List Event) : (ofEvents events).Rooted := by
  have start : Rooted {} := by
    refine ⟨List.nodup_nil, ?_, by simp [RootsSeen], List.nodup_nil, List.nodup_nil⟩
    intro path file found
    cases found
  exact List.foldlRecOn events handle start fun _ rooted event _ => rooted.handle event

theorem Rooted.mem_roots_of_hasConflictsIn {l : Ledger} (rooted : l.Rooted) {root : String}
    (conflicted : l.hasConflictsIn root = true) : root ∈ l.roots := by
  simp only [hasConflictsIn, Bool.or_eq_true, List.any_eq_true, decide_eq_true_eq] at conflicted
  rcases conflicted with ⟨c, member, rfl⟩ | ⟨c, member, rfl⟩
  · exact rooted.conflicts.2 c member
  · exact rooted.conflicts.1 c member

/-! ### Files and titles by root -/

/-- Distinct keys that cover all elements split them without loss. -/
theorem flatMap_fiber_perm {α κ : Type} [DecidableEq κ] (group : α → κ) {keys : List κ}
    (nodup : keys.Nodup) {elements : List α} (covered : ∀ a ∈ elements, group a ∈ keys) :
    (keys.flatMap fun key => elements.filter fun a => group a = key).Perm elements := by
  induction keys generalizing elements with
  | nil =>
    have none : elements = [] := List.eq_nil_iff_forall_not_mem.mpr fun a member =>
      List.not_mem_nil (covered a member)
    simp [none]
  | cons key keys ih =>
    obtain ⟨absent, nodup⟩ := List.nodup_cons.mp nodup
    let others := elements.filter fun a => !decide (group a = key)
    have later : ∀ a ∈ others, group a ∈ keys := by
      intro a member
      obtain ⟨member, other⟩ := List.mem_filter.mp member
      exact (List.mem_cons.mp (covered a member)).resolve_left (by simpa using other)
    have fibers : (keys.flatMap fun k => elements.filter fun a => group a = k) =
        keys.flatMap fun k => others.filter fun a => group a = k := by
      refine List.flatMap_congr fun k member => ?_
      rw [List.filter_filter]
      refine List.filter_congr fun a _ => ?_
      have different : k ≠ key := fun same => absent (same ▸ member)
      by_cases here : group a = k
      · simp [here, different]
      · simp [here]
    rw [List.flatMap_cons, fibers]
    exact ((ih nodup later).append_left _).trans (List.filter_append_perm _ elements)

theorem mem_filesIn {l : Ledger} {root path : String} :
    path ∈ l.filesIn root ↔ l.rootOf? path = some root := by
  rw [filesIn, ascending, mem_sortDistinct, rootOf?, Option.map_eq_some_iff, List.mem_map]
  constructor
  · rintro ⟨⟨path, file⟩, member, rfl⟩
    obtain ⟨member, here⟩ := List.mem_filter.mp member
    exact ⟨file, (l.fixes.get?_eq_some_iff path file).mpr member, of_decide_eq_true here⟩
  · rintro ⟨file, found, here⟩
    have member := (l.fixes.get?_eq_some_iff path file).mp found
    exact ⟨(path, file), List.mem_filter.mpr ⟨member, decide_eq_true here⟩, rfl⟩

theorem filesIn_perm (l : Ledger) (root : String) : (l.filesIn root).Perm
    ((l.fixes.entries.filter fun entry => entry.2.root = root).map Prod.fst) :=
  ascending_perm (OrderedMap.nodup_map_fst_filter _ l.fixes.entries l.fixes.nodup)

theorem Rooted.covered {l : Ledger} (rooted : l.Rooted) :
    ∀ entry ∈ l.fixes.entries, entry.2.root ∈ l.roots := by
  rintro ⟨path, file⟩ member
  exact rooted.fixes path file ((l.fixes.get?_eq_some_iff path file).mpr member)

theorem Rooted.files_perm {l : Ledger} (rooted : l.Rooted) :
    (l.roots.flatMap l.filesIn).Perm l.files := by
  refine (List.Perm.flatMap_left l.roots fun root _ => l.filesIn_perm root).trans ?_
  rw [← List.map_flatMap]
  exact (flatMap_fiber_perm (fun entry : String × FileFixes => entry.2.root) rooted.roots
    rooted.covered).map Prod.fst

def titles (l : Ledger) : List String := l.fixes.values.flatMap (·.titles)

theorem countTitles_eq_length (fixes : List FileFixes) :
    countTitles fixes = (fixes.flatMap (·.titles)).length := by
  induction fixes with
  | nil => rfl
  | cons file fixes ih =>
    rw [List.flatMap_cons, List.length_append, ← ih]
    rfl

theorem total_eq_length_titles (l : Ledger) : l.total = l.titles.length :=
  countTitles_eq_length l.fixes.values

theorem foldr_totalIn (l : Ledger) (roots : List String) :
    roots.foldr (fun root count => l.totalIn root + count) 0 =
      countTitles
        (roots.flatMap fun root => l.fixes.values.filter fun file => file.root = root) := by
  induction roots with
  | nil => rfl
  | cons root roots ih =>
    rw [List.foldr_cons, ih, totalIn, countTitles_eq_length, countTitles_eq_length,
      countTitles_eq_length, List.flatMap_cons, List.flatMap_append, List.length_append]

theorem Rooted.total_eq {l : Ledger} (rooted : l.Rooted) :
    l.roots.foldr (fun root count => l.totalIn root + count) 0 = l.total := by
  have covered : ∀ file ∈ l.fixes.values, file.root ∈ l.roots := by
    intro file member
    obtain ⟨path, found⟩ := (l.fixes.mem_values_iff file).mp member
    exact rooted.fixes path file found
  have split := flatMap_fiber_perm (fun file : FileFixes => file.root) rooted.roots covered
  rw [foldr_totalIn, total, countTitles_eq_length, countTitles_eq_length]
  exact (split.flatMap_right _).length_eq

/-! ### Merging -/

theorem titles_perm_append {l rest : Ledger} (path : String) (file : FileFixes)
    (found : l.fixes.get? path = some file) (absent : rest.fixes.get? path = none)
    (elsewhere : ∀ other, other ≠ path → l.fixes.get? other = rest.fixes.get? other) :
    l.titles.Perm (file.titles ++ rest.titles) := by
  have entries := OrderedMap.entries_perm_cons found absent elsewhere
  exact (entries.map Prod.snd).flatMap_right (·.titles)

theorem titles_mergeFixes (l : Ledger) (new old : String) :
    (l.mergeFixes new old).titles.Perm l.titles := by
  rcases l.mergeFixes_cases new old with same | ⟨moved, different, known, merged⟩
  · rw [same]
  · let left : Ledger := { l with fixes := l.fixes.erase old }
    have before : l.titles.Perm (moved.titles ++ left.titles) := by
      refine titles_perm_append old moved known (by simp [left]) fun other differs => ?_
      simp [left, differs]
    refine .trans ?_ before.symm
    -- the titles either stay together under the new path or follow those that it has
    cases there : l.fixes.get? new with
    | none =>
      refine titles_perm_append new moved ?_ (by simp [left, there]) fun other differs => ?_
      · simp [merged, there, joined]
      · simp [merged, left, differs]
    | some file =>
      let others : Ledger := { l with fixes := left.fixes.erase new }
      have apart : left.titles.Perm (file.titles ++ others.titles) := by
        refine titles_perm_append new file ?_ (by simp [others]) fun other differs => ?_
        · simp [left, different, there]
        · simp [others, differs]
      have after : (l.mergeFixes new old).titles.Perm
          ((file.titles ++ moved.titles) ++ others.titles) := by
        refine titles_perm_append new (joined moved (some file)) ?_ (by simp [others]) ?_
        · simp [merged, there]
        · intro other differs
          simp [merged, others, left, differs]
      rw [List.append_assoc] at after
      exact after.trans ((List.perm_append_comm_assoc ..).trans (apart.symm.append_left _))

theorem total_mergeFixes (l : Ledger) (new old : String) :
    (l.mergeFixes new old).total = l.total := by
  rw [total_eq_length_titles, total_eq_length_titles]
  exact (l.titles_mergeFixes new old).length_eq

end PolicyMend.Ledger
