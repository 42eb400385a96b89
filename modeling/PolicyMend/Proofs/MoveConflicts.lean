import PolicyMend.Proofs.MoveChains

/-!
The conflicts that a ledger detects, said of its moves alone. A move is crowded if another file goes
to the same place, and obstructed if a file that stays is there or if the moves lead back to where
they started. Main statements: detection records just these, and leaves the moves as they are.
-/

namespace PolicyMend.Ledger

open Relation

def rootFor (l : Ledger) (path : String) : String := (l.rootOf? path).getD ""

def Crowded (l : Ledger) (old new : String) : Prop :=
  l.Moves old new ∧ ∃ other, other ≠ old ∧ l.Moves other new

def Obstructed (l : Ledger) (existing : List String) (old new : String) : Prop :=
  l.Moves old new ∧
    ((new ∈ existing ∧ l.moves.contains new = false) ∨ TransGen l.Moves old old)

/-! ### Moves by destination -/

theorem mem_sourcesOf {l : Ledger} {source dest : String} :
    source ∈ l.sourcesOf dest ↔ l.Moves source dest := by
  simp only [sourcesOf, List.mem_map, List.mem_filter, decide_eq_true_eq, Moves,
    OrderedMap.get?_eq_some_iff]
  constructor
  · rintro ⟨⟨old, new⟩, ⟨member, rfl⟩, rfl⟩
    exact member
  · intro member
    exact ⟨(source, dest), ⟨member, rfl⟩, rfl⟩

theorem nodup_sourcesOf (l : Ledger) (dest : String) : (l.sourcesOf dest).Nodup :=
  List.Nodup.sublist (List.filter_sublist.map Prod.fst) l.moves.nodup

theorem crowded_iff {l : Ledger} {source dest : String} :
    l.Crowded source dest ↔ source ∈ l.sourcesOf dest ∧ 1 < (l.sourcesOf dest).length := by
  rw [Crowded, ← mem_sourcesOf]
  refine and_congr_right fun member => ?_
  constructor
  · rintro ⟨other, different, moves⟩
    have distinct : [other, source].Nodup := by simp [different]
    have inside : [other, source] ⊆ l.sourcesOf dest := by simp [mem_sourcesOf.mpr moves, member]
    exact (distinct.subperm inside).length_le
  · intro several
    by_contra alone
    have only : l.sourcesOf dest ⊆ [source] := by
      intro other found
      by_contra different
      exact alone ⟨other, by simpa using different, mem_sourcesOf.mp found⟩
    have few := ((l.nodup_sourcesOf dest).subperm only).length_le
    simp only [List.length_singleton] at few
    omega

theorem mem_addNew {α : Type} [DecidableEq α] {known : List α} {a x : α} :
    x ∈ addNew known a ↔ x ∈ known ∨ x = a := by
  unfold addNew
  split
  · next present =>
    constructor
    · exact .inl
    · rintro (member | rfl)
      · exact member
      · exact present
  · simp

theorem mem_foldl_addNew {α β : Type} [DecidableEq α] (make : β → α) (items : List β)
    (known : List α) (x : α) :
    x ∈ items.foldl (fun known item => addNew known (make item)) known ↔
      x ∈ known ∨ ∃ item ∈ items, x = make item := by
  induction items generalizing known with
  | nil => simp
  | cons item items ih =>
    rw [List.foldl_cons, ih, mem_addNew]
    simp [or_assoc]

theorem mem_destinations {l : Ledger} {dest : String} :
    dest ∈ l.destinations ↔ ∃ source, l.Moves source dest := by
  have listed := mem_foldl_addNew id l.moves.values [] dest
  simp only [id, List.not_mem_nil, false_or, exists_eq_right'] at listed
  exact listed.trans (l.moves.mem_values_iff dest)

/-! ### Recording conflicts -/

structure SameMoves (l l' : Ledger) : Prop where
  moves : l'.moves = l.moves
  fixes : l'.fixes = l.fixes

theorem SameMoves.trans {l l' l'' : Ledger} (first : SameMoves l l') (second : SameMoves l' l'') :
    SameMoves l l'' :=
  ⟨second.moves.trans first.moves, second.fixes.trans first.fixes⟩

theorem SameMoves.rel {l l' : Ledger} (same : SameMoves l l') : l'.Moves = l.Moves := by
  funext old new
  rw [Moves, Moves, same.moves]

theorem SameMoves.rootFor {l l' : Ledger} (same : SameMoves l l') (path : String) :
    l'.rootFor path = l.rootFor path := by
  rw [Ledger.rootFor, Ledger.rootFor, rootOf?, rootOf?, same.fixes]

theorem SameMoves.crowded {l l' : Ledger} (same : SameMoves l l') (old new : String) :
    l'.Crowded old new ↔ l.Crowded old new := by
  rw [Crowded, Crowded, same.rel]

theorem SameMoves.obstructed {l l' : Ledger} (same : SameMoves l l') (existing : List String)
    (old new : String) : l'.Obstructed existing old new ↔ l.Obstructed existing old new := by
  rw [Obstructed, Obstructed, same.rel, same.moves]

/-- A step that adds a conflict to one list and leaves another one as it is, taken for all sources
of a path. -/
theorem foldl_register {register : Ledger → String → Ledger} {listed other : Ledger → List Conflict}
    {made : String → Conflict} (same : ∀ l source, SameMoves l (register l source))
    (adds : ∀ l source, listed (register l source) = addNew (listed l) (made source))
    (keeps : ∀ l source, other (register l source) = other l) (sources : List String)
    (l : Ledger) :
    let l' := sources.foldl register l
    SameMoves l l' ∧ other l' = other l ∧
      listed l' = sources.foldl (fun known source => addNew known (made source)) (listed l) := by
  induction sources generalizing l with
  | nil => exact ⟨⟨rfl, rfl⟩, rfl, rfl⟩
  | cons source sources ih =>
    obtain ⟨same', kept, added⟩ := ih (register l source)
    rw [adds] at added
    exact ⟨(same l source).trans same', kept.trans (keeps l source), added⟩

/-! ### Detection -/

theorem contains_of_cycle {l : Ledger} {source dest : String} (moves : l.Moves source dest)
    (cycle : TransGen l.Moves source source) : l.moves.contains dest = true := by
  obtain ⟨next, move, back⟩ := TransGen.head'_iff.mp cycle
  obtain rfl := moves.unique move
  rcases ReflTransGen.cases_head back with rfl | ⟨further, away, -⟩
  · exact moves_contains_iff.mpr ⟨_, moves⟩
  · exact moves_contains_iff.mpr ⟨further, away⟩

theorem mem_obstructing {l : Ledger} {existing : List String} {source dest : String} :
    source ∈ (if dest ∈ existing && !l.moves.contains dest then l.sourcesOf dest else []) ++
        (l.sourcesOf dest).filter (fun source => l.moves.contains dest && l.inCycle source) ↔
      l.Obstructed existing source dest := by
  rw [List.mem_append, List.mem_filter]
  constructor
  · rintro (overwriting | ⟨found, cycling⟩)
    · split at overwriting
      · next taken => exact ⟨mem_sourcesOf.mp overwriting, .inl (by simpa using taken)⟩
      · simp at overwriting
    · obtain ⟨-, cycle⟩ := Bool.and_eq_true_iff.mp cycling
      exact ⟨mem_sourcesOf.mp found, .inr (inCycle_iff.mp cycle)⟩
  · rintro ⟨moves, ⟨taken, stays⟩ | cycle⟩
    · refine .inl ?_
      rw [if_pos (by simp [taken, stays])]
      exact mem_sourcesOf.mpr moves
    · exact .inr ⟨mem_sourcesOf.mpr moves, Bool.and_eq_true_iff.mpr
        ⟨contains_of_cycle moves cycle, inCycle_iff.mpr cycle⟩⟩

theorem mem_crowding {l : Ledger} {source dest : String} :
    source ∈ (if (l.sourcesOf dest).length > 1 then l.sourcesOf dest else []) ↔
      l.Crowded source dest := by
  rw [crowded_iff]
  split
  · next several => simp [several]
  · next few => simp [few]

theorem detectAt_spec (existing : List String) (l : Ledger) (dest : String) :
    SameMoves l (detectAt existing l dest) ∧
      (∀ c, c ∈ (detectAt existing l dest).manyToOne ↔ c ∈ l.manyToOne ∨
        (c.path = dest ∧ c.root = l.rootFor dest ∧ l.Crowded c.other dest)) ∧
      ∀ c, c ∈ (detectAt existing l dest).sourceFile ↔ c ∈ l.sourceFile ∨
        (c.path = dest ∧ c.root = l.rootFor dest ∧ l.Obstructed existing c.other dest) := by
  have made : ∀ (c : Conflict) (root : String) (listed : String → Prop),
      (∃ source, listed source ∧ c = ⟨root, dest, source⟩) ↔
        c.path = dest ∧ c.root = root ∧ listed c.other := by
    intro c root listed
    constructor
    · rintro ⟨source, found, rfl⟩
      exact ⟨rfl, rfl, found⟩
    · rintro ⟨rfl, rfl, found⟩
      exact ⟨c.other, found, rfl⟩
  simp only [detectAt]
  obtain ⟨same, sourceKept, crowding⟩ := @foldl_register
    (fun l' source => l'.registerManyToOne ((l.rootOf? dest).getD "") source dest)
    manyToOne sourceFile _ (fun _ _ => ⟨rfl, rfl⟩) (fun _ _ => rfl) (fun _ _ => rfl)
    (if (l.sourcesOf dest).length > 1 then l.sourcesOf dest else []) l
  generalize List.foldl _ l _ = crowded at same sourceKept crowding ⊢
  obtain ⟨same', crowdingKept, obstructing⟩ := @foldl_register
    (fun l' source => l'.registerSourceFile ((l.rootOf? dest).getD "") dest source)
    sourceFile manyToOne _ (fun _ _ => ⟨rfl, rfl⟩) (fun _ _ => rfl) (fun _ _ => rfl)
    ((if dest ∈ existing && !l.moves.contains dest then l.sourcesOf dest else []) ++
      (l.sourcesOf dest).filter (fun source => l.moves.contains dest && l.inCycle source)) crowded
  refine ⟨same.trans same', fun c => ?_, fun c => ?_⟩
  · rw [crowdingKept, crowding, mem_foldl_addNew]
    simp only [mem_crowding]
    rw [made]
    rfl
  · rw [obstructing, mem_foldl_addNew, sourceKept]
    simp only [mem_obstructing]
    rw [made]
    rfl

theorem foldl_detectAt_spec (existing dests : List String) (l : Ledger) :
    SameMoves l (dests.foldl (detectAt existing) l) ∧
      (∀ c, c ∈ (dests.foldl (detectAt existing) l).manyToOne ↔ c ∈ l.manyToOne ∨
        (c.path ∈ dests ∧ c.root = l.rootFor c.path ∧ l.Crowded c.other c.path)) ∧
      ∀ c, c ∈ (dests.foldl (detectAt existing) l).sourceFile ↔ c ∈ l.sourceFile ∨
        (c.path ∈ dests ∧ c.root = l.rootFor c.path ∧ l.Obstructed existing c.other c.path) := by
  induction dests generalizing l with
  | nil => simp [SameMoves.mk]
  | cons dest dests ih =>
    obtain ⟨same, crowding, obstructing⟩ := detectAt_spec existing l dest
    obtain ⟨same', crowding', obstructing'⟩ := ih (detectAt existing l dest)
    rw [List.foldl_cons]
    refine ⟨same.trans same', fun c => ?_, fun c => ?_⟩
    · rw [crowding', crowding, same.rootFor, same.crowded, List.mem_cons]
      grind
    · rw [obstructing', obstructing, same.rootFor, same.obstructed, List.mem_cons]
      grind

theorem sameMoves_detect (l : Ledger) (existing : List String) : SameMoves l (l.detect existing) :=
  (foldl_detectAt_spec existing l.destinations l).1

theorem mem_manyToOne_detect {l : Ledger} {existing : List String} {c : Conflict} :
    c ∈ (l.detect existing).manyToOne ↔
      c ∈ l.manyToOne ∨ (c.root = l.rootFor c.path ∧ l.Crowded c.other c.path) := by
  rw [detect, (foldl_detectAt_spec existing l.destinations l).2.1]
  refine or_congr_right ⟨fun found => found.2, fun found => ⟨?_, found⟩⟩
  exact mem_destinations.mpr ⟨c.other, found.2.1⟩

theorem mem_sourceFile_detect {l : Ledger} {existing : List String} {c : Conflict} :
    c ∈ (l.detect existing).sourceFile ↔
      c ∈ l.sourceFile ∨ (c.root = l.rootFor c.path ∧ l.Obstructed existing c.other c.path) := by
  rw [detect, (foldl_detectAt_spec existing l.destinations l).2.2]
  refine or_congr_right ⟨fun found => found.2, fun found => ⟨?_, found⟩⟩
  exact mem_destinations.mpr ⟨c.other, found.2.1⟩

/-! ### Conflicted paths -/

def Conflicting (l : Ledger) (existing : List String) (old new : String) : Prop :=
  l.Crowded old new ∨ l.Obstructed existing old new

theorem Conflicting.moves {l : Ledger} {existing : List String} {old new : String}
    (conflict : l.Conflicting existing old new) : l.Moves old new :=
  conflict.elim And.left And.left

theorem SameMoves.conflicting {l l' : Ledger} (same : SameMoves l l') (existing : List String)
    (old new : String) : l'.Conflicting existing old new ↔ l.Conflicting existing old new := by
  rw [Conflicting, Conflicting, same.crowded, same.obstructed]

def Clean (l : Ledger) : Prop := l.sourceFile = [] ∧ l.manyToOne = []

theorem exists_conflict_detect_iff {l : Ledger} (clean : l.Clean) (existing : List String)
    (holds : String → String → Prop) :
    (∃ c ∈ (l.detect existing).sourceFile ++ (l.detect existing).manyToOne, holds c.other c.path) ↔
      ∃ old new, l.Conflicting existing old new ∧ holds old new := by
  simp only [List.mem_append, mem_sourceFile_detect, mem_manyToOne_detect, clean.1, clean.2,
    List.not_mem_nil, false_or]
  constructor
  · rintro ⟨c, ⟨-, obstructed⟩ | ⟨-, crowded⟩, held⟩
    · exact ⟨c.other, c.path, .inr obstructed, held⟩
    · exact ⟨c.other, c.path, .inl crowded, held⟩
  · rintro ⟨old, new, crowded | obstructed, held⟩
    · exact ⟨⟨l.rootFor new, new, old⟩, .inr ⟨rfl, crowded⟩, held⟩
    · exact ⟨⟨l.rootFor new, new, old⟩, .inl ⟨rfl, obstructed⟩, held⟩

/-- The paths in conflict are the two ends of the moves that cannot be carried out. -/
theorem mem_conflictedPaths_detect {l : Ledger} (clean : l.Clean) {existing : List String}
    {path : String} :
    path ∈ (l.detect existing).conflictedPaths ↔
      ∃ old new, l.Conflicting existing old new ∧ (path = old ∨ path = new) := by
  rw [← exists_conflict_detect_iff clean existing, conflictedPaths, ascending, mem_sortDistinct,
    List.mem_flatMap]
  simp [or_comm]

theorem hasConflicts_detect {l : Ledger} (clean : l.Clean) {existing : List String} :
    (l.detect existing).hasConflicts = true ↔ ∃ old new, l.Conflicting existing old new := by
  have listed := exists_conflict_detect_iff clean existing fun _ _ => True
  simp only [and_true] at listed
  rw [← listed, ← List.isEmpty_eq_false_iff_exists_mem]
  simp only [hasConflicts, Bool.or_eq_true, Bool.not_eq_true', List.isEmpty_eq_false_iff, ne_eq,
    List.append_eq_nil_iff, not_and_or]

end PolicyMend.Ledger
