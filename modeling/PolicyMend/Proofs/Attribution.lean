import PolicyMend.Proofs.FixerTurns
import PolicyMend.Proofs.RunFiles

/-!
Which fixes the ledger of a run attributes to which file. Titles are recorded under the place where
a file ends up, so two files that end up in one place would share them. Main statement: without
conflicts no two do, and the ledger has the titles and the source of each file as they are.
-/

namespace PolicyMend

/-! ### Recording fixes -/

namespace Ledger

theorem countTitles_put (dest : String) (change : Option FileFixes → FileFixes)
    (entries : List (String × FileFixes))
    (longer : ∀ known, (change known).titles.length =
      (known.map fun fixes => fixes.titles.length).getD 0 + 1) :
    countTitles ((OrderedMap.put dest (change (OrderedMap.lookup dest entries)) entries).map
      Prod.snd) = countTitles (entries.map Prod.snd) + 1 := by
  induction entries with
  | nil => simp [OrderedMap.put, OrderedMap.lookup, countTitles, longer]
  | cons entry rest ih =>
    obtain ⟨path, fixes⟩ := entry
    simp only [countTitles] at ih
    by_cases here : path = dest
    · simp only [OrderedMap.put, OrderedMap.lookup, if_pos here, List.map_cons, countTitles,
        List.foldr_cons, longer, Option.map_some, Option.getD_some]
      omega
    · simp only [OrderedMap.put, OrderedMap.lookup, if_neg here, List.map_cons, countTitles,
        List.foldr_cons, ih]
      omega

theorem countTitles_alter (m : OrderedMap String FileFixes) (dest : String)
    (change : Option FileFixes → FileFixes)
    (longer : ∀ known, (change known).titles.length =
      (known.map fun fixes => fixes.titles.length).getD 0 + 1) :
    countTitles (m.alter dest change).values = countTitles m.values + 1 :=
  countTitles_put dest change m.entries longer

theorem total_addFix (l : Ledger) (dest title root : String) :
    (l.addFix dest title root).total = l.total + 1 := by
  refine countTitles_alter l.fixes dest _ fun known => ?_
  cases known <;> simp

theorem titlesOf_addFix (l : Ledger) (dest title root path : String) :
    (l.addFix dest title root).titlesOf path =
      l.titlesOf path ++ if path = dest then [title] else [] := by
  simp only [titlesOf, addFix, OrderedMap.get?_alter]
  by_cases same : path = dest
  · subst same
    cases l.fixes.get? path <;> simp
  · simp [same]

theorem files_addFix (l : Ledger) (dest title root : String) :
    (l.addFix dest title root).files = addNew l.files dest :=
  l.fixes.keys_insert dest _

theorem addNew_addNew {α : Type} [DecidableEq α] (known : List α) (a : α) :
    addNew (addNew known a) a = addNew known a :=
  if_pos (mem_addNew.mpr (.inr rfl))

theorem foldl_addFix_attributes (dest : String) (edits : List Fix.Edit) (l : Ledger) :
    let l' := edits.foldl (fun l edit => l.addFix dest edit.title edit.root) l
    l'.total = l.total + edits.length ∧
      (∀ path, l'.titlesOf path =
        l.titlesOf path ++ if path = dest then edits.map (·.title) else []) ∧
      l'.files = if edits.isEmpty then l.files else addNew l.files dest := by
  induction edits generalizing l with
  | nil => simp
  | cons edit edits ih =>
    obtain ⟨total, titles, files⟩ := ih (l.addFix dest edit.title edit.root)
    refine ⟨?_, fun path => ?_, ?_⟩
    · rw [List.foldl_cons, total, total_addFix, List.length_cons]
      omega
    · rw [List.foldl_cons, titles, titlesOf_addFix, List.append_assoc]
      by_cases same : path = dest
      · simp [same]
      · simp [same]
    · rw [List.foldl_cons, files, files_addFix, addNew_addNew]
      simp

theorem foldl_addNew_of_nodup {α : Type} [DecidableEq α] {known new : List α}
    (nodup : (known ++ new).Nodup) : new.foldl addNew known = known ++ new := by
  induction new generalizing known with
  | nil => simp
  | cons a new ih =>
    have absent : a ∉ known := by
      intro present
      exact (List.nodup_append.mp nodup).2.2 a present a List.mem_cons_self rfl
    rw [List.foldl_cons, addNew, if_neg absent, ih (by simpa using nodup), List.append_assoc]
    rfl

end Ledger

namespace Run

theorem Progress.record_attributes (p : Progress) (uri : String) (l : Ledger) :
    (p.record uri l).total = l.total + p.edits.length ∧
      (∀ path, (p.record uri l).titlesOf path =
        l.titlesOf path ++ if path = p.path then p.edits.map (·.title) else []) ∧
      (p.record uri l).files =
        if p.edits.isEmpty then l.files else Ledger.addNew l.files p.path := by
  have fixes := (foldl_registerMove_keeps uri (p.edits.filterMap (·.rename)) l).1
  obtain ⟨total, titles, files⟩ := Ledger.foldl_addFix_attributes p.path p.edits
    ((p.edits.filterMap (·.rename)).foldl (fun l rename => l.registerMove rename.dest uri) l)
  refine ⟨total.trans ?_, fun path => (titles path).trans ?_, files.trans ?_⟩
  · rw [Ledger.total, fixes, Ledger.total]
  · rw [Ledger.titlesOf, fixes, Ledger.titlesOf]
  · rw [Ledger.files, fixes, Ledger.files]

/-! ### All files of a run -/

variable (registry : Fix.Registry) (baseDir : String) (cache : Cache)

def turnsAt (uri : String) : List (String × List Fix.Edit) :=
  match cache.contents.get? uri with
  | none => []
  | some contents =>
    turns baseDir (locationsByCode (cache.shownDiagnostics uri)) { path := uri, contents }
      registry.fixers

def titlesAt (uri : String) : List String :=
  (resultsOf (turnsAt registry baseDir cache uri)).map (·.title)

def endsAt (path uri : String) : Bool :=
  (fixedFile? registry baseDir cache uri).any (·.dest = path)

variable {registry baseDir cache}

theorem visit_attributes (o : Outcome) (uri : String) :
    let o' := visit registry baseDir cache o uri
    o'.ledger.total = o.ledger.total + (resultsOf (turnsAt registry baseDir cache uri)).length ∧
      (∀ path, o'.ledger.titlesOf path = o.ledger.titlesOf path ++
        if endsAt registry baseDir cache path uri then titlesAt registry baseDir cache uri
        else []) ∧
      o'.ledger.files = ((fixedFile? registry baseDir cache uri).toList.map (·.dest)).foldl
        Ledger.addNew o.ledger.files := by
  simp only [visit, endsAt, titlesAt, turnsAt, fixedFile?]
  cases cache.contents.get? uri with
  | none => simp [resultsOf]
  | some contents =>
    have edits := @foldl_step_edits baseDir (locationsByCode (cache.shownDiagnostics uri))
      registry.fixers { path := uri, contents }
    rw [← mend, List.nil_append] at edits
    obtain ⟨total, titles, files⟩ := Progress.record_attributes
      (mend registry baseDir uri contents (locationsByCode (cache.shownDiagnostics uri))) uri
      o.ledger
    simp only [Progress.addTo, Option.bind_some]
    rw [← edits]
    refine ⟨total, fun path => (titles path).trans ?_, files.trans ?_⟩
    · generalize mend registry baseDir uri contents _ = p
      by_cases noEdit : p.edits.isEmpty = true
      · simp [List.isEmpty_iff.mp noEdit]
      · simp [noEdit, eq_comm]
    · generalize mend registry baseDir uri contents _ = p
      by_cases noEdit : p.edits.isEmpty = true
      · simp [noEdit]
      · simp [noEdit]

theorem foldl_visit_attributes (uris : List String) (o : Outcome) :
    let o' := uris.foldl (visit registry baseDir cache) o
    o'.ledger.total = o.ledger.total +
        (uris.flatMap fun uri => resultsOf (turnsAt registry baseDir cache uri)).length ∧
      (∀ path, o'.ledger.titlesOf path = o.ledger.titlesOf path ++
        (uris.filter (endsAt registry baseDir cache path)).flatMap
          (titlesAt registry baseDir cache)) ∧
      o'.ledger.files = ((uris.filterMap (fixedFile? registry baseDir cache)).map (·.dest)).foldl
        Ledger.addNew o.ledger.files := by
  induction uris generalizing o with
  | nil => simp
  | cons uri uris ih =>
    obtain ⟨total, titles, files⟩ := @visit_attributes registry baseDir cache o uri
    obtain ⟨total', titles', files'⟩ := ih (visit registry baseDir cache o uri)
    refine ⟨?_, fun path => ?_, ?_⟩
    · rw [List.foldl_cons, total', total, List.flatMap_cons, List.length_append]
      omega
    · rw [List.foldl_cons, titles', titles, List.filter_cons, List.append_assoc]
      split <;> simp
    · rw [List.foldl_cons, files', files, List.filterMap_cons, ← List.foldl_append]
      cases fixedFile? registry baseDir cache uri <;> rfl

end Run

open Run

variable {registry : Fix.Registry} {baseDir : String} {cache : Cache}

theorem run_total (registry : Fix.Registry) (baseDir : String) (cache : Cache) :
    (run registry baseDir cache).ledger.total =
      (cache.contents.entries.keys.flatMap fun uri =>
        resultsOf (turnsAt registry baseDir cache uri)).length := by
  obtain ⟨total, -, -⟩ := @foldl_visit_attributes registry baseDir cache
    (ascending cache.contents.entries.keys) {}
  rw [run_ledger, Ledger.total, (Ledger.sameMoves_detect _ _).fixes, ← Ledger.total, recorded,
    total]
  have sorted := (ascending_perm cache.contents.entries.nodup).flatMap_right fun uri =>
    resultsOf (turnsAt registry baseDir cache uri)
  exact (Nat.zero_add _).trans sorted.length_eq

theorem run_titlesOf (path : String) :
    (run registry baseDir cache).ledger.titlesOf path =
      ((ascending cache.contents.entries.keys).filter (endsAt registry baseDir cache path)).flatMap
        (titlesAt registry baseDir cache) := by
  obtain ⟨-, titles, -⟩ := @foldl_visit_attributes registry baseDir cache
    (ascending cache.contents.entries.keys) {}
  rw [run_ledger, Ledger.titlesOf, (Ledger.sameMoves_detect _ _).fixes, ← Ledger.titlesOf, recorded,
    titles]
  exact List.nil_append _

theorem run_ledger_files (registry : Fix.Registry) (baseDir : String) (cache : Cache) :
    (run registry baseDir cache).ledger.files =
      ((run registry baseDir cache).files.map (·.dest)).foldl Ledger.addNew [] := by
  obtain ⟨-, -, files⟩ := @foldl_visit_attributes registry baseDir cache
    (ascending cache.contents.entries.keys) {}
  rw [run_ledger, Ledger.files, (Ledger.sameMoves_detect _ _).fixes, ← Ledger.files, recorded,
    files, run_files]
  rfl

/-! ### Without conflicts -/

section Free

variable (free : (run registry baseDir cache).ledger.hasConflicts = false)

include free

theorem not_conflicting (old new : String) :
    ¬(run registry baseDir cache).ledger.Conflicting (existing cache) old new := by
  intro conflict
  rw [run_hasConflicts_iff.mpr ⟨old, new, conflict⟩] at free
  cases free

/-- A file that moves goes where no other file of the run ends up. -/
theorem eq_of_dest_eq_of_isMove {f g : FixedFile} (member : f ∈ (run registry baseDir cache).files)
    (member' : g ∈ (run registry baseDir cache).files) (same : f.dest = g.dest)
    (moves : f.isMove = true) : f = g := by
  have distinct := run_sources_nodup registry baseDir cache
  have move := run_moves_iff.mpr ⟨f, member, moves, rfl, rfl⟩
  by_contra different
  have apart : g.source ≠ f.source := fun equal =>
    different (List.inj_on_of_nodup_map distinct member member' equal.symm)
  by_cases moves' : g.isMove = true
  · have move' := run_moves_iff.mpr ⟨g, member', moves', rfl, same.symm⟩
    exact not_conflicting free _ _ (.inl ⟨move, g.source, apart, move'⟩)
  · -- The other file stays, so the move would overwrite it.
    have stays := FixedFile.source_eq_dest moves'
    have occupied : f.dest ∈ existing cache := by
      rw [mem_existing, same, ← stays, Commit.isOccupied, Bool.or_eq_true]
      obtain ⟨contents, found, -⟩ := Option.map_eq_some_iff.mp (run_files_fresh member')
      exact .inl (Option.isSome_iff_exists.mpr ⟨contents, found⟩)
    refine not_conflicting free _ _ (.inr ⟨move, .inl ⟨occupied, ?_⟩⟩)
    refine Bool.eq_false_iff.mpr fun away => ?_
    obtain ⟨next, further⟩ := Ledger.moves_contains_iff.mp away
    obtain ⟨h, member'', moving, source, -⟩ := run_moves_iff.mp further
    have equal := List.inj_on_of_nodup_map distinct member'' member'
      (source.trans (same.trans stays.symm))
    exact moves' (equal ▸ moving)

theorem eq_of_dest_eq {f g : FixedFile} (member : f ∈ (run registry baseDir cache).files)
    (member' : g ∈ (run registry baseDir cache).files) (same : f.dest = g.dest) : f = g := by
  by_cases moves : f.isMove = true
  · exact eq_of_dest_eq_of_isMove free member member' same moves
  · by_cases moves' : g.isMove = true
    · exact (eq_of_dest_eq_of_isMove free member' member same.symm moves').symm
    · refine List.inj_on_of_nodup_map (run_sources_nodup registry baseDir cache) member member' ?_
      rw [FixedFile.source_eq_dest moves, FixedFile.source_eq_dest moves', same]

theorem run_dests_nodup : ((run registry baseDir cache).files.map (·.dest)).Nodup := by
  refine List.Nodup.map_on ?_ (List.Nodup.of_map _ (run_sources_nodup registry baseDir cache))
  intro f member g member' same
  exact eq_of_dest_eq free member member' same

theorem run_sourceOf? {f : FixedFile} (member : f ∈ (run registry baseDir cache).files) :
    (run registry baseDir cache).ledger.sourceOf? f.dest =
      if f.isMove then some f.source else none := by
  have sources : ∀ source, source ∈ (run registry baseDir cache).ledger.sourcesOf f.dest ↔
      f.isMove = true ∧ source = f.source := by
    intro source
    rw [Ledger.mem_sourcesOf, run_moves_iff]
    constructor
    · rintro ⟨g, member', moves, rfl, same⟩
      obtain rfl := eq_of_dest_eq free member' member same
      exact ⟨moves, rfl⟩
    · rintro ⟨moves, rfl⟩
      exact ⟨f, member, moves, rfl, rfl⟩
  by_cases moves : f.isMove = true
  · have only : (run registry baseDir cache).ledger.sourcesOf f.dest = [f.source] := by
      refine List.perm_singleton.mp ((List.perm_ext_iff_of_nodup
        (Ledger.nodup_sourcesOf _ _) (List.nodup_singleton _)).mpr fun source => ?_)
      rw [sources, List.mem_singleton]
      exact and_iff_right moves
    rw [Ledger.sourceOf?, only, if_pos moves]
  · have none : (run registry baseDir cache).ledger.sourcesOf f.dest = [] := by
      refine List.eq_nil_iff_forall_not_mem.mpr fun source listed => ?_
      exact moves ((sources source).mp listed).1
    rw [Ledger.sourceOf?, none, if_neg moves]

theorem run_titlesOf_dest {f : FixedFile} (member : f ∈ (run registry baseDir cache).files) :
    (run registry baseDir cache).ledger.titlesOf f.dest =
      titlesAt registry baseDir cache f.source := by
  have fixed := mem_run_files.mp member
  have only : (ascending cache.contents.entries.keys).filter
      (endsAt registry baseDir cache f.dest) = [f.source] := by
    refine List.perm_singleton.mp ((List.perm_ext_iff_of_nodup
      ((ascending_nodup _).filter _) (List.nodup_singleton _)).mpr fun uri => ?_)
    rw [List.mem_filter, List.mem_singleton, endsAt]
    constructor
    · rintro ⟨-, ends⟩
      obtain ⟨g, made, same⟩ : ∃ g, fixedFile? registry baseDir cache uri = some g ∧
          g.dest = f.dest := by
        simpa [Option.any_eq_true] using ends
      obtain ⟨rfl, -⟩ := source_of_fixedFile? made
      rw [eq_of_dest_eq free (mem_run_files.mpr made) member same]
    · rintro rfl
      refine ⟨?_, by simp [fixed]⟩
      obtain ⟨contents, found, -⟩ := Option.bind_eq_some_iff.mp fixed
      rw [ascending, mem_sortDistinct, OrderedMap.mem_keys_iff]
      exact Option.isSome_iff_exists.mpr ⟨contents, found⟩
  rw [run_titlesOf, only]
  simp

end Free

theorem run_sources_ascending (registry : Fix.Registry) (baseDir : String) (cache : Cache) :
    ((run registry baseDir cache).files.map (·.source)).Pairwise (· < ·) :=
  (ascending_pairwise _).sublist (run_sources_sublist registry baseDir cache)

/-! ### Registries of built-in fixers -/

theorem Fix.Registry.IsBuiltin.producers_turnsAt (known : registry.IsBuiltin) (uri : String) :
    titlesAt registry baseDir cache uri = producers (turnsAt registry baseDir cache uri) ∧
      (producers (turnsAt registry baseDir cache uri)).Sublist registry.names ∧
      (producers (turnsAt registry baseDir cache uri)).Nodup := by
  have sublist : (producers (turnsAt registry baseDir cache uri)).Sublist registry.names := by
    unfold turnsAt
    split
    · exact List.nil_sublist _
    · exact producers_sublist _ _
  refine ⟨?_, sublist, known.distinct.sublist sublist⟩
  unfold titlesAt turnsAt
  split
  · rfl
  · exact titles_turns known.builtin _

/-- The ledger of a run counts every result. Without conflicts it has each fixed file under a path
of its own, with the names of the fixers that gave a result for it and the place it comes from. -/
theorem run_attributes_fixes (changes : List Fix.Registry.Change) (baseDir : String)
    (cache : Cache) :
    let registry := Fix.Registry.ofChanges changes
    let outcome := run registry baseDir cache
    (outcome.files.map (·.source)).Pairwise (· < ·) ∧
      outcome.ledger.total = (cache.contents.entries.keys.flatMap fun uri =>
        resultsOf (turnsAt registry baseDir cache uri)).length ∧
      (outcome.ledger.hasConflicts = false →
        (outcome.files.map (·.dest)).Nodup ∧
        (∀ f ∈ outcome.files,
          outcome.ledger.titlesOf f.dest = producers (turnsAt registry baseDir cache f.source) ∧
          (outcome.ledger.titlesOf f.dest).Sublist registry.names ∧
          (outcome.ledger.titlesOf f.dest).Nodup ∧
          outcome.ledger.sourceOf? f.dest = if f.isMove then some f.source else none) ∧
        outcome.ledger.files = outcome.files.map (·.dest)) := by
  intro registry outcome
  have known : registry.IsBuiltin := Fix.Registry.ofChanges_isBuiltin changes
  refine ⟨run_sources_ascending registry baseDir cache, run_total registry baseDir cache, ?_⟩
  intro free
  have distinct := run_dests_nodup free
  refine ⟨distinct, fun f member => ?_, ?_⟩
  · obtain ⟨titles, sublist, nodup⟩ :=
      @Fix.Registry.IsBuiltin.producers_turnsAt registry baseDir cache known f.source
    rw [run_titlesOf_dest free member, titles]
    exact ⟨rfl, sublist, nodup, run_sourceOf? free member⟩
  · rw [run_ledger_files]
    exact Ledger.foldl_addNew_of_nodup distinct

/-- The fixer that moves files is registered first and again, so it comes last. -/
def movingLast : List Fix.Registry.Change :=
  [.register (.directoryPackageMismatch false), .register .constantCondition,
    .register .useAssignmentOperator, .register (.directoryPackageMismatch true),
    .unregister Fix.Builtin.constantCondition.name]

def editedChain : Cache :=
  let misplaced : Diagnostic :=
    { code := "directory-package-mismatch", message := "", location := ⟨1, 1, none⟩ }
  let assigned : Diagnostic :=
    { code := "use-assignment-operator", message := "", location := ⟨2, 3, none⟩ }
  (((({} : Cache).setContents "/work/x/p.rego" "package y\na = 1\n").setContents
    "/work/y/p.rego" "package z\n").setDiagnostics "/work/x/p.rego"
    [misplaced, assigned]).setDiagnostics "/work/y/p.rego" [misplaced]

theorem run_attributes_fixes_editedChain :
    let outcome := run (.ofChanges movingLast) "/work" editedChain
    outcome.ledger.hasConflicts = false ∧
      outcome.files.map (fun f => (f.source, f.dest)) =
        [("/work/x/p.rego", "/work/y/p.rego"), ("/work/y/p.rego", "/work/z/p.rego")] ∧
      outcome.ledger.titlesOf "/work/y/p.rego" =
        ["use-assignment-operator", "directory-package-mismatch"] ∧
      outcome.ledger.files = outcome.files.map (·.dest) := by
  have free : (run (.ofChanges movingLast) "/work" editedChain).ledger.hasConflicts = false := by
    decide +kernel
  exact ⟨free, by decide +kernel, by decide +kernel,
    ((run_attributes_fixes movingLast "/work" editedChain).2.2 free).2.2⟩

end PolicyMend
