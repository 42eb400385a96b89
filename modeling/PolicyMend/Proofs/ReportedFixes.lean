import PolicyMend.Ledger.Report
import PolicyMend.Proofs.LedgerRoots

/-!
What the report of a ledger shows. Its text is that of a list of sections, one for each root. Main
statement: every file under a root without conflicts has one block in the section of its root, with
all its titles, and the section of any other root lists the conflicts and no fix.
-/

namespace PolicyMend.Ledger

/-! ### Sections -/

structure Block where
  path : String
  source : Option String
  titles : List String
  deriving DecidableEq

/-- What is shown of a root: its fixes with their number, or the paths of each kind of conflict with
the paths that collide with them. -/
inductive Section where
  | applied (root : String) (count : Nat) (blocks : List Block)
  | refused (root : String) (sourceFile manyToOne : List (String × List String))
  deriving DecidableEq

def Block.lines (root : String) (block : Block) : List String :=
  let origin := (block.source.map fun source => shown root source ++ " -> ").getD ""
  (origin ++ shown root block.path ++ ":") :: block.titles.map ("- " ++ ·)

def groupLines (root reason : String) (group : String × List String) : List String :=
  (shown root group.1 ++ " (" ++ reason ++ "):") ::
    group.2.map fun other => "- " ++ shown root other

namespace Section

def root : Section → String
  | .applied root _ _ => root
  | .refused root _ _ => root

def blocks : Section → List Block
  | .applied _ _ blocks => blocks
  | .refused _ _ _ => []

def kindLines (root title reason : String) (groups : List (String × List String)) : List String :=
  (if groups.isEmpty then [] else ["", title]) ++ groups.flatMap (groupLines root reason)

def lines : Section → List String
  | .applied root count blocks =>
    (toString count ++ (if count = 1 then " fix" else " fixes") ++ " applied in " ++ root ++ ":") ::
      [""].intercalate (blocks.map (Block.lines root))
  | .refused root sourceFile manyToOne =>
    ("Fixes not applied in " ++ root ++ ":") ::
      (kindLines root "Source file conflicts:" "cannot overwrite existing file" sourceFile ++
        kindLines root "Many to one conflicts:" "would receive more than one file" manyToOne)

def layout (sections : List Section) : String :=
  let lines :=
    if sections.isEmpty then ["No fixes to apply."] else [""].intercalate (sections.map lines)
  String.join (lines.map (· ++ "\n"))

end Section

/-! ### The sections of a ledger -/

def block (l : Ledger) (path : String) : Block := ⟨path, l.sourceOf? path, l.titlesOf path⟩

def sectionOf (l : Ledger) (root : String) : Section :=
  if l.hasConflictsIn root then
    .refused root (grouped l.sourceFile root) (grouped l.manyToOne root)
  else .applied root (l.totalIn root) ((l.filesIn root).map l.block)

theorem fileLines_eq (l : Ledger) (root path : String) :
    l.fileLines root path = (l.block path).lines root := by
  unfold fileLines Block.lines block
  cases l.sourceOf? path with
  | none => simp
  | some source => rfl

theorem conflictGroup_eq (title reason root : String) (conflicts : List Conflict) :
    conflictGroup title reason root conflicts =
      Section.kindLines root title reason (grouped conflicts root) := by
  unfold conflictGroup Section.kindLines
  cases grouped conflicts root with
  | nil => rfl
  | cons group groups => rfl

theorem rootLines_eq (l : Ledger) (root : String) :
    l.rootLines root = (l.sectionOf root).lines := by
  unfold rootLines sectionOf
  split
  · rw [conflictLines, conflictGroup_eq, conflictGroup_eq]
    rfl
  · have blocks : l.fileLines root = Block.lines root ∘ l.block := funext (l.fileLines_eq root)
    rw [fixLines, Section.lines, List.map_map, blocks]
    rfl

theorem report_eq_layout (l : Ledger) : l.report = Section.layout (l.roots.map l.sectionOf) := by
  have sections : l.rootLines = Section.lines ∘ l.sectionOf := funext l.rootLines_eq
  unfold report reportLines Section.layout
  rw [List.isEmpty_map, List.map_map, sections]

/-! ### Blocks -/

def isClear (l : Ledger) (path : String) : Bool :=
  (l.rootOf? path).all fun root => !l.hasConflictsIn root

theorem root_sectionOf (l : Ledger) (root : String) : (l.sectionOf root).root = root := by
  unfold sectionOf
  split <;> rfl

theorem blocks_sectionOf (l : Ledger) (root : String) :
    (l.sectionOf root).blocks = ((l.filesIn root).filter l.isClear).map l.block := by
  have clear : ∀ path ∈ l.filesIn root, l.isClear path = !l.hasConflictsIn root := by
    intro path member
    rw [isClear, mem_filesIn.mp member]
    rfl
  unfold sectionOf
  split
  · next conflicted =>
    have none : (l.filesIn root).filter l.isClear = [] := by
      apply List.filter_eq_nil_iff.mpr
      intro path member
      simp [clear path member, conflicted]
    rw [none]
    rfl
  · next free =>
    have all : (l.filesIn root).filter l.isClear = l.filesIn root := by
      apply List.filter_eq_self.mpr
      intro path member
      simp [clear path member, free]
    rw [all]
    rfl

theorem Rooted.blocks_perm {l : Ledger} (rooted : l.Rooted) :
    ((l.roots.map l.sectionOf).flatMap Section.blocks).Perm
      ((l.files.filter l.isClear).map l.block) := by
  rw [List.flatMap_map]
  simp only [blocks_sectionOf]
  rw [← List.map_flatMap, ← List.filter_flatMap]
  exact (rooted.files_perm.filter _).map l.block

theorem totalIn_eq_length (l : Ledger) (root : String) :
    l.totalIn root = ((l.filesIn root).flatMap l.titlesOf).length := by
  have titles : ((l.fixes.entries.filter fun entry => entry.2.root = root).map Prod.fst).flatMap
      l.titlesOf = (l.fixes.values.filter fun file => file.root = root).flatMap (·.titles) := by
    rw [OrderedMap.values, List.filter_map, List.flatMap_map, List.flatMap_map]
    refine List.flatMap_congr fun entry member => ?_
    have found := (l.fixes.get?_eq_some_iff entry.1 entry.2).mpr (List.mem_of_mem_filter member)
    rw [titlesOf, found]
    rfl
  rw [totalIn, countTitles_eq_length, ← titles]
  exact ((l.filesIn_perm root).flatMap_right _).length_eq.symm

/-! ### Conflicts -/

def pairs (groups : List (String × List String)) : List (String × String) :=
  groups.flatMap fun group => group.2.map (Prod.mk group.1)

def pairsIn (conflicts : List Conflict) (root : String) : List (String × String) :=
  (conflicts.filter (·.root = root)).map fun c => (c.path, c.other)

theorem pairs_grouped {conflicts : List Conflict} (nodup : conflicts.Nodup) (root : String) :
    (pairs (grouped conflicts root)).Perm (pairsIn conflicts root) := by
  let here := conflicts.filter (·.root = root)
  have covered : ∀ c ∈ here, c.path ∈ ascending (here.map (·.path)) := by
    intro c member
    rw [ascending, mem_sortDistinct]
    exact List.mem_map_of_mem member
  have split := flatMap_fiber_perm (fun c : Conflict => c.path) (ascending_nodup _) covered
  refine .trans ?_ (split.map fun c => (c.path, c.other))
  rw [pairs, grouped, List.flatMap_map, List.map_flatMap]
  refine List.Perm.flatMap_left _ fun path _ => ?_
  -- conflicts of one root and one path differ in the other path
  have distinct : ((here.filter (·.path = path)).map (·.other)).Nodup := by
    refine List.Nodup.map_on ?_ ((nodup.filter _).filter _)
    rintro ⟨root, path, other⟩ member ⟨root', path', other'⟩ member' rfl
    simp only [here, List.mem_filter, decide_eq_true_eq] at member member'
    rw [member.1.2, member.2, member'.1.2, member'.2]
  refine ((ascending_perm distinct).map (Prod.mk path)).trans (.of_eq ?_)
  rw [List.map_map]
  refine List.map_congr_left fun c member => ?_
  rw [of_decide_eq_true (List.mem_filter.mp member).2]
  rfl

/-! ### The report -/

/-- A section says of its root what a ledger has of it: under a root without conflicts, files of the
root and the number of their titles, and else each conflict once. -/
def Section.Accounts (l : Ledger) : Section → Prop
  | .applied root count blocks =>
    l.hasConflictsIn root = false ∧ count = (blocks.flatMap (·.titles)).length ∧
      ∀ block ∈ blocks, l.rootOf? block.path = some root
  | .refused root sourceFile manyToOne =>
    l.hasConflictsIn root = true ∧ (pairs sourceFile).Perm (pairsIn l.sourceFile root) ∧
      (pairs manyToOne).Perm (pairsIn l.manyToOne root)

theorem Rooted.accounts_sectionOf {l : Ledger} (rooted : l.Rooted) (root : String) :
    (l.sectionOf root).Accounts l := by
  unfold sectionOf
  split
  · next conflicted =>
    exact ⟨conflicted, pairs_grouped rooted.sourceFile root, pairs_grouped rooted.manyToOne root⟩
  · next free =>
    refine ⟨Bool.eq_false_iff.mpr free, ?_, ?_⟩
    · rw [totalIn_eq_length, List.flatMap_map]
      rfl
    · intro block member
      obtain ⟨path, here, rfl⟩ := List.mem_map.mp member
      exact mem_filesIn.mp here

/-- After any events the roots are known, each once, and split the files and their fixes without
loss, which to merge fixes does not change. So the report has one section for each root, and in
these one block with all titles for each file whose root has no conflict. -/
theorem report_accounts_for_fixes (events : List Event) :
    let l := ofEvents events
    (l.roots.Nodup ∧ (∀ path ∈ l.files, ∃ root ∈ l.roots, l.rootOf? path = some root) ∧
      ∀ root, l.hasConflictsIn root = true → root ∈ l.roots) ∧
    (l.files.Nodup ∧ (l.roots.flatMap l.filesIn).Perm l.files ∧
      l.roots.foldr (fun root count => l.totalIn root + count) 0 = l.total) ∧
    (∀ new old, (l.mergeFixes new old).total = l.total ∧
      (l.mergeFixes new old).titles.Perm l.titles) ∧
    ∃ sections : List Section,
      l.report = Section.layout sections ∧ sections.map Section.root = l.roots ∧
        (sections.flatMap Section.blocks).Perm ((l.files.filter l.isClear).map l.block) ∧
        ∀ part ∈ sections, part.Accounts l := by
  intro l
  have rooted := rooted_ofEvents events
  refine ⟨⟨rooted.roots, ?_, fun root => rooted.mem_roots_of_hasConflictsIn⟩,
    ⟨l.fixes.nodup, rooted.files_perm, rooted.total_eq⟩, ?_,
    l.roots.map l.sectionOf, l.report_eq_layout, ?_, rooted.blocks_perm, ?_⟩
  · intro path member
    have present := (l.fixes.mem_keys_iff path).mp member
    obtain ⟨file, found⟩ := Option.isSome_iff_exists.mp present
    refine ⟨file.root, rooted.fixes path file found, ?_⟩
    rw [rootOf?, found]
    rfl
  · intro new old
    exact ⟨l.total_mergeFixes new old, l.titles_mergeFixes new old⟩
  · rw [List.map_map]
    exact (List.map_congr_left fun root _ => l.root_sectionOf root).trans (List.map_id _)
  · intro part member
    obtain ⟨root, -, rfl⟩ := List.mem_map.mp member
    exact rooted.accounts_sectionOf root

/-- Fixes of one root, of which a file is merged into another, and two roots with conflicts: one
found among the moves and one that no file has. -/
def mixedEvents : List Event :=
  [.note (.fix "/w/a" "one" "/w"), .note (.fix "/w/c" "two" "/w"), .note (.fix "/v/b" "moved" "/v"),
    .note (.fix "/w/a" "three" "/w"), .note (.merge "/w/a" "/w/c"), .note (.fix "/w/d" "four" "/u"),
    .note (.move "/v/b" "/v/x"), .note (.move "/v/b" "/v/y"), .note (.move "/w/d" "/w/e"),
    .detect [], .sourceFile "/s" "/s/p" "/s/q"]

theorem report_accounts_for_fixes_mixedEvents :
    let l := ofEvents mixedEvents
    "/w/a" ∈ l.files ∧ (∃ root ∈ l.roots, l.rootOf? "/w/a" = some root) ∧
      l.hasConflictsIn "/s" = true ∧ "/s" ∈ l.roots ∧
      (∃ sections : List Section, l.report = Section.layout sections ∧
        sections.map Section.root = ["/w", "/v", "/u", "/s"] ∧
        (sections.flatMap Section.blocks).Perm
          [⟨"/w/a", none, ["one", "three", "two"]⟩, ⟨"/w/d", some "/w/e", ["four"]⟩]) ∧
      l.reportLines =
        ["3 fixes applied in /w:", "a:", "- one", "- three", "- two", "",
          "Fixes not applied in /v:", "", "Many to one conflicts:",
          "b (would receive more than one file):", "- x", "- y", "",
          "1 fix applied in /u:", "/w/e -> /w/d:", "- four", "",
          "Fixes not applied in /s:", "", "Source file conflicts:",
          "p (cannot overwrite existing file):", "- q"] := by
  intro l
  obtain ⟨⟨-, rooted, conflicted⟩, -, -, sections, text, roots, blocks, -⟩ :=
    report_accounts_for_fixes mixedEvents
  have listed : "/w/a" ∈ l.files := by decide +kernel
  have conflict : l.hasConflictsIn "/s" = true := by decide +kernel
  have noted : l.roots = ["/w", "/v", "/u", "/s"] := by decide +kernel
  have shown : (l.files.filter l.isClear).map l.block =
      [⟨"/w/a", none, ["one", "three", "two"]⟩, ⟨"/w/d", some "/w/e", ["four"]⟩] := by
    decide +kernel
  exact ⟨listed, rooted "/w/a" listed, conflict, conflicted "/s" conflict,
    ⟨sections, text, roots.trans noted, shown ▸ blocks⟩, by decide +kernel⟩

end PolicyMend.Ledger
