import PolicyMend.Proofs.DiskChanges

/-!
Paths that are looked up again later. A path that has once named a place in a directory names the
same place as long as the directories on its way are kept. Main statement: what can be read under
such a path is what stands where it lands.
-/

namespace PolicyMend.Disk.Tree

variable {t t' : Tree}

/-! ### Directories on the way -/

theorem followAll_directory {spot next : Spot} {pieces front : List (List Char)}
    (ran : t.followAll spot pieces = .ok next) (last : t.at? next = some .directory)
    (first : front <+: pieces) : t.at? (front.foldl advance spot) = some .directory := by
  induction pieces generalizing spot front with
  | nil =>
    cases ran
    rw [List.prefix_nil.mp first]
    exact last
  | cons piece pieces ih =>
    rw [followAll, List.foldlM_cons] at ran
    obtain ⟨middle, one, rest⟩ := bind_ok ran
    cases front with
    | nil => exact follow_directory one
    | cons other front =>
      obtain ⟨rfl, later⟩ := List.cons_prefix_cons.mp first
      obtain rfl := follow_ok one
      rw [List.foldl_cons]
      exact ih rest later

theorem Passes.directory {path : String} {spot : Spot} {found : Spot × List Char}
    (passes : t.Passes path spot) (parent : t.findParent path = .ok found) :
    t.at? spot = some .directory := by
  obtain ⟨front, ⟨rest, first⟩, rfl⟩ := passes
  obtain ⟨whole, later, split, counted, -⟩ := List.filter_eq_append_iff.mp first.symm
  unfold findParent at parent
  obtain ⟨pieces, divided, parent⟩ := bind_ok parent
  obtain ⟨above, walked, parent⟩ := bind_ok parent
  obtain rfl := wholePieces_ok divided
  split at parent
  · next directory =>
    rw [← counted, ← Path.counting, foldl_advance_counting]
    exact followAll_directory walked directory (split ▸ List.prefix_append whole later)
  · cases parent
  · cases parent

/-- A tree that has the directories of another one. -/
structure Keeps (t t' : Tree) : Prop where
  current : t'.current = t.current
  directories : ∀ spot, t.at? spot = some .directory → t'.at? spot = some .directory

theorem Keeps.refl (t : Tree) : Keeps t t := ⟨rfl, fun _ directory => directory⟩

theorem Keeps.trans {t'' : Tree} (first : Keeps t t') (second : Keeps t' t'') : Keeps t t'' where
  current := second.current.trans first.current
  directories spot directory := second.directories spot (first.directories spot directory)

theorem Grows.keeps {places : Spot → Prop} (grows : Grows places t t') : Keeps t t' where
  current := grows.current
  directories spot directory := by
    rcases grows.at? spot with same | ⟨empty, -, -⟩
    · rw [same]
      exact directory
    · rw [empty] at directory
      cases directory

theorem follow_keeps (keeps : Keeps t t') {spot next : Spot} {piece : List Char}
    (ran : t.follow spot piece = .ok next) (last : t.at? next = some .directory) :
    t'.follow spot piece = .ok next := by
  have here := follow_directory ran
  have there := keeps.directories spot here
  unfold follow at ran ⊢
  rw [here] at ran
  rw [there]
  dsimp only at ran ⊢
  split at ran
  · next idle => rw [if_pos idle]; exact ran
  · next busy =>
    rw [if_neg busy]
    split at ran
    · next up => rw [if_pos up]; exact ran
    · next down =>
      rw [if_neg down]
      split at ran
      · cases ran
      · next short =>
        rw [if_neg short]
        split at ran
        · cases ran
          rw [if_pos (by rw [keeps.directories _ last]; rfl)]
        · cases ran

theorem followAll_keeps (keeps : Keeps t t') {spot next : Spot} {pieces : List (List Char)}
    (ran : t.followAll spot pieces = .ok next) (last : t.at? next = some .directory) :
    t'.followAll spot pieces = .ok next := by
  induction pieces generalizing spot with
  | nil => exact ran
  | cons piece pieces ih =>
    rw [followAll, List.foldlM_cons] at ran ⊢
    obtain ⟨middle, one, rest⟩ := bind_ok ran
    have directory : t.at? middle = some .directory :=
      followAll_directory rest last List.nil_prefix
    rw [follow_keeps keeps one directory]
    exact ih rest

theorem findParent_keeps (keeps : Keeps t t') {path : String} {found : Spot × List Char}
    (parent : t.findParent path = .ok found) : t'.findParent path = .ok found := by
  unfold findParent at parent ⊢
  obtain ⟨pieces, divided, parent⟩ := bind_ok parent
  obtain ⟨above, walked, parent⟩ := bind_ok parent
  split at parent
  · next directory =>
    have start : t'.start path = t.start path := by rw [Tree.start, Tree.start, keeps.current]
    have again := followAll_keeps keeps walked directory
    rw [← start] at again
    simp only [divided, again, keeps.directories above directory, bind, Except.bind]
    exact parent
  · cases parent
  · cases parent

/-! ### Places in a directory -/

theorem followAll_last {spot : Spot} {pieces : List (List Char)} (nonempty : pieces ≠ []) :
    t.followAll spot pieces = (do
      let above ← t.followAll spot pieces.dropLast
      t.follow above (pieces.getLastD [])) := by
  obtain rfl | ⟨front, piece, rfl⟩ := List.eq_nil_or_concat' pieces
  · exact absurd rfl nonempty
  · rw [List.dropLast_concat, List.getLastD_concat, followAll, List.foldlM_append]
    refine bind_congr fun above => ?_
    rw [List.foldlM_cons]
    exact bind_pure _

theorem find_of_findParent {path : String} {spot : Spot} {piece : List Char}
    (parent : t.findParent path = .ok (spot, piece)) : t.find path = t.follow spot piece := by
  unfold findParent at parent
  obtain ⟨pieces, divided, parent⟩ := bind_ok parent
  obtain ⟨above, walked, parent⟩ := bind_ok parent
  split at parent
  · cases parent
    have nonempty : pieces ≠ [] := wholePieces_ok divided ▸ List.splitOn_ne_nil '/' path.toList
    unfold find
    rw [divided]
    refine (followAll_last nonempty).trans ?_
    rw [walked]
    rfl
  · cases parent
  · cases parent

/-- A path that names a place in a directory, whether something stands there or not. -/
def NamesPlace (t : Tree) (path : String) : Prop :=
  ∃ spot piece, t.findParent path = .ok (spot, piece) ∧ Path.isIdle piece = false ∧
    piece ≠ ['.', '.'] ∧ isTooLong piece = false

theorem NamesPlace.keeps {path : String} (names : t.NamesPlace path) (keeps : Keeps t t') :
    t'.NamesPlace path := by
  obtain ⟨spot, piece, parent, name⟩ := names
  exact ⟨spot, piece, findParent_keeps keeps parent, name⟩

theorem NamesPlace.find {path : String} (names : t.NamesPlace path) :
    t.find path =
      if (t.at? (t.landing path)).isSome then .ok (t.landing path) else .error .notFound := by
  obtain ⟨spot, piece, parent, busy, down, short⟩ := names
  obtain ⟨lands, directory⟩ := findParent_ok parent
  rw [advance, busy, if_neg Bool.false_ne_true, if_neg down] at lands
  rw [find_of_findParent parent, follow, directory, busy, short, ← lands]
  simp [down]

theorem writeText_namesPlace {path contents : String} (ran : t.writeText path contents = .ok t') :
    t.NamesPlace path := by
  unfold writeText at ran
  obtain ⟨⟨spot, piece⟩, parent, rest⟩ := bind_ok ran
  dsimp only at rest
  split at rest
  · cases rest
  · next short =>
    split at rest
    · cases rest
    · next free =>
      simp only [not_or] at free
      exact ⟨spot, piece, parent, by simpa using free.1, free.2.1, by simpa using short⟩

theorem at?_dropLast {spot : Spot} (directory : t.at? spot = some .directory) :
    t.at? spot.dropLast = some .directory := by
  obtain rfl | ⟨upper, name, rfl⟩ := List.eq_nil_or_concat' spot
  · exact directory
  · rw [List.dropLast_concat]
    exact at?_parent directory

theorem follow_file {spot next : Spot} {piece : List Char} {data : ByteArray}
    (ran : t.follow spot piece = .ok next) (file : t.at? next = some (.file data)) :
    Path.isIdle piece = false ∧ piece ≠ ['.', '.'] ∧ isTooLong piece = false := by
  have directory := follow_directory ran
  unfold follow at ran
  rw [directory] at ran
  dsimp only at ran
  split at ran
  · cases ran
    rw [directory] at file
    cases file
  · next busy =>
    split at ran
    · cases ran
      rw [at?_dropLast directory] at file
      cases file
    · next down =>
      split at ran
      · cases ran
      · next short => exact ⟨by simpa using busy, down, by simpa using short⟩

theorem removeFile_namesPlace {path : String} (ran : t.removeFile path = .ok t') :
    t.NamesPlace path := by
  unfold removeFile find at ran
  obtain ⟨spot, found, ran⟩ := bind_ok ran
  obtain ⟨pieces, divided, walked⟩ := bind_ok found
  have nonempty : pieces ≠ [] := wholePieces_ok divided ▸ List.splitOn_ne_nil '/' path.toList
  rw [followAll_last nonempty] at walked
  obtain ⟨above, upper, one⟩ := bind_ok walked
  split at ran
  · next file =>
    refine ⟨above, pieces.getLastD [], ?_, follow_file one file⟩
    simp only [findParent, divided, upper, follow_directory one, bind, Except.bind]
    rfl
  · cases ran
  · cases ran

/-! ### Reading -/

theorem fromUTF8?_eq_some_iff {data : ByteArray} {text : String} :
    String.fromUTF8? data = some text ↔ data = text.toUTF8 := by
  unfold String.fromUTF8?
  split
  · next valid =>
    rw [Option.some.injEq, ← String.toByteArray_inj]
    rfl
  · next invalid =>
    refine ⟨nofun, fun same => ?_⟩
    rw [same] at invalid
    exact absurd text.isValidUTF8 invalid

theorem NamesPlace.readText_iff {path text : String} (names : t.NamesPlace path) :
    t.readText path = .ok text ↔ t.at? (t.landing path) = some (.file text.toUTF8) := by
  unfold readText
  rw [names.find]
  cases stands : t.at? (t.landing path) with
  | none => simp [bind, Except.bind]
  | some entry =>
    cases entry with
    | directory => simp [bind, Except.bind, stands]
    | file data =>
      simp only [Option.isSome_some, if_pos, bind, Except.bind, stands, Option.some.injEq,
        Entry.file.injEq, ← fromUTF8?_eq_some_iff]
      cases String.fromUTF8? data <;> simp

theorem NamesPlace.isFile_iff {path : String} (names : t.NamesPlace path) :
    t.isFile path = true ↔ ∃ data, t.at? (t.landing path) = some (.file data) := by
  unfold isFile
  rw [names.find]
  cases stands : t.at? (t.landing path) with
  | none => simp
  | some entry => cases entry <;> simp [stands]

theorem NamesPlace.isDirectory_iff {path : String} (names : t.NamesPlace path) :
    t.isDirectory path = true ↔ t.at? (t.landing path) = some .directory := by
  unfold isDirectory
  rw [names.find]
  cases stands : t.at? (t.landing path) with
  | none => simp
  | some entry => cases entry <;> simp [stands, Entry.isDirectory]

end PolicyMend.Disk.Tree
