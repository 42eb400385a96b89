import PolicyMend.Disk.Tree
import PolicyMend.Proofs.Basic
import PolicyMend.Proofs.PathPieces

/-!
What a change of a disk does to what stands on it. Every path lands on one location, whatever stands
there; a write or a removal that succeeds changes that location and no other, and creating
directories fills empty locations on the way of the path.
-/

namespace PolicyMend.Disk

-- The instance for bytes is named because the libraries have more than one.
instance : DecidableEq Entry
  | .file a, .file b =>
    @decidable_of_iff _ (a = b) ⟨congrArg Entry.file, Entry.file.inj⟩
      (ByteArray.instDecidableEq a b)
  | .file _, .directory => isFalse nofun
  | .directory, .file _ => isFalse nofun
  | .directory, .directory => isTrue rfl

namespace Node

/-- An entry that is put in a directory, over nothing or a file, is seen there and changes nothing
else. -/
theorem at?_put {node : Node} {parent : Spot} {children : List (String × Node)}
    (directory : node.at? parent = some (.directory children)) {name : String}
    (free : ∀ kids, node.at? (parent ++ [name]) ≠ some (.directory kids)) (entry : Entry)
    (spot : Spot) :
    ((node.put entry (parent ++ [name])).at? spot).map Node.entry =
      if spot = parent ++ [name] then some entry else (node.at? spot).map Node.entry := by
  induction parent generalizing node spot with
  | nil =>
    obtain rfl := Option.some.inj directory
    cases spot with
    | nil => rfl
    | cons other spot =>
      simp only [List.nil_append, put, at?, child?, OrderedMap.lookup_put] at free ⊢
      by_cases same : other = name
      · subst same
        -- Nothing is below the place before, and nothing after.
        cases found : OrderedMap.lookup other children with
        | none =>
          cases spot <;> cases entry <;>
            simp [become, at?, child?, OrderedMap.lookup, Node.entry]
        | some child =>
          cases child with
          | file data => cases spot <;> cases entry <;>
              simp [become, at?, child?, OrderedMap.lookup, Node.entry]
          | directory kids => exact absurd (by rw [found]; rfl) (free kids)
      · simp [same]
  | cons upper parent ih =>
    cases node with
    | file data => cases directory
    | directory kids =>
      simp only [at?, child?] at directory
      obtain ⟨child, found, below⟩ := Option.bind_eq_some_iff.mp directory
      cases spot with
      | nil => rfl
      | cons other spot =>
        simp only [List.cons_append, put, at?, child?, OrderedMap.lookup_put, found,
          Option.getD_some, Option.bind_some] at free ⊢
        by_cases same : other = upper
        · subst same
          simp only [if_pos, found, Option.bind_some, ih below free spot, List.cons.injEq, true_and]
        · simp [same]

theorem at?_erase {node : Node} {gone : Spot} {dropped : ByteArray}
    (file : node.at? gone = some (.file dropped)) (below : gone ≠ []) (spot : Spot) :
    ((node.erase gone).at? spot).map Node.entry =
      if spot = gone then none else (node.at? spot).map Node.entry := by
  induction gone generalizing node spot with
  | nil => exact absurd rfl below
  | cons name gone ih =>
    cases node with
    | file _ => cases file
    | directory children =>
      simp only [at?, child?] at file
      obtain ⟨child, found, target⟩ := Option.bind_eq_some_iff.mp file
      cases spot with
      | nil => cases gone <;> simp [erase, found, Node.entry]
      | cons other spot =>
        cases gone with
        | nil =>
          -- What goes is a file, so nothing is below it.
          obtain rfl := Option.some.inj target
          simp only [erase, at?, child?, OrderedMap.lookup_drop]
          by_cases same : other = name
          · subst same
            cases spot <;> simp [found, at?, child?]
          · simp [same]
        | cons next gone =>
          simp only [erase, found, at?, child?, OrderedMap.lookup_put]
          by_cases same : other = name
          · subst same
            simp only [if_pos, found, Option.bind_some, ih target (by simp) spot, List.cons.injEq,
              true_and]
          · simp [same]

end Node

namespace Tree

theorem at?_eq_file_iff {t : Tree} {spot : Spot} {data : ByteArray} :
    t.at? spot = some (.file data) ↔ t.root.at? spot = some (.file data) := by
  unfold at?
  cases t.root.at? spot with
  | none => simp
  | some node => cases node <;> simp [Node.entry]

theorem at?_eq_directory_iff {t : Tree} {spot : Spot} :
    t.at? spot = some .directory ↔ ∃ children, t.root.at? spot = some (.directory children) := by
  unfold at?
  cases t.root.at? spot with
  | none => simp
  | some node => cases node <;> simp [Node.entry]

def file? (t : Tree) (spot : Spot) : Option ByteArray :=
  match t.at? spot with
  | some (.file data) => some data
  | _ => none

theorem file?_eq_some_iff {t : Tree} {spot : Spot} {data : ByteArray} :
    t.file? spot = some data ↔ t.at? spot = some (.file data) := by
  unfold file?
  cases t.at? spot with
  | none => simp
  | some entry => cases entry <;> simp

/-! ### Where a path lands -/

def advance (spot : Spot) (piece : List Char) : Spot :=
  if Path.isIdle piece then spot
  else if piece = ['.', '.'] then spot.dropLast
  else spot ++ [String.ofList piece]

/-- The location that a path names if it names one. -/
def landing (t : Tree) (path : String) : Spot :=
  (path.toList.splitOn '/').foldl advance (t.start path)

theorem landing_congr {t t' : Tree} (same : t'.current = t.current) (path : String) :
    t'.landing path = t.landing path := by
  unfold landing start
  rw [same]

theorem foldl_advance_counting (pieces : List (List Char)) (spot : Spot) :
    (Path.counting pieces).foldl advance spot = pieces.foldl advance spot := by
  induction pieces generalizing spot with
  | nil => rfl
  | cons piece pieces ih =>
    by_cases idle : Path.isIdle piece = true
    · rw [Path.counting_cons_of_idle idle, List.foldl_cons, advance, if_pos idle, ih]
    · rw [Path.counting, List.filter_cons_of_pos (by simpa using idle)]
      exact ih (advance spot piece)

theorem follow_ok {t : Tree} {spot next : Spot} {piece : List Char}
    (ran : t.follow spot piece = .ok next) : next = advance spot piece := by
  unfold follow at ran
  unfold advance
  split at ran
  · cases ran
  · cases ran
  · split at ran
    · next idle => rw [if_pos idle]; cases ran; rfl
    · next busy =>
      rw [if_neg busy]
      split at ran
      · next up => rw [if_pos up]; cases ran; rfl
      · next down =>
        rw [if_neg down]
        split at ran
        · cases ran
        · dsimp only at ran
          split at ran
          · cases ran; rfl
          · cases ran

theorem follow_directory {t : Tree} {spot next : Spot} {piece : List Char}
    (ran : t.follow spot piece = .ok next) : t.at? spot = some .directory := by
  unfold follow at ran
  split at ran
  · cases ran
  · cases ran
  · next directory => exact directory

theorem followAll_ok {t : Tree} {spot next : Spot} {pieces : List (List Char)}
    (ran : t.followAll spot pieces = .ok next) : next = pieces.foldl advance spot := by
  unfold followAll at ran
  induction pieces generalizing spot with
  | nil => cases ran; rfl
  | cons piece pieces ih =>
    rw [List.foldlM_cons] at ran
    obtain ⟨middle, first, rest⟩ := bind_ok ran
    obtain rfl := follow_ok first
    exact ih rest

theorem wholePieces_ok {path : String} {found : List (List Char)}
    (ran : wholePieces path = .ok found) : found = path.toList.splitOn '/' := by
  unfold wholePieces at ran
  obtain ⟨all, split, rest⟩ := bind_ok ran
  split at rest
  · cases rest
  · cases rest
    unfold pieces at split
    split at split
    · cases split
    · split at split
      · cases split
      · cases split
        rfl

theorem find_ok {t : Tree} {path : String} {spot : Spot} (ran : t.find path = .ok spot) :
    spot = t.landing path := by
  unfold find at ran
  obtain ⟨found, whole, walked⟩ := bind_ok ran
  obtain rfl := wholePieces_ok whole
  exact followAll_ok walked

theorem findParent_ok {t : Tree} {path : String} {spot : Spot} {piece : List Char}
    (ran : t.findParent path = .ok (spot, piece)) :
    advance spot piece = t.landing path ∧ t.at? spot = some .directory := by
  unfold findParent at ran
  obtain ⟨found, whole, rest⟩ := bind_ok ran
  obtain ⟨parent, walked, rest⟩ := bind_ok rest
  obtain rfl := wholePieces_ok whole
  split at rest
  · next directory =>
    cases rest
    refine ⟨?_, directory⟩
    have some := List.splitOn_ne_nil '/' path.toList
    rw [followAll_ok walked, landing]
    generalize path.toList.splitOn '/' = pieces at some
    have last : pieces.getLastD [] = pieces.getLast some := by
      rw [List.getLastD_eq_getLast?, List.getLast?_eq_some_getLast some, Option.getD_some]
    calc advance (pieces.dropLast.foldl advance (t.start path)) (pieces.getLastD [])
        = (pieces.dropLast ++ [pieces.getLast some]).foldl advance (t.start path) := by
          rw [List.foldl_append, last]
          rfl
      _ = pieces.foldl advance (t.start path) := by
          rw [List.dropLast_concat_getLast some]
  · cases rest
  · cases rest

/-! ### On the way -/

/-- Whether a path is at a location before its last piece. -/
def Passes (t : Tree) (path : String) (spot : Spot) : Prop :=
  ∃ front, front <+: Path.counting (path.toList.splitOn '/').dropLast ∧
    front.foldl advance (t.start path) = spot

def Visits (t : Tree) (path : String) (spot : Spot) : Prop :=
  ∃ front, front <+: Path.counting (path.toList.splitOn '/') ∧
    front.foldl advance (t.start path) = spot

theorem passes_congr {t t' : Tree} (same : t'.current = t.current) {path : String} {spot : Spot} :
    t'.Passes path spot ↔ t.Passes path spot := by
  unfold Passes start
  rw [same]

theorem visits_congr {t t' : Tree} (same : t'.current = t.current) {path : String} {spot : Spot} :
    t'.Visits path spot ↔ t.Visits path spot := by
  unfold Visits start
  rw [same]

theorem visits_landing (t : Tree) (path : String) : t.Visits path (t.landing path) :=
  ⟨_, List.prefix_rfl, foldl_advance_counting _ _⟩

theorem Passes.visits {t : Tree} {path : String} {spot : Spot} (passes : t.Passes path spot) :
    t.Visits path spot := by
  obtain ⟨front, first, lands⟩ := passes
  exact ⟨front, first.trans ((List.dropLast_prefix _).filter _), lands⟩

/-- On the way to the parent of a path, one is on the way of the path. -/
theorem Visits.passes_of_parent {t : Tree} {path parent : String} {spot : Spot}
    (found : Path.parent? path = some parent) (visits : t.Visits parent spot) :
    t.Passes path spot := by
  obtain ⟨absolute, above⟩ := Path.parent?_spec found
  obtain ⟨front, first, lands⟩ := visits
  refine ⟨front, first.trans above, ?_⟩
  rw [← lands, start, start, absolute]

/-! ### One location -/

theorem at?_put {t : Tree} {parent : Spot} {name : String}
    (directory : t.at? parent = some .directory)
    (free : t.at? (parent ++ [name]) ≠ some .directory) (entry : Entry) (spot : Spot) :
    (t.put (parent ++ [name]) entry).at? spot =
      if spot = parent ++ [name] then some entry else t.at? spot := by
  obtain ⟨children, found⟩ := at?_eq_directory_iff.mp directory
  refine Node.at?_put found (fun kids taken => ?_) entry spot
  exact free (at?_eq_directory_iff.mpr ⟨kids, taken⟩)

theorem at?_erase {t : Tree} {gone : Spot} {dropped : ByteArray}
    (file : t.at? gone = some (.file dropped)) (below : gone ≠ []) (spot : Spot) :
    (t.erase gone).at? spot = if spot = gone then none else t.at? spot :=
  Node.at?_erase (at?_eq_file_iff.mp file) below spot

theorem at?_parent {t : Tree} {parent : Spot} {name : String} {entry : Entry}
    (found : t.at? (parent ++ [name]) = some entry) : t.at? parent = some .directory := by
  obtain ⟨node, below, -⟩ := Option.map_eq_some_iff.mp found
  rw [Node.at?_append] at below
  obtain ⟨above, here, inside⟩ := Option.bind_eq_some_iff.mp below
  cases above with
  | file data => cases inside
  | directory children => exact at?_eq_directory_iff.mpr ⟨children, here⟩

theorem at?_root {t : Tree} {spot : Spot} (found : t.at? spot = some .directory) :
    t.at? [] = some .directory := by
  cases spot with
  | nil => exact found
  | cons name spot =>
    obtain ⟨children, below⟩ := at?_eq_directory_iff.mp found
    cases root : t.root with
    | file data =>
      rw [root] at below
      cases below
    | directory kids => simp [at?, root, Node.entry]

theorem followAll_root {t : Tree} {spot next : Spot} {pieces : List (List Char)}
    (ran : t.followAll spot pieces = .ok next) (nonempty : pieces ≠ []) :
    t.at? [] = some .directory := by
  cases pieces with
  | nil => exact absurd rfl nonempty
  | cons piece pieces =>
    rw [followAll, List.foldlM_cons] at ran
    obtain ⟨middle, first, -⟩ := bind_ok ran
    exact at?_root (follow_directory first)

/-! ### Writing and removing -/

theorem writeText_ok {t t' : Tree} {path contents : String}
    (ran : t.writeText path contents = .ok t') :
    ∃ spot name, t.landing path = spot ++ [name] ∧ t.at? spot = some .directory ∧
      t.at? (t.landing path) ≠ some .directory ∧
      t' = t.put (t.landing path) (.file contents.toUTF8) := by
  unfold writeText at ran
  obtain ⟨⟨spot, piece⟩, parent, rest⟩ := bind_ok ran
  obtain ⟨lands, directory⟩ := findParent_ok parent
  dsimp only at rest
  split at rest
  · cases rest
  · split at rest
    · cases rest
    · next free =>
      cases rest
      simp only [not_or] at free
      obtain ⟨busy, down, vacant⟩ := free
      rw [advance, if_neg busy, if_neg down] at lands
      refine ⟨spot, String.ofList piece, lands.symm, directory, ?_, by rw [← lands]⟩
      intro taken
      rw [← lands] at taken
      rw [taken] at vacant
      exact vacant rfl

theorem removeFile_ok {t t' : Tree} {path : String} (ran : t.removeFile path = .ok t') :
    ∃ data, t.at? (t.landing path) = some (.file data) ∧ t.landing path ≠ [] ∧
      t' = t.erase (t.landing path) := by
  unfold removeFile at ran
  obtain ⟨spot, found, rest⟩ := bind_ok ran
  have root : t.at? [] = some .directory := by
    unfold find at found
    obtain ⟨pieces, whole, walked⟩ := bind_ok found
    obtain rfl := wholePieces_ok whole
    exact followAll_root walked (List.splitOn_ne_nil '/' path.toList)
  obtain rfl := find_ok found
  split at rest
  · next data file =>
    cases rest
    refine ⟨data, file, fun top => ?_, rfl⟩
    rw [top, root] at file
    cases file
  · cases rest
  · cases rest

theorem writeText_at? {t t' : Tree} {path contents : String}
    (ran : t.writeText path contents = .ok t') :
    t'.current = t.current ∧ ∀ spot, t'.at? spot =
      if spot = t.landing path then some (.file contents.toUTF8) else t.at? spot := by
  obtain ⟨parent, name, lands, directory, vacant, rfl⟩ := writeText_ok ran
  rw [lands] at vacant ⊢
  exact ⟨rfl, at?_put directory vacant _⟩

theorem removeFile_at? {t t' : Tree} {path : String} (ran : t.removeFile path = .ok t') :
    t'.current = t.current ∧
      ∀ spot, t'.at? spot = if spot = t.landing path then none else t.at? spot := by
  obtain ⟨dropped, file, below, rfl⟩ := removeFile_ok ran
  exact ⟨rfl, at?_erase file below⟩

theorem writeText_file? {t t' : Tree} {path contents : String}
    (ran : t.writeText path contents = .ok t') (spot : Spot) :
    t'.file? spot = if t.landing path = spot then some contents.toUTF8 else t.file? spot := by
  unfold file?
  rw [(writeText_at? ran).2 spot]
  by_cases here : t.landing path = spot
  · rw [if_pos here.symm, if_pos here]
  · rw [if_neg (Ne.symm here), if_neg here]

theorem writeText_directory_iff {t t' : Tree} {path contents : String}
    (ran : t.writeText path contents = .ok t') {spot : Spot} :
    t'.at? spot = some .directory ↔ t.at? spot = some .directory := by
  obtain ⟨-, -, -, -, vacant, -⟩ := writeText_ok ran
  rw [(writeText_at? ran).2 spot]
  split
  · next here => simp [here, vacant]
  · rfl

theorem removeFile_file? {t t' : Tree} {path : String} (ran : t.removeFile path = .ok t')
    (spot : Spot) : t'.file? spot = if t.landing path = spot then none else t.file? spot := by
  unfold file?
  rw [(removeFile_at? ran).2 spot]
  by_cases here : t.landing path = spot
  · rw [if_pos here.symm, if_pos here]
  · rw [if_neg (Ne.symm here), if_neg here]

theorem removeFile_directory_iff {t t' : Tree} {path : String} (ran : t.removeFile path = .ok t')
    {spot : Spot} : t'.at? spot = some .directory ↔ t.at? spot = some .directory := by
  obtain ⟨data, file, -, -⟩ := removeFile_ok ran
  rw [(removeFile_at? ran).2 spot]
  split
  · next here => simp [here, file]
  · rfl

/-! ### Creating directories -/

theorem foldl_advance_trim (cs : List Char) (spot : Spot) :
    ((cs.reverse.dropWhile (· = '/')).reverse.splitOn '/').foldl advance spot =
      (cs.splitOn '/').foldl advance spot := by
  induction cs using List.reverseRecOn with
  | nil => rfl
  | append_singleton cs c ih =>
    rw [List.reverse_append, List.reverse_singleton, List.singleton_append]
    by_cases slash : c = '/'
    · subst slash
      rw [List.dropWhile_cons_of_pos (by simp), ih, List.splitOn_append_cons_self,
        List.foldl_append]
      rfl
    · rw [List.dropWhile_cons_of_neg (by simpa using slash), List.reverse_cons,
        List.reverse_reverse]

theorem landing_trim {t : Tree} {path : String} {trimmed : List Char}
    (trim : trimmed = (path.toList.reverse.dropWhile (· = '/')).reverse) (nonempty : trimmed ≠ []) :
    t.landing (String.ofList trimmed) = t.landing path := by
  have front : trimmed <+: path.toList := trim ▸ List.rdropWhile_prefix _ _
  have start : t.start (String.ofList trimmed) = t.start path := by
    obtain ⟨rest, whole⟩ := front
    cases trimmed with
    | nil => exact absurd rfl nonempty
    | cons c trimmed => simp [Tree.start, Path.isAbsolute, ← whole]
  rw [landing, landing, start, String.toList_ofList, trim, foldl_advance_trim]

theorem createDir_at? {t t' : Tree} {path : String} (ran : t.createDir path = .ok t') :
    t'.current = t.current ∧ t.at? (t.landing path) = none ∧
      ∀ spot, t'.at? spot = if spot = t.landing path then some .directory else t.at? spot := by
  unfold createDir at ran
  dsimp only at ran
  split at ran
  · cases ran
  · next nonempty =>
    have lands := @landing_trim t path _ rfl (by simpa using nonempty)
    obtain ⟨⟨spot, piece⟩, parent, rest⟩ := bind_ok ran
    obtain ⟨ends, directory⟩ := findParent_ok parent
    rw [lands] at ends
    dsimp only at rest
    split at rest
    · cases rest
    · split at rest
      · cases rest
      · next free =>
        cases rest
        simp only [not_or] at free
        obtain ⟨busy, down, vacant⟩ := free
        rw [advance, if_neg busy, if_neg down] at ends
        have empty : t.at? (spot ++ [String.ofList piece]) = none := by
          simpa using vacant
        rw [← ends]
        exact ⟨rfl, empty, at?_put directory (by rw [empty]; simp) _⟩

/-- A tree that differs from another one by directories, at some of the locations given. -/
structure Grows (places : Spot → Prop) (t t' : Tree) : Prop where
  current : t'.current = t.current
  at? : ∀ spot, t'.at? spot = t.at? spot ∨
    t.at? spot = none ∧ t'.at? spot = some .directory ∧ places spot

theorem Grows.refl (places : Spot → Prop) (t : Tree) : Grows places t t := ⟨rfl, fun _ => .inl rfl⟩

theorem Grows.trans {places : Spot → Prop} {t t' t'' : Tree} (first : Grows places t t')
    (second : Grows places t' t'') : Grows places t t'' where
  current := second.current.trans first.current
  at? spot := by
    rcases second.at? spot with same | ⟨empty, made, place⟩
    · rw [same]
      exact first.at? spot
    · rcases first.at? spot with same | ⟨-, made', -⟩
      · exact .inr ⟨same ▸ empty, made, place⟩
      · rw [made'] at empty
        cases empty

theorem Grows.mono {places more : Spot → Prop} {t t' : Tree} (grows : Grows places t t')
    (weaker : ∀ spot, places spot → more spot) : Grows more t t' where
  current := grows.current
  at? spot := (grows.at? spot).imp_right fun ⟨empty, made, place⟩ =>
    ⟨empty, made, weaker spot place⟩

theorem Grows.file? {places : Spot → Prop} {t t' : Tree} (grows : Grows places t t') (spot : Spot) :
    t'.file? spot = t.file? spot := by
  unfold Tree.file?
  rcases grows.at? spot with same | ⟨empty, made, -⟩
  · rw [same]
  · rw [empty, made]

theorem createDir_grows {t t' : Tree} {path : String} (ran : t.createDir path = .ok t') :
    Grows (t.Visits path) t t' := by
  obtain ⟨current, empty, at?⟩ := createDir_at? ran
  refine ⟨current, fun spot => ?_⟩
  rw [at? spot]
  split
  · next here => exact .inr ⟨here ▸ empty, rfl, here ▸ t.visits_landing path⟩
  · exact .inl rfl

theorem createDirsUp_grows (fuel : Nat) (t : Tree) (path : String) :
    Grows (t.Visits path) t (createDirsUp fuel t path).2 := by
  induction fuel generalizing path with
  | zero => exact Grows.refl _ t
  | succ fuel ih =>
    unfold createDirsUp
    split
    · exact Grows.refl _ t
    · split
      · next made created => exact createDir_grows created
      · split
        · exact Grows.refl _ t
        · split
          · exact Grows.refl _ t
          · next parent found =>
            have above : Grows (t.Visits path) t (createDirsUp fuel t parent).2 :=
              (ih parent).mono fun _ visits => (visits.passes_of_parent found).visits
            split
            · next failed => rw [failed] at above; exact above
            · next made =>
              rw [made] at above
              split
              · next created =>
                refine above.trans ((createDir_grows created).mono fun _ visits => ?_)
                exact (visits_congr above.current).mp visits
              · exact above

end Tree

end PolicyMend.Disk
