import PolicyMend.Proofs.PathJoins

/-!
Where a package sends its files. The directories of a package are its segments, and a quoted segment
may be any text without a quote: one that starts at the root replaces the way so far, and one may go
up. Main statement: a file stays below the project root if no directory starts at the root and none
has a piece `..`, and else it may leave it.
-/

namespace PolicyMend.Path

/-- A path that goes on from another one and never up from there. -/
def Below (path root : String) : Prop :=
  ∃ rest, components path = components root ++ rest ∧ .parent ∉ rest

theorem below_iff {path root : String} {rest : List Component}
    (split : components path = components root ++ rest) : Below path root ↔ .parent ∉ rest := by
  constructor
  · rintro ⟨rest', split', down⟩
    rw [split, List.append_cancel_left_eq] at split'
    exact split' ▸ down
  · exact fun down => ⟨rest, split, down⟩

def startsAtRoot (dir : List Char) : Bool := dir.head? = some '/'

theorem isAbsolute_ofList (dir : List Char) :
    isAbsolute (String.ofList dir) = startsAtRoot dir := by
  rw [isAbsolute, startsAtRoot, String.toList_ofList]

def descend (base : String) (dirs : List (List Char)) : String :=
  dirs.foldl (fun path dir => join path (String.ofList dir)) base

theorem join_of_startsAtRoot {dir : List Char} (absolute : startsAtRoot dir = true)
    (base : String) : join base (String.ofList dir) = String.ofList dir := by
  rw [join, isAbsolute_ofList, absolute, Bool.true_or, if_pos rfl]

theorem join_ne_empty {base other : String} (filled : other ≠ "") : join base other ≠ "" := by
  unfold join
  split
  · exact filled
  · split
    · simp [filled]
    · simp

theorem components_descend {dirs : List (List Char)} {base : String} (nonempty : base ≠ "")
    (relative : ∀ dir ∈ dirs, startsAtRoot dir = false) (filled : ∀ dir ∈ dirs, dir ≠ []) :
    components (descend base dirs) = components base ++ dirs.flatMap named := by
  induction dirs generalizing base with
  | nil => simp [descend]
  | cons dir dirs ih =>
    have first := relative dir List.mem_cons_self
    have text : String.ofList dir ≠ "" := by simpa using filled dir List.mem_cons_self
    have next := ih (@join_ne_empty base _ text)
      (fun other member => relative other (List.mem_cons_of_mem dir member))
      (fun other member => filled other (List.mem_cons_of_mem dir member))
    show components (descend (join base (String.ofList dir)) dirs) = _
    rw [next, components_join nonempty (by rw [isAbsolute_ofList, first]), String.toList_ofList,
      List.flatMap_cons, List.append_assoc]

/-- A path with the components of a base and those of the directories, if the first of them is a
name where the base is empty. -/
theorem components_descend_name {dirs : List (List Char)} (base : String)
    (first : ∀ dir ∈ dirs.head?, IsName dir)
    (relative : ∀ dir ∈ dirs, startsAtRoot dir = false) (filled : ∀ dir ∈ dirs, dir ≠ []) :
    components (descend base dirs) = components base ++ dirs.flatMap named := by
  by_cases empty : base = ""
  · subst empty
    cases dirs with
    | nil => rfl
    | cons dir dirs =>
      have isName := first dir rfl
      have named' : components (join "" (String.ofList dir)) = [.name dir] := by
        rw [components_join_name "" (by rw [String.toList_ofList]; exact isName),
          String.toList_ofList]
        rfl
      have text : String.ofList dir ≠ "" := by simpa using filled dir List.mem_cons_self
      have rest := components_descend (@join_ne_empty "" _ text)
        (fun other member => relative other (List.mem_cons_of_mem dir member))
        (fun other member => filled other (List.mem_cons_of_mem dir member))
      show components (descend (join "" (String.ofList dir)) dirs) = _
      rw [rest, named', List.flatMap_cons, isName.named]
      rfl
  · exact components_descend empty relative filled

theorem parent_mem_named {dir : List Char} :
    .parent ∈ named dir ↔ ['.', '.'] ∈ dir.splitOn '/' := by
  rw [named, List.mem_map]
  constructor
  · rintro ⟨piece, counted, up⟩
    unfold pieceComponent at up
    split at up
    · next same => exact same ▸ (List.mem_filter.mp counted).1
    · cases up
  · intro member
    exact ⟨['.', '.'], List.mem_filter.mpr ⟨member, rfl⟩, rfl⟩

/-- A directory that starts at the root makes the way before it forgotten. -/
theorem descend_append_of_startsAtRoot {dir : List Char} (absolute : startsAtRoot dir = true)
    (base : String) (before after : List (List Char)) :
    descend base (before ++ dir :: after) = descend (String.ofList dir) after := by
  simp only [descend, List.foldl_append, List.foldl_cons, join_of_startsAtRoot absolute]

end PolicyMend.Path

namespace PolicyMend.Package

open PolicyMend.Path (Below IsName descend startsAtRoot)

/-! ### Segments

What the scanner reads off the text of a reference are the parts that were captured: the names of
its runs and its keys. -/

def runNames (run : List Char) : List (List Char) := (run.splitOn '.').filter (· ≠ [])

/-- The names and keys of a reference, in order. -/
def Reference.segments (r : Reference) : List (List Char) :=
  runNames (r.start :: r.run) ++ r.keys.flatMap fun k => k.key :: runNames k.run

theorem flush_of_ne_nil {current : List Char} (filled : current ≠ []) :
    flush current = [current] := if_neg filled

theorem runNames_of_not_mem {current : List Char} (whole : '.' ∉ current) :
    runNames current = flush current := by
  rw [runNames, List.splitOn_eq_singleton whole, flush]
  split
  · next empty => simp [empty]
  · next filled => simp [filled]

theorem runNames_append_dot (run name : List Char) :
    runNames (run ++ '.' :: name) = runNames run ++ runNames name := by
  rw [runNames, List.splitOn_append_cons_self, List.filter_append]
  rfl

theorem scanSegments_char {c : Char} (plain : c ≠ '.' ∧ c ≠ '[') (current rest : List Char) :
    scanSegments current (c :: rest) = scanSegments (current ++ [c]) rest :=
  scanSegments.eq_4 current c rest plain.1 fun _ bracket => absurd bracket plain.2

theorem scanSegments_word {word : List Char} (plain : ∀ c ∈ word, c ≠ '.' ∧ c ≠ '[')
    (current rest : List Char) :
    scanSegments current (word ++ rest) = scanSegments (current ++ word) rest := by
  induction word generalizing current with
  | nil => rw [List.nil_append, List.append_nil]
  | cons c word ih =>
    rw [List.cons_append, scanSegments_char (plain c List.mem_cons_self),
      ih fun other member => plain other (List.mem_cons_of_mem c member), List.append_assoc]
    rfl

theorem scanSegments_quoted {key : List Char} (whole : '"' ∉ key) (current rest : List Char) :
    scanSegments current ('[' :: '"' :: (key ++ '"' :: ']' :: rest)) =
      flush current ++ key :: scanSegments [] rest := by
  rw [scanSegments, Text.takeWhile_ne_append whole, Text.dropWhile_ne_append whole]
  rfl

theorem ne_bracket_of_isRunChar {c : Char} (dotted : isRunChar c = true) : c ≠ '[' :=
  ne_of_apply_ne isRunChar (by rw [dotted]; decide +kernel)

theorem ne_of_isWordStart {c d : Char} (starts : Text.isWordStart c = true)
    (other : Text.isWordStart d = false) : c ≠ d :=
  ne_of_apply_ne Text.isWordStart (by simp [starts, other])

/-- A run is read name by name, where a segment that was begun goes on in the first of them and the
last one is ended by what follows. -/
theorem scanSegments_run {run current rest : List Char} {after : List (List Char)}
    (dotted : ∀ c ∈ run, isRunChar c = true) (whole : '.' ∉ current)
    (ends : ∀ current, scanSegments current rest = flush current ++ after) :
    scanSegments current (run ++ rest) = runNames (current ++ run) ++ after := by
  induction run generalizing current with
  | nil => rw [List.nil_append, List.append_nil, ends, runNames_of_not_mem whole]
  | cons c run ih =>
    have later := fun other member => dotted other (List.mem_cons_of_mem c member)
    by_cases dot : c = '.'
    · subst dot
      rw [List.cons_append, scanSegments, ih later List.not_mem_nil, runNames_append_dot,
        runNames_of_not_mem whole, List.append_assoc]
      rfl
    · have plain := ne_bracket_of_isRunChar (dotted c List.mem_cons_self)
      have whole' : '.' ∉ current ++ [c] := by simp [whole, Ne.symm dot]
      rw [List.cons_append, scanSegments_char ⟨dot, plain⟩, ih later whole', List.append_assoc]
      rfl

theorem scanSegments_keys (current : List Char) (keys : List QuotedKey) :
    scanSegments current (keys.flatMap QuotedKey.text) =
      flush current ++ keys.flatMap fun k => k.key :: runNames k.run := by
  induction keys generalizing current with
  | nil => simp [scanSegments]
  | cons k keys ih =>
    rw [List.flatMap_cons, List.flatMap_cons, QuotedKey.text]
    simp only [List.cons_append, List.append_assoc]
    rw [scanSegments_quoted k.whole, scanSegments_run k.dotted List.not_mem_nil ih]
    rfl

/-- The scanner splits the text of a reference where its parts were captured. -/
theorem scanSegments_text (r : Reference) : scanSegments [] r.text = r.segments := by
  have start : r.start ≠ '.' ∧ r.start ≠ '[' :=
    ⟨ne_of_isWordStart r.starts (by decide), ne_of_isWordStart r.starts (by decide)⟩
  have whole : '.' ∉ [] ++ [r.start] := by simp [start.1.symm]
  rw [Reference.text, scanSegments_char start,
    scanSegments_run r.dotted whole fun current => scanSegments_keys current r.keys]
  rfl

/-! ### Directories -/

/-- A text without separators and dots. -/
def Plain (segment : List Char) : Prop := '/' ∉ segment ∧ '.' ∉ segment

theorem Plain.isName {segment : List Char} (plain : Plain segment) (filled : segment ≠ []) :
    IsName segment where
  whole := plain.1
  counts := by
    have dot : segment ≠ ['.'] := by
      rintro rfl
      exact plain.2 List.mem_cons_self
    simp [Path.isIdle, filled, dot]
  down := by
    rintro rfl
    exact plain.2 List.mem_cons_self

theorem Plain.withoutSuffix {segment : List Char} (plain : Plain segment) :
    Plain (withoutSuffix segment) := by
  unfold Package.withoutSuffix
  split
  · exact ⟨fun member => plain.1 (List.mem_of_mem_take member),
      fun member => plain.2 (List.mem_of_mem_take member)⟩
  · exact plain

theorem plain_of_mem_runNames {run name : List Char} (whole : '/' ∉ run)
    (member : name ∈ runNames run) : Plain name := by
  obtain ⟨undotted, inside⟩ := Text.piece_of_mem_splitOn (List.mem_filter.mp member).1
  exact ⟨fun slash => whole (inside slash), undotted⟩

theorem runNames_ne_nil {c : Char} (name : c ≠ '.') (rest : List Char) :
    runNames (c :: rest) ≠ [] := by
  rw [runNames, List.splitOn_cons_eq_if_modifyHead, if_neg (by simpa using name)]
  obtain ⟨piece, pieces, split⟩ := List.exists_cons_of_ne_nil (List.splitOn_ne_nil '.' rest)
  rw [split]
  simp

theorem Reference.slash_not_mem_head (r : Reference) : '/' ∉ r.start :: r.run := by
  intro inside
  rcases List.mem_cons.mp inside with same | later
  · exact ne_of_isWordStart r.starts (by decide) same.symm
  · exact absurd (r.dotted '/' later) (by decide +kernel)

theorem filled_of_mem_directories {besideTested : Bool} {segments : List (List Char)}
    {dir : List Char} (member : dir ∈ directories besideTested segments) : dir ≠ [] := by
  simpa using (List.mem_filter.mp member).2

/-- The first directory comes from the first segment, if that is not passed over. -/
theorem plain_head_directories {besideTested : Bool} {first : List Char}
    {segments : List (List Char)} (plain : Plain first) (filled : first ≠ []) :
    ∀ dir ∈ (directories besideTested (first :: segments)).head?, Plain dir := by
  intro dir found
  unfold directories at found
  cases segments with
  | nil =>
    have member := (List.mem_filter.mp (List.mem_of_head? found)).1
    simp only [List.getLast?_singleton, List.dropLast_singleton, List.nil_append] at member
    split at member
    · obtain rfl := List.mem_singleton.mp member
      exact plain.withoutSuffix
    · obtain rfl := List.mem_singleton.mp member
      exact plain
  | cons second segments =>
    -- What is last is another segment, so the first one is as it was.
    have kept : ∀ rest : List (List Char),
        dir ∈ ((first :: rest).filter (· ≠ [])).head? → dir = first := by
      intro rest head
      rw [List.filter_cons_of_pos (by simpa using filled), List.head?_cons] at head
      exact (Option.some.inj head).symm
    dsimp only at found
    split at found
    · split at found
      · rw [List.dropLast_cons_of_ne_nil (List.cons_ne_nil second segments)] at found
        rw [kept _ found]
        exact plain
      · rw [kept _ found]
        exact plain
    · cases found

theorem isName_head_directories (reference : Reference) (besideTested : Bool) :
    ∀ dir ∈ (directories besideTested reference.segments).head?, IsName dir := by
  have starts : reference.start ≠ '.' := ne_of_isWordStart reference.starts (by decide)
  obtain ⟨first, names, runs⟩ :=
    List.exists_cons_of_ne_nil (runNames_ne_nil starts reference.run)
  have member : first ∈ runNames (reference.start :: reference.run) := by simp [runs]
  have plain := plain_of_mem_runNames reference.slash_not_mem_head member
  have filled : first ≠ [] := by simpa using (List.mem_filter.mp member).2
  intro dir isFirst
  refine Plain.isName ?_ (filled_of_mem_directories (List.mem_of_head? isFirst))
  rw [Reference.segments, runs, List.cons_append] at isFirst
  exact plain_head_directories plain filled dir isFirst

theorem home?_eq_some {besideTested : Bool} {baseDir filename contents home : String}
    (found : home? besideTested baseDir filename contents = some home) :
    ∃ reference name, Reference.find? contents.toList = some reference ∧
      Path.fileName? filename = some name ∧
      home = Path.join (descend baseDir (directories besideTested reference.segments)) name := by
  obtain ⟨reference, declared, rest⟩ := Option.bind_eq_some_iff.mp found
  obtain ⟨name, named, made⟩ := Option.bind_eq_some_iff.mp rest
  rw [scanSegments_text] at made
  exact ⟨reference, name, declared, named, (Option.some.inj made).symm⟩

/-- The path at which a file belongs ends in the name of the file. If no directory of the package
starts at the root, it is below the project root if and only if none has a piece `..`. If some do,
it goes on from the last of these, and the project root plays no part in it. -/
theorem home?_below_iff {besideTested : Bool} {baseDir filename contents home : String}
    (found : home? besideTested baseDir filename contents = some home) :
    ∃ reference name, Reference.find? contents.toList = some reference ∧
      Path.fileName? filename = some name ∧
      (Path.components home).getLast? = some (.name name.toList) ∧
      ((∀ dir ∈ directories besideTested reference.segments, startsAtRoot dir = false) →
        (Below home baseDir ↔ ∀ dir ∈ directories besideTested reference.segments,
          ['.', '.'] ∉ dir.splitOn '/')) ∧
      ∀ before dir after, directories besideTested reference.segments = before ++ dir :: after →
        startsAtRoot dir = true → (∀ later ∈ after, startsAtRoot later = false) →
        Path.components home = Path.components (String.ofList dir) ++
          after.flatMap Path.named ++ [.name name.toList] := by
  obtain ⟨reference, name, declared, named, rfl⟩ := home?_eq_some found
  have isName := Path.fileName?_isName named
  refine ⟨reference, name, declared, named, ?_, fun relative => ?_, ?_⟩
  · rw [Path.components_join_name _ isName, List.getLast?_concat]
  · have components : Path.components (Path.join (descend baseDir
        (directories besideTested reference.segments)) name) = Path.components baseDir ++
          ((directories besideTested reference.segments).flatMap Path.named ++
            [.name name.toList]) := by
      rw [Path.components_join_name _ isName, Path.components_descend_name baseDir
        (isName_head_directories reference besideTested) relative
        (fun dir => filled_of_mem_directories), List.append_assoc]
    rw [Path.below_iff components]
    simp [Path.parent_mem_named]
  · intro before dir after split absolute relative
    have filled : ∀ later ∈ dir :: after, later ≠ [] := by
      intro later member
      apply @filled_of_mem_directories besideTested reference.segments
      rw [split]
      exact List.mem_append_right before member
    have text : String.ofList dir ≠ "" := by simpa using filled dir List.mem_cons_self
    rw [split, Path.descend_append_of_startsAtRoot absolute, Path.components_join_name _ isName,
      Path.components_descend text relative fun later member =>
        filled later (List.mem_cons_of_mem dir member)]

/-- A declaration with quoted segments that stay below the root, the last one of a test. -/
def quotedDeclaration : String := "# a\n\tpackage a.b[\"c d/e\"][\"x_test\"]\n"

theorem find?_quotedDeclaration :
    Reference.find? quotedDeclaration.toList =
      some {
        start := 'a'
        run := ".b".toList
        keys :=
          [⟨"c d/e".toList, [], by decide, by simp⟩, ⟨"x_test".toList, [], by decide, by simp⟩]
        starts := by decide
        dotted := List.all_eq_true.mp (by decide +kernel) } := by
  decide +kernel

theorem home?_below_iff_quoted :
    home? true "/work" "in/m.rego" quotedDeclaration = some "/work/a/b/c d/e/x/m.rego" ∧
      Below "/work/a/b/c d/e/x/m.rego" "/work" := by
  have found : home? true "/work" "in/m.rego" quotedDeclaration =
      some "/work/a/b/c d/e/x/m.rego" := by
    decide +kernel
  refine ⟨found, ?_⟩
  obtain ⟨reference, name, declared, -, -, below, -⟩ := home?_below_iff found
  obtain rfl := Option.some.inj (find?_quotedDeclaration.symm.trans declared)
  exact (below (by decide +kernel)).mpr (by decide +kernel)

/-- A quoted segment can send a file to any place on the disk. -/
theorem home?_leaves_root :
    home? true "/work" "/work/x.rego" "package p[\"/etc\"]\n" = some "/etc/x.rego" ∧
      ¬Below "/etc/x.rego" "/work" := by
  refine ⟨by decide +kernel, ?_⟩
  rintro ⟨rest, split, -⟩
  have outside : Path.components "/etc/x.rego" =
      [.root, .name "etc".toList, .name "x.rego".toList] := by decide +kernel
  have root : Path.components "/work" = [.root, .name "work".toList] := by decide +kernel
  rw [outside, root] at split
  simp at split

end PolicyMend.Package
