import PolicyMend.Proofs.MarkedSpans

/-!
What a run deletes. Each fixer deletes what its locations mark in the text it is given, and that
text is what the fixers before it have left. Main statement: a run deletes nothing but what the
diagnostics mark in the original text, as long as no earlier fixer has changed a row before the end
of a span that is taken there, or dropped a row above it.
-/

namespace PolicyMend

open PolicyMend.Fix (Builtin Emptied)
open PolicyMend.Fix.SpanRemoval
open Text (byteLength Grown)

/-! ### Two removals -/

theorem zipIdx_flatMap_of_idle {change : Nat → List Char → List Char} {n : Nat}
    (idle : ∀ index, n ≤ index → ∀ row, change index row = row) (rows : List (List Char)) :
    ((rows.zipIdx n).flatMap fun place => change place.2 place.1) = rows.flatten := by
  induction rows generalizing n with
  | nil => rfl
  | cons row rows ih =>
    rw [List.zipIdx_cons, List.flatMap_cons, idle n (Nat.le_refl n) row,
      ih fun index later => idle index (by omega)]
    rfl

/-- Rows that are kept are changed once more, by their new number. Nothing is changed from the first
row on that was dropped, so the new number of a row that is changed is the old one. -/
theorem flatMap_sublist_flatMap_filterMap {α : Type} {before : α → List Char}
    {after : List Char × Nat → Option (List Char)} {change : Nat → List Char → List Char}
    {xs : List α} {rows : List (List Char)} {n : Nat}
    (kept : List.Forall₂ (fun x place => (before x).Sublist ((after place).getD []) ∧
      ∀ left, after place = some left → (before x).Sublist (change place.2 left))
      xs (rows.zipIdx n))
    (idle : ∀ place ∈ rows.zipIdx n, after place = none →
      ∀ index, place.2 ≤ index → ∀ row, change index row = row) :
    (xs.flatMap before).Sublist
      ((((rows.zipIdx n).filterMap after).zipIdx n).flatMap fun place =>
        change place.2 place.1) := by
  induction rows generalizing xs n with
  | nil =>
    cases kept
    exact List.Sublist.refl _
  | cons row rows ih =>
    rw [List.zipIdx_cons] at kept idle ⊢
    cases kept with
    | @cons x _ xs _ first rest =>
      rw [List.flatMap_cons, List.filterMap_cons]
      cases made : after (row, n) with
      | none =>
        have nothing := first.1
        rw [made, Option.getD_none, List.sublist_nil] at nothing
        rw [nothing, List.nil_append,
          zipIdx_flatMap_of_idle (idle (row, n) List.mem_cons_self made)]
        exact flatMap_sublist_filterMap (rest.imp fun _ _ both => both.1)
      | some left =>
        rw [List.zipIdx_cons, List.flatMap_cons]
        refine (first.2 left made).append (ih rest fun place member => ?_)
        exact idle place (List.mem_cons_of_mem _ member)

theorem getElem?_filterMap {α β : Type} {f : α → Option β} {xs : List α} {index : Nat}
    (kept : ∀ above x, above ≤ index → xs[above]? = some x → (f x).isSome = true) :
    (xs.filterMap f)[index]? = xs[index]?.bind f := by
  induction xs generalizing index with
  | nil => rfl
  | cons x xs ih =>
    obtain ⟨y, made⟩ := Option.isSome_iff_exists.mp (kept 0 x (Nat.zero_le _) rfl)
    rw [List.filterMap_cons, made]
    cases index with
    | zero => simp [made]
    | succ index =>
      rw [List.getElem?_cons_succ, List.getElem?_cons_succ]
      exact ih fun above x upper found => kept (above + 1) x (by omega) (by simpa using found)

theorem outside_of_left {spans : List (Nat × Nat)} {offset : Nat} {row : List Char}
    (left : ∀ span ∈ spans, offset + byteLength row ≤ span.1) : outside spans offset row = row := by
  induction spans with
  | nil => exact outside_of_right (by simp) row
  | cons span spans ih =>
    rw [outside_cons_of_left (left span List.mem_cons_self)]
    exact ih fun other member => left other (List.mem_cons_of_mem span member)

/-- A span that fits a row after others were cut to the right of it fits the row before. -/
theorem fits_of_cutAll {original row : List Char} {spans : List (Nat × Nat)} {span : Nat × Nat}
    (leftward : Leftward spans) (fits : ∀ other ∈ spans, Fits row other)
    (right : ∀ other ∈ spans, span.2 ≤ other.1) (same : agree original row span.2 = true)
    (after : Fits (cutAll row spans) span) : Fits row span := by
  obtain ⟨front, -, rest, -, rfl, length⟩ := agree_iff.mp same
  have untouched : outside spans 0 front = front := by
    refine outside_of_left fun other member => ?_
    rw [Nat.zero_add, length]
    exact right other member
  have starts := after.start
  rw [cutAll_eq_outside leftward fits, outside_append, untouched] at starts
  have inside : span.1 ≤ byteLength front := length ▸ after.ordered
  refine ⟨after.ordered, ?_, Text.isBoundary_iff.mpr ⟨front, rest, rfl, length⟩⟩
  exact (Text.isBoundary_append_iff inside).mpr ((Text.isBoundary_append_iff inside).mp starts)

def restRows (given : List (List Char)) (dropping : List Location) : List (List Char) :=
  Text.rows (Text.unrows (leftRows .dropped given dropping))

/-- Every span that one of two removals takes, the first of which may drop rows, stands where it
stood in the original rows: its row is the same up to its end and, for the second removal, nothing
to the left of its end was cut by the first one and no row was dropped at or above its own. -/
def Undisturbed (original given : List (List Char)) (dropping keeping : List Location) : Prop :=
  (∀ index < original.length, ∀ span ∈ taken given dropping index,
    agree (original.getD index []) (given.getD index []) span.2 = true) ∧
  ∀ index < original.length, ∀ span ∈ taken (restRows given dropping) keeping index,
    agree (original.getD index []) (given.getD index []) span.2 = true ∧
    (∀ other ∈ taken given dropping index, span.2 ≤ other.1) ∧
    ∀ above < index + 1,
      (reduced .dropped given dropping (given.getD above [], above)).isSome = true

instance (original given : List (List Char)) (dropping keeping : List Location) :
    Decidable (Undisturbed original given dropping keeping) :=
  inferInstanceAs (Decidable ((∀ index < original.length, ∀ span ∈ _, _) ∧
    ∀ index < original.length, ∀ span ∈ _, _ ∧ (∀ other ∈ _, _) ∧ ∀ above < index + 1, _))

section Undisturbed

variable {original given : List (List Char)} {dropping keeping : List Location}
  (undisturbed : Undisturbed original given dropping keeping)
  {index : Nat} {row more : List Char} (found : original[index]? = some row)
  (found' : given[index]? = some more)

include undisturbed found found'

theorem Undisturbed.agree_dropping :
    ∀ span ∈ taken given dropping index, agree row more span.2 = true := by
  intro span member
  have same := undisturbed.1 index (List.getElem?_eq_some_iff.mp found).1 span member
  rw [List.getD_eq_getElem?_getD, List.getD_eq_getElem?_getD, found, found'] at same
  exact same

theorem Undisturbed.agree_keeping :
    ∀ span ∈ taken (restRows given dropping) keeping index, agree row more span.2 = true ∧
      ∀ other ∈ taken given dropping index, span.2 ≤ other.1 := by
  intro span member
  obtain ⟨same, right, -⟩ := undisturbed.2 index (List.getElem?_eq_some_iff.mp found).1 span member
  rw [List.getD_eq_getElem?_getD, List.getD_eq_getElem?_getD, found, found'] at same
  exact ⟨same, right⟩

variable (longer : row.Sublist more)

include longer

theorem Undisturbed.unmarkedIn_sublist_cutAll :
    (unmarkedIn (dropping ++ keeping) (row, index)).Sublist
      (cutAll more (taken given dropping index)) := by
  have subset := taken_subset_marked (List.subset_append_left dropping keeping) given index
  exact unmarkedIn_sublist_of_outside (outside_sublist_cutAll (taken_leftward _ _ _)
    (taken_fits found') subset longer (undisturbed.agree_dropping found found'))

theorem Undisturbed.unmarkedIn_sublist_reduced :
    (unmarkedIn (dropping ++ keeping) (row, index)).Sublist
      ((reduced .dropped given dropping (more, index)).getD []) :=
  @sublist_reduced given dropping (more, index) _ not_isBlank_of_mem_unmarkedIn
    (undisturbed.unmarkedIn_sublist_cutAll found found' longer) .dropped

theorem Undisturbed.unmarkedIn_sublist_cutAll_cutAll
    (rest : (restRows given dropping)[index]? = some (cutAll more (taken given dropping index))) :
    (unmarkedIn (dropping ++ keeping) (row, index)).Sublist
      (cutAll (cutAll more (taken given dropping index))
        (taken (restRows given dropping) keeping index)) := by
  have early := undisturbed.agree_dropping found found'
  have late := undisturbed.agree_keeping found found'
  -- The second removal takes spans to the left only, as if there were one removal.
  have leftward : Leftward (taken given dropping index ++
      taken (restRows given dropping) keeping index) :=
    List.pairwise_append.mpr ⟨taken_leftward _ _ _, taken_leftward _ _ _,
      fun other member span member' => (late span member').2 other member⟩
  have subset : taken given dropping index ++ taken (restRows given dropping) keeping index ⊆
      marked (dropping ++ keeping) index :=
    List.append_subset.mpr ⟨taken_subset_marked (List.subset_append_left _ _) _ index,
      taken_subset_marked (List.subset_append_right _ _) _ index⟩
  rw [cutAll, cutAll, ← List.foldl_append, ← cutAll]
  refine unmarkedIn_sublist_of_outside (outside_sublist_cutAll leftward ?_ subset longer ?_)
  · intro span member
    rcases List.mem_append.mp member with first | second
    · exact taken_fits found' span first
    · exact fits_of_cutAll (taken_leftward _ _ _) (taken_fits found') (late span second).2
        (late span second).1 (taken_fits rest span second)
  · intro span member
    rcases List.mem_append.mp member with first | second
    · exact early span first
    · exact (late span second).1

end Undisturbed

theorem Text.Grown.zipIdx {rows more : List (List Char)} (grown : Grown rows more)
    {related : List Char × Nat → List Char × Nat → Prop} {n : Nat}
    (each : ∀ index row row', rows[index]? = some row → more[index]? = some row' →
      row.Sublist row' → related (row, n + index) (row', n + index)) :
    List.Forall₂ related (rows.zipIdx n) (more.zipIdx n) := by
  unfold Grown at grown
  induction grown generalizing n with
  | nil => exact .nil
  | @cons row row' rows more longer _ ih =>
    refine .cons (each 0 row row' rfl rfl longer) (ih fun index row row' found found' sublist => ?_)
    have later := each (index + 1) row row' (by simpa using found) (by simpa using found') sublist
    rwa [show n + (index + 1) = n + 1 + index by omega] at later

/-- A row has its old number if no row was dropped up to it. -/
theorem getElem?_leftRows {emptied : Emptied} {rows : List (List Char)} {locations : List Location}
    {index : Nat} {row left : List Char} (found : rows[index]? = some row)
    (kept : reduced emptied rows locations (row, index) = some left)
    (steady : ∀ above row, above ≤ index → rows[above]? = some row →
      (reduced emptied rows locations (row, above)).isSome = true) :
    (leftRows emptied rows locations)[index]? = some left := by
  have survives := @getElem?_filterMap _ _ (reduced emptied rows locations) rows.zipIdx index ?_
  · rw [leftRows, survives, List.getElem?_zipIdx, found, Option.map_some, Option.bind_some,
      Nat.zero_add]
    exact kept
  · intro above place upper there
    rw [List.getElem?_zipIdx] at there
    obtain ⟨row', found', rfl⟩ := Option.map_eq_some_iff.mp there
    rw [Nat.zero_add]
    exact steady above row' upper found'

section Removals

variable {original given : List (List Char)} {dropping keeping : List Location}
  (grown : Grown original given) (undisturbed : Undisturbed original given dropping keeping)

include grown undisturbed

/-- Where the second removal takes a span, the first one has dropped no row at or above it. -/
theorem Undisturbed.isSome_reduced_of_taken
    (rest : restRows given dropping = leftRows .dropped given dropping) {index : Nat}
    (busy : taken (restRows given dropping) keeping index ≠ []) {above : Nat}
    {more : List Char} (upper : above ≤ index) (found : given[above]? = some more) :
    (reduced .dropped given dropping (more, above)).isSome = true := by
  obtain ⟨span, member⟩ := List.exists_mem_of_ne_nil _ busy
  have short : index < original.length := by
    obtain ⟨l, -, located⟩ := mem_taken member
    obtain ⟨row, stop, there, -⟩ := locate_eq_some_iff.mp located
    have inside := (List.getElem?_eq_some_iff.mp there).1
    have fewer : (leftRows .dropped given dropping).length ≤ given.zipIdx.length :=
      List.length_filterMap_le _ _
    rw [List.length_zipIdx, ← grown.length_eq] at fewer
    rw [rest] at inside
    omega
  have kept := (undisturbed.2 index short span member).2.2 above (by omega)
  rwa [List.getD_eq_getElem?_getD, found] at kept

theorem Undisturbed.unmarkedIn_sublist_cutAll_reduced
    (rest : restRows given dropping = leftRows .dropped given dropping) {index : Nat}
    {row more left : List Char} (found : original[index]? = some row)
    (found' : given[index]? = some more) (longer : row.Sublist more)
    (kept : reduced .dropped given dropping (more, index) = some left) :
    (unmarkedIn (dropping ++ keeping) (row, index)).Sublist
      (cutAll left (taken (restRows given dropping) keeping index)) := by
  have cut := reduced_eq_some kept
  by_cases busy : taken (restRows given dropping) keeping index = []
  · rw [busy, cut]
    exact undisturbed.unmarkedIn_sublist_cutAll found found' longer
  · have there := getElem?_leftRows found' kept fun above row upper found =>
      undisturbed.isSome_reduced_of_taken grown rest busy upper found
    rw [← rest, cut] at there
    rw [cut]
    exact undisturbed.unmarkedIn_sublist_cutAll_cutAll found found' longer there

/-- Two removals, of which the first may drop rows, delete nothing but what their locations mark in
the original rows, as long as nothing was disturbed. -/
theorem Undisturbed.unmarked_sublist (whole : ∀ row ∈ given, '\n' ∉ row) :
    (original.zipIdx.flatMap (unmarkedIn (dropping ++ keeping))).Sublist
      (leftRows .kept (restRows given dropping) keeping).flatten := by
  by_cases empty : leftRows .dropped given dropping = []
  · have rows : List.Forall₂ (fun x place => (unmarkedIn (dropping ++ keeping) x).Sublist
        ((reduced .dropped given dropping place).getD [])) original.zipIdx given.zipIdx := by
      refine grown.zipIdx fun index row more found found' longer => ?_
      rw [Nat.zero_add]
      exact undisturbed.unmarkedIn_sublist_reduced found found' longer
    have nothing := flatMap_sublist_filterMap rows
    rw [← leftRows, empty, List.flatten_nil, List.sublist_nil] at nothing
    rw [nothing]
    exact List.nil_sublist _
  · have rest : restRows given dropping = leftRows .dropped given dropping :=
      Text.rows_unrows (newline_not_mem_leftRows whole) empty
    have changed := @flatMap_sublist_flatMap_filterMap _ (unmarkedIn (dropping ++ keeping))
      (reduced .dropped given dropping)
      (fun index row => cutAll row (taken (restRows given dropping) keeping index))
      original.zipIdx given 0 (grown.zipIdx fun index row more found found' longer => ?_) ?_
    · rw [← leftRows, ← rest] at changed
      rw [flatten_leftRows]
      exact changed
    · rw [Nat.zero_add]
      exact ⟨undisturbed.unmarkedIn_sublist_reduced found found' longer,
        fun left => undisturbed.unmarkedIn_sublist_cutAll_reduced grown rest found found' longer⟩
    · rintro ⟨more, above⟩ member dropped index later row
      have untaken : taken (restRows given dropping) keeping index = [] := by
        by_contra busy
        have kept := undisturbed.isSome_reduced_of_taken grown rest busy later
          (List.mem_zipIdx_iff_getElem?.mp member)
        rw [dropped] at kept
        cases kept
      show cutAll row (taken (restRows given dropping) keeping index) = row
      rw [untaken]
      rfl

end Removals

/-! ### A run -/

open Run (located textAfter)

def substituting : List Builtin :=
  [.useAssignmentOperator, .preferEqualsComparison, .noWhitespaceComment]

theorem textAfter_substituting_grown (diagnostics : List Diagnostic) (contents : String) :
    Grown (Text.rows contents.toList)
      (Text.rows (textAfter diagnostics contents substituting).toList) :=
  ((getD_edited?_grown Fix.Substitution.assignment_inserts _ _).trans
    (getD_edited?_grown Fix.Substitution.comparison_inserts _ _)).trans
    (getD_edited?_grown Fix.Substitution.spacedComment_inserts _ _)

def removing (diagnostics : List Diagnostic) : List Location :=
  located diagnostics Builtin.constantCondition.name ++
    located diagnostics Builtin.redundantExistenceCheck.name

def SpansUndisturbed (diagnostics : List Diagnostic) (contents : String) : Prop :=
  Undisturbed (Text.rows contents.toList)
    (Text.rows (textAfter diagnostics contents substituting).toList)
    (located diagnostics Builtin.constantCondition.name)
    (located diagnostics Builtin.redundantExistenceCheck.name)

instance (diagnostics : List Diagnostic) (contents : String) :
    Decidable (SpansUndisturbed diagnostics contents) :=
  inferInstanceAs (Decidable (Undisturbed _ _ _ _))

theorem textAfter_all (diagnostics : List Diagnostic) (contents : String) :
    (textAfter diagnostics contents Builtin.all).toList =
      Text.unrows (leftRows .kept
        (restRows (Text.rows (textAfter diagnostics contents substituting).toList)
          (located diagnostics Builtin.constantCondition.name))
        (located diagnostics Builtin.redundantExistenceCheck.name)) := by
  show (Builtin.redundantExistenceCheck.edit _ (Builtin.constantCondition.edit _
    (textAfter diagnostics contents substituting))).toList = _
  simp only [Builtin.edit, remove_getD, String.toList_ofList, restRows]

theorem unmarked_sublist_textAfter {diagnostics : List Diagnostic} {contents : String}
    (undisturbed : SpansUndisturbed diagnostics contents) :
    (unmarked (removing diagnostics) contents.toList).Sublist
      (textAfter diagnostics contents Builtin.all).toList := by
  rw [textAfter_all]
  exact (undisturbed.unmarked_sublist (textAfter_substituting_grown diagnostics contents)
    fun row => Text.newline_not_mem_of_mem_rows).trans (flatten_sublist_unrows _)

/-- The contents of a fixed file are those of the cached one after the turns of all built-in fixers,
and each turn deletes nothing but what the locations of a removal mark in the contents it is given,
blanks apart. If the spans were not disturbed by earlier turns, the run deletes nothing but what the
diagnostics mark in the cached contents. -/
theorem run_deletes_marked {baseDir : String} {cache : Cache} {f : FixedFile}
    (member : f ∈ (run .defaults baseDir cache).files) {contents : String}
    (found : cache.contents.get? f.source = some contents) :
    f.contents = textAfter (cache.shownDiagnostics f.source) contents Builtin.all ∧
      (∀ (b : Builtin) (locations : List Location) (text : String),
        (unmarked (b.marks locations) text.toList).Sublist (b.edit locations text).toList) ∧
      (SpansUndisturbed (cache.shownDiagnostics f.source) contents →
        (unmarked (removing (cache.shownDiagnostics f.source)) contents.toList).Sublist
          f.contents.toList) := by
  have mended := contents_of_mem_run_defaults member found
  refine ⟨mended, unmarked_sublist_edit, fun undisturbed => ?_⟩
  rw [mended]
  exact unmarked_sublist_textAfter undisturbed

/-- Targets of substitutions, a check in a row, and below it a condition that fills its row. -/
def steadyText : String := "x = 1\n#note\np if \x7b input.x; q \x7d\ntrue\n"

def steadyRows : Cache :=
  let report (code : String) (location : Location) : Diagnostic := { code, message := "", location }
  (({} : Cache).setContents "/p.rego" steadyText).setDiagnostics "/p.rego"
    [report "constant-condition" ⟨4, 1, some ⟨4, 5⟩⟩,
      report "redundant-existence-check" ⟨3, 8, some ⟨3, 17⟩⟩,
      report "use-assignment-operator" ⟨1, 1, none⟩, report "no-whitespace-comment" ⟨2, 1, none⟩]

theorem run_deletes_marked_steadyRows :
    ∃ f ∈ (run .defaults "/" steadyRows).files,
      f.contents = "x := 1\n# note\np if \x7b q \x7d\n" ∧
      steadyRows.contents.get? f.source = some steadyText ∧
      SpansUndisturbed (steadyRows.shownDiagnostics f.source) steadyText ∧
      (unmarked (removing (steadyRows.shownDiagnostics f.source)) steadyText.toList).Sublist
        f.contents.toList := by
  let f : FixedFile :=
    ⟨"/p.rego", "/p.rego", "x := 1\n# note\np if \x7b q \x7d\n", .compute steadyText⟩
  have member : f ∈ (run .defaults "/" steadyRows).files := by decide +kernel
  have found : steadyRows.contents.get? f.source = some steadyText := by decide +kernel
  have undisturbed : SpansUndisturbed (steadyRows.shownDiagnostics f.source) steadyText := by
    decide +kernel
  exact ⟨f, member, rfl, found, undisturbed, (run_deletes_marked member found).2.2 undisturbed⟩

/-- A condition that fills its row, and a check in the row below it. -/
def shiftedText : String := "a if \x7b\n    true\n    input.x\n    data.y == 1\n\x7d\n"

def shiftedRows : Cache :=
  let report (code : String) (location : Location) : Diagnostic := { code, message := "", location }
  (({} : Cache).setContents "/a.rego" shiftedText).setDiagnostics "/a.rego"
    [report "constant-condition" ⟨2, 5, some ⟨2, 9⟩⟩,
      report "redundant-existence-check" ⟨3, 5, some ⟨3, 12⟩⟩]

/-- A row that is dropped makes a later fixer delete from a row that no diagnostic marks. -/
theorem run_deletes_unmarked :
    ∃ f ∈ (run .defaults "/" shiftedRows).files,
      shiftedRows.contents.get? f.source = some shiftedText ∧
      f.contents = "a if \x7b\n    input.x\n    == 1\n\x7d\n" ∧
      ¬(unmarked (removing (shiftedRows.shownDiagnostics f.source)) shiftedText.toList).Sublist
        f.contents.toList := by
  refine ⟨⟨"/a.rego", "/a.rego", "a if \x7b\n    input.x\n    == 1\n\x7d\n",
    .compute shiftedText⟩, ?_, ?_, rfl, ?_⟩
  · decide +kernel
  · decide +kernel
  · decide +kernel

end PolicyMend
