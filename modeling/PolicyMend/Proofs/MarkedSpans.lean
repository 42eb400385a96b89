import PolicyMend.Proofs.Insertions
import PolicyMend.Proofs.MendedText

/-!
What one fixer deletes. Locations mark spans of a text, and a removal takes those of them that fit
its rows and do not overlap. Main statement: in its turn a built-in fixer deletes nothing but blanks
and what its locations mark in the text it is given.
-/

namespace PolicyMend

open PolicyMend.Fix (Builtin Emptied)
open PolicyMend.Fix.SpanRemoval
open Text (byteLength Grown)

/-! ### Marks -/

def marked (locations : List Location) (index : Nat) : List (Nat × Nat) :=
  (locations.filter fun l => l.row.toNat = index + 1).filterMap fun l =>
    l.stopOnRow.map fun stop => (l.col.toNat - 1, stop.toNat - 1)

/-- The characters of a row that no location marks, blanks apart. -/
def unmarkedIn (locations : List Location) (place : List Char × Nat) : List Char :=
  (outside (marked locations place.2) 0 place.1).filter fun c => !Text.isBlank c

def unmarked (locations : List Location) (text : List Char) : List Char :=
  (Text.rows text).zipIdx.flatMap (unmarkedIn locations)

theorem taken_subset_marked {locations more : List Location} (subset : locations ⊆ more)
    (rows : List (List Char)) (index : Nat) :
    taken rows locations index ⊆ marked more index := by
  intro span member
  obtain ⟨l, given, located⟩ := mem_taken member
  obtain ⟨row, stop, -, atRow, starts, onRow, stops, -⟩ := locate_eq_some_iff.mp located
  refine List.mem_filterMap.mpr ⟨l, List.mem_filter.mpr ⟨subset given, by simpa using atRow⟩, ?_⟩
  rw [onRow, Option.map_some, starts, stops]
  rfl

theorem unmarkedIn_sublist_of_outside {locations : List Location} {row left : List Char}
    {index : Nat} (kept : (outside (marked locations index) 0 row).Sublist left) :
    (unmarkedIn locations (row, index)).Sublist left :=
  List.filter_sublist.trans kept

/-! ### One row -/

/-- Whether two rows are the same up to an offset, which is a boundary of both. -/
def agree (row other : List Char) (offset : Nat) : Bool :=
  match Text.splitAtByte row offset, Text.splitAtByte other offset with
  | some parts, some parts' => parts.1 = parts'.1
  | _, _ => false

theorem agree_iff {row other : List Char} {offset : Nat} :
    agree row other offset = true ↔ ∃ front rest rest', row = front ++ rest ∧
      other = front ++ rest' ∧ byteLength front = offset := by
  constructor
  · intro same
    unfold agree at same
    split at same
    · next parts parts' split split' =>
      obtain ⟨rfl, length⟩ := Text.splitAtByte_eq_some_iff.mp split
      obtain ⟨rfl, -⟩ := Text.splitAtByte_eq_some_iff.mp split'
      have equal : parts.1 = parts'.1 := of_decide_eq_true same
      exact ⟨parts.1, parts.2, parts'.2, rfl, by rw [equal], length⟩
    · cases same
  · rintro ⟨front, rest, rest', rfl, rfl, rfl⟩
    simp [agree, Text.splitAtByte_append]

theorem Fix.SpanRemoval.Fits.agree {row : List Char} {span : Nat × Nat} (fits : Fits row span) :
    agree row row span.2 = true := by
  obtain ⟨front, rest, parts, length⟩ := Text.isBoundary_iff.mp fits.stop
  exact agree_iff.mpr ⟨front, rest, rest, parts, parts, length⟩

/-- What spans leave of a row has all in it that is outside of the marks in a shorter row, if the
spans are marked and the two rows are the same up to where the spans stop. -/
theorem outside_sublist_cutAll {row more : List Char} {spans marks : List (Nat × Nat)}
    (leftward : Leftward spans) (fits : ∀ span ∈ spans, Fits more span) (subset : spans ⊆ marks)
    (longer : row.Sublist more) (same : ∀ span ∈ spans, agree row more span.2 = true) :
    (outside marks 0 row).Sublist (cutAll more spans) := by
  rw [cutAll_eq_outside leftward fits]
  cases spans with
  | nil =>
    rw [outside_of_right (by simp) more]
    exact (outside_sublist marks 0 row).trans longer
  | cons span spans =>
    -- The first span stops last, and what follows it has only grown.
    obtain ⟨front, rest, rest', rfl, rfl, length⟩ := agree_iff.mp (same span List.mem_cons_self)
    have grown : rest.Sublist rest' := List.append_sublist_append_left front |>.mp longer
    have beyond : ∀ other ∈ span :: spans, other.2 ≤ 0 + byteLength front := by
      intro other member
      rw [Nat.zero_add, length]
      rcases List.mem_cons.mp member with rfl | later
      · exact Nat.le_refl _
      · exact Nat.le_trans (List.rel_of_pairwise_cons leftward later)
          (fits span List.mem_cons_self).ordered
    rw [outside_append, outside_append, outside_of_right beyond]
    exact (outside_sublist_of_subset subset 0 front).append
      ((outside_sublist marks _ rest).trans grown)

/-! ### One removal -/

/-- What a removal makes of a row at its place, if it keeps it. -/
def reduced (emptied : Emptied) (rows : List (List Char)) (locations : List Location)
    (place : List Char × Nat) : Option (List Char) :=
  reduce emptied (onRow (locations.filterMap (locate rows)) place.2) place.1

theorem reduced_eq (emptied : Emptied) (rows : List (List Char)) (locations : List Location)
    (place : List Char × Nat) :
    reduced emptied rows locations place =
      let left := cutAll place.1 (taken rows locations place.2)
      if emptied = .dropped && !Text.isBlankRow place.1 && Text.isBlankRow left then none
      else some left := rfl

theorem reduced_eq_some {emptied : Emptied} {rows : List (List Char)} {locations : List Location}
    {place : List Char × Nat} {left : List Char}
    (kept : reduced emptied rows locations place = some left) :
    left = cutAll place.1 (taken rows locations place.2) := by
  rw [reduced_eq] at kept
  dsimp only at kept
  split at kept
  · cases kept
  · exact (Option.some.inj kept).symm

/-- A row that is dropped held nothing but blanks besides what was cut. -/
theorem sublist_reduced {rows : List (List Char)} {locations : List Location}
    {place : List Char × Nat} {cs : List Char} (dark : ∀ c ∈ cs, Text.isBlank c = false)
    (kept : cs.Sublist (cutAll place.1 (taken rows locations place.2))) (emptied : Emptied) :
    cs.Sublist ((reduced emptied rows locations place).getD []) := by
  rw [reduced_eq]
  dsimp only
  split
  · next dropped =>
    have blank := (Bool.and_eq_true_iff.mp dropped).2
    have none : cs = [] := by
      refine List.eq_nil_iff_forall_not_mem.mpr fun c member => ?_
      have light := List.all_eq_true.mp blank c (kept.subset member)
      rw [dark c member] at light
      cases light
    rw [none]
    exact List.nil_sublist _
  · exact kept

theorem not_isBlank_of_mem_unmarkedIn {locations : List Location} {place : List Char × Nat} :
    ∀ c ∈ unmarkedIn locations place, Text.isBlank c = false := by
  intro c member
  simpa using (List.mem_filter.mp member).2

theorem flatMap_sublist_filterMap {α β : Type} {before : α → List Char}
    {after : β → Option (List Char)} {xs : List α} {ys : List β}
    (rows : List.Forall₂ (fun x y => (before x).Sublist ((after y).getD [])) xs ys) :
    (xs.flatMap before).Sublist (ys.filterMap after).flatten := by
  induction rows with
  | nil => exact List.Sublist.refl _
  | @cons x y xs ys row _ ih =>
    rw [List.flatMap_cons, List.filterMap_cons]
    cases kept : after y with
    | none =>
      rw [kept, Option.getD_none, List.sublist_nil] at row
      rw [row]
      exact ih
    | some left =>
      rw [kept, Option.getD_some] at row
      exact row.append ih

def leftRows (emptied : Emptied) (rows : List (List Char)) (locations : List Location) :
    List (List Char) :=
  rows.zipIdx.filterMap (reduced emptied rows locations)

theorem leftRows_of_idle {emptied : Emptied} {rows : List (List Char)} {locations : List Location}
    (idle : locations.filterMap (locate rows) = []) : leftRows emptied rows locations = rows := by
  have same : ∀ place, reduced emptied rows locations place = some place.1 := by
    intro place
    have untaken : taken rows locations place.2 = [] := by
      rw [taken, idle]
      rfl
    rw [reduced_eq, untaken]
    by_cases blank : Text.isBlankRow place.1 = true
    · simp [cutAll, blank]
    · simp [cutAll, blank]
  have map : reduced emptied rows locations = some ∘ Prod.fst := funext same
  rw [leftRows, map, List.filterMap_eq_map, List.zipIdx_map_fst]

theorem newline_not_mem_leftRows {emptied : Emptied} {rows : List (List Char)}
    {locations : List Location} (whole : ∀ row ∈ rows, '\n' ∉ row) :
    ∀ row ∈ leftRows emptied rows locations, '\n' ∉ row := by
  intro row member
  obtain ⟨⟨before, index⟩, place, kept⟩ := List.mem_filterMap.mp member
  have found := List.mem_zipIdx_iff_getElem?.mp place
  rw [reduced_eq_some kept, cutAll_taken found locations]
  exact fun inside => whole before (List.mem_of_getElem? found)
    ((outside_sublist _ 0 before).subset inside)

theorem flatten_leftRows (emptied : Emptied) (rows : List (List Char)) (locations : List Location) :
    (leftRows emptied rows locations).flatten =
      rows.zipIdx.flatMap fun place => (reduced emptied rows locations place).getD [] := by
  unfold leftRows
  induction rows.zipIdx with
  | nil => rfl
  | cons place places ih =>
    rw [List.filterMap_cons, List.flatMap_cons, ← ih]
    cases reduced emptied rows locations place <;> rfl

theorem remove_getD (emptied : Emptied) (contents : String) (locations : List Location) :
    (Builtin.remove emptied contents locations).getD contents =
      String.ofList (Text.unrows (leftRows emptied (Text.rows contents.toList) locations)) := by
  unfold Builtin.remove edited?
  dsimp only
  split
  · next idle =>
    rw [leftRows_of_idle (List.isEmpty_iff.mp idle), Text.unrows_rows, String.ofList_toList]
    rfl
  · show (Option.filter _ (some (String.ofList (Text.unrows (leftRows emptied _ locations))))).getD
      contents = _
    rw [Option.filter_some]
    split
    · rfl
    · next same =>
      have equal := Decidable.not_not.mp (of_decide_eq_false (Bool.eq_false_iff.mpr same))
      exact equal.symm

theorem flatten_sublist_unrows (rows : List (List Char)) :
    rows.flatten.Sublist (Text.unrows rows) := by
  unfold Text.unrows
  induction rows with
  | nil => exact List.Sublist.refl _
  | cons row rows ih =>
    cases rows with
    | nil => simp
    | cons next rows =>
      rw [List.intercalate_cons_cons, List.flatten_cons, List.append_assoc]
      exact (List.Sublist.refl row).append (ih.cons '\n')

theorem unmarked_sublist_remove (emptied : Emptied) (contents : String)
    (locations : List Location) :
    (unmarked locations contents.toList).Sublist
      ((Builtin.remove emptied contents locations).getD contents).toList := by
  rw [remove_getD, String.toList_ofList]
  refine (flatMap_sublist_filterMap (List.forall₂_same.mpr ?_)).trans (flatten_sublist_unrows _)
  rintro ⟨row, index⟩ member
  have found := List.mem_zipIdx_iff_getElem?.mp member
  have fits := @taken_fits _ locations _ _ found
  refine sublist_reduced not_isBlank_of_mem_unmarkedIn (unmarkedIn_sublist_of_outside ?_) emptied
  exact outside_sublist_cutAll (taken_leftward _ _ _) fits
    (taken_subset_marked (List.Subset.refl locations) _ index) (List.Sublist.refl row)
    fun span given => (fits span given).agree

/-! ### One turn -/

theorem unmarked_sublist_flatten (locations : List Location) (rows : List (List Char)) (n : Nat) :
    ((rows.zipIdx n).flatMap (unmarkedIn locations)).Sublist rows.flatten := by
  induction rows generalizing n with
  | nil => exact List.Sublist.refl _
  | cons row rows ih =>
    exact (unmarkedIn_sublist_of_outside (outside_sublist _ 0 row)).append (ih (n + 1))

theorem Text.Grown.flatten {rows more : List (List Char)} (grown : Grown rows more) :
    rows.flatten.Sublist more.flatten := by
  unfold Grown at grown
  induction grown with
  | nil => exact List.Sublist.refl _
  | cons row _ ih => exact row.append ih

theorem getD_edited?_grown {s : Fix.Substitution} {ahead behind : List Char}
    (inserts : s.Inserts ahead behind) (contents : String) (locations : List Location) :
    Grown (Text.rows contents.toList)
      (Text.rows ((s.edited? contents locations).getD contents).toList) := by
  cases edited : s.edited? contents locations with
  | none => exact Grown.refl _
  | some text => exact Fix.Substitution.edited?_grown inserts edited

theorem unmarked_sublist_of_grown {contents text : String}
    (grown : Grown (Text.rows contents.toList) (Text.rows text.toList))
    (locations : List Location) :
    (unmarked locations contents.toList).Sublist text.toList := by
  have whole := flatten_sublist_unrows (Text.rows text.toList)
  rw [Text.unrows_rows] at whole
  exact ((unmarked_sublist_flatten locations _ 0).trans grown.flatten).trans whole

def Fix.Builtin.marks : Builtin → List Location → List Location
  | constantCondition, locations => locations
  | redundantExistenceCheck, locations => locations
  | _, _ => []

/-- A turn deletes nothing but what the locations of a removal mark in the text it is given. -/
theorem unmarked_sublist_edit (b : Builtin) (locations : List Location) (contents : String) :
    (unmarked (b.marks locations) contents.toList).Sublist (b.edit locations contents).toList := by
  cases b with
  | useAssignmentOperator =>
    exact unmarked_sublist_of_grown
      (getD_edited?_grown Fix.Substitution.assignment_inserts contents locations) []
  | preferEqualsComparison =>
    exact unmarked_sublist_of_grown
      (getD_edited?_grown Fix.Substitution.comparison_inserts contents locations) []
  | noWhitespaceComment =>
    exact unmarked_sublist_of_grown
      (getD_edited?_grown Fix.Substitution.spacedComment_inserts contents locations) []
  | constantCondition => exact unmarked_sublist_remove .dropped contents locations
  | redundantExistenceCheck => exact unmarked_sublist_remove .kept contents locations
  | directoryPackageMismatch besideTested => exact unmarked_sublist_of_grown (Grown.refl _) []

end PolicyMend
