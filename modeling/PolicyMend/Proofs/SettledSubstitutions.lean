import PolicyMend.Proofs.FixerTurns
import PolicyMend.Proofs.Insertions

/-!
Substitutions that are done again. What a substitution sets beside a target makes the target one
that it leaves alone, but it also pushes the row to the right under columns that stay. Main
statement: if each row has one location, the location leads to the same target again, and nothing
changes.
-/

namespace PolicyMend.Fix

open Text (byteLength)

/-- At most one place is located on a row; it may be given more than once. -/
def OnePerRow (locations : List Location) : Prop :=
  ∀ l ∈ locations, ∀ m ∈ locations, l.row = m.row → l.col = m.col

namespace Substitution

structure Settles (s : Substitution) (ahead behind : List Char) : Prop where
  inserts : s.Inserts ahead behind
  fresh : s.target ∉ ahead
  refuses : ∀ left right, s.allows (ahead.getLast?.or left) (behind.head?.or right) = false

theorem assignment_settles : assignment.Settles [':'] [] :=
  ⟨assignment_inserts, by decide, fun _ _ => rfl⟩

theorem comparison_settles : comparison.Settles [] ['='] :=
  ⟨comparison_inserts, by decide, fun left right => by simp [comparison, standsAlone]⟩

theorem spacedComment_settles : spacedComment.Settles [] [' '] :=
  ⟨spacedComment_inserts, by decide, fun _ _ => rfl⟩

theorem insertAt_once {ahead behind before after : List Char} {c : Char} {chosen : Nat → Bool}
    (only : ∀ p, chosen p = true ↔ p = byteLength before) :
    insertAt ahead behind chosen 0 (before ++ c :: after) =
      before ++ ahead ++ c :: (behind ++ after) := by
  have size := c.utf8Size_pos
  have others : ∀ p, p ≠ byteLength before → chosen p = false := fun p other =>
    Bool.eq_false_iff.mpr fun here => other ((only p).mp here)
  rw [insertAt_append, insertAt_of_none fun p _ inside => others p (by omega), insertAt,
    Nat.zero_add, if_pos ((only _).mpr rfl),
    insertAt_of_none fun p beyond _ => others p (by omega)]
  simp

section Again

variable {s : Substitution} {ahead behind : List Char} {rows : List (List Char)}
  {locations : List Location} {l : Location} {index offset : Nat}

theorem locate_congr {target : Char} {m : Location} (row : l.row = m.row) (col : l.col = m.col) :
    locate target rows l = locate target rows m := by
  unfold locate
  rw [row, col]

theorem row_of_locate {target : Char} (located : locate target rows l = some (index, offset)) :
    l.row.toNat = index + 1 :=
  (locate_eq_some_iff.mp located).1

/-- On the row of a location, the places that change are those to which it leads. -/
theorem chosen_iff_of_onePerRow (apart : OnePerRow locations) (given : l ∈ locations)
    (number : l.row.toNat = index + 1) :
    s.chosen rows locations (index, offset) = true ↔
      locate s.target rows l = some (index, offset) ∧ s.allowedAt rows (index, offset) = true := by
  rw [chosen, replaced, Bool.and_eq_true, decide_eq_true_eq, targets, List.mem_filterMap]
  refine and_congr_left fun _ => ⟨?_, fun located => ⟨l, given, located⟩⟩
  rintro ⟨m, other, located⟩
  have row : m.row = l.row := by
    apply UInt32.toNat_inj.mp
    rw [row_of_locate located, number]
  rw [← locate_congr row (apart m other l given row)]
  exact located

theorem insertedRows_of_allowed (apart : OnePerRow locations) (given : l ∈ locations)
    (number : l.row.toNat = index + 1) {before after : List Char}
    (found : rows[index]? = some (before ++ s.target :: after))
    (located : locate s.target rows l = some (index, byteLength before))
    (allowed : s.allowedAt rows (index, byteLength before) = true) :
    (insertedRows ahead behind (s.chosen rows locations) rows)[index]? =
      some (before ++ ahead ++ s.target :: (behind ++ after)) := by
  rw [getElem?_insertedRows, found, Option.map_some]
  refine congrArg some (insertAt_once fun p => ?_)
  rw [chosen_iff_of_onePerRow apart given number, located]
  constructor
  · rintro ⟨same, -⟩
    exact (congrArg Prod.snd (Option.some.inj same)).symm
  · rintro rfl
    exact ⟨rfl, allowed⟩

theorem insertedRows_of_unchanged (apart : OnePerRow locations) (given : l ∈ locations)
    (number : l.row.toNat = index + 1)
    (unchanged : ¬∃ place, locate s.target rows l = some (index, place) ∧
      s.allowedAt rows (index, place) = true) :
    (insertedRows ahead behind (s.chosen rows locations) rows)[index]? = rows[index]? := by
  rw [getElem?_insertedRows]
  cases rows[index]? with
  | none => rfl
  | some row =>
    refine congrArg some (insertAt_of_none fun p _ _ => Bool.eq_false_iff.mpr fun here => ?_)
    exact unchanged ⟨p, (chosen_iff_of_onePerRow apart given number).mp here⟩

/-- Where something was set, the search passes over what stands ahead of the target now, stops at
the same target, and finds beside it what makes the rule refuse it. -/
theorem Settles.allowedAt_of_changed (settles : s.Settles ahead behind)
    (apart : OnePerRow locations) (given : l ∈ locations) {again : List (List Char)}
    (edited : again = insertedRows ahead behind (s.chosen rows locations) rows) {place : Nat}
    (before : locate s.target rows l = some (index, place))
    (allowed : s.allowedAt rows (index, place) = true)
    (located : locate s.target again l = some (index, offset)) :
    s.allowedAt again (index, offset) = false := by
  obtain ⟨number, front, gap, tail, found, col, free, rfl⟩ := locate_eq_some_iff.mp before
  rw [← Text.byteLength_append] at before allowed
  rw [← List.append_assoc] at found
  have row := @insertedRows_of_allowed s ahead behind rows locations l index apart given number
    (front ++ gap) tail found before allowed
  rw [← edited] at row
  have moved : locate s.target again l = some (index, byteLength (front ++ gap ++ ahead)) := by
    refine locate_eq_some_iff.mpr ⟨number, front, gap ++ ahead, behind ++ tail, ?_, col, ?_, ?_⟩
    · rw [row]
      simp
    · rw [List.mem_append]
      exact fun member => member.elim free settles.fresh
    · simp only [Text.byteLength_append]
      omega
  rw [located] at moved
  rw [Option.some.inj moved, allowedAt_eq row, List.getLast?_append, List.head?_append]
  exact settles.refuses _ _

theorem Settles.allowedAt_again (settles : s.Settles ahead behind) (apart : OnePerRow locations)
    (given : l ∈ locations) {again : List (List Char)}
    (edited : again = insertedRows ahead behind (s.chosen rows locations) rows)
    (located : locate s.target again l = some (index, offset)) :
    s.allowedAt again (index, offset) = false := by
  obtain ⟨number, parts⟩ := locate_eq_some_iff.mp located
  by_cases changed : ∃ place, locate s.target rows l = some (index, place) ∧
      s.allowedAt rows (index, place) = true
  · obtain ⟨place, before, allowed⟩ := changed
    exact settles.allowedAt_of_changed apart given edited before allowed located
  · -- The row is as it was, so the location leads where it led before.
    have same : again[index]? = rows[index]? := by
      rw [edited]
      exact insertedRows_of_unchanged apart given number changed
    rw [same] at parts
    rw [allowedAt, same]
    apply Bool.eq_false_iff.mpr
    intro allowed
    exact changed ⟨offset, locate_eq_some_iff.mpr ⟨number, parts⟩, allowed⟩

theorem Settles.edited?_again (settles : s.Settles ahead behind) (apart : OnePerRow locations)
    {contents text : String} (edited : s.edited? contents locations = some text) :
    s.edited? text locations = none := by
  obtain ⟨-, made⟩ := (edited?_eq_some_iff settles.inserts).mp edited
  have rows : Text.rows text.toList = insertedRows ahead behind
      (s.chosen (Text.rows contents.toList) locations) (Text.rows contents.toList) := by
    rw [made, String.toList_ofList, rows_unrows_insertedRows settles.inserts]
  rw [Option.eq_none_iff_forall_ne_some]
  intro more edited
  obtain ⟨⟨⟨index, offset⟩, chosen⟩, -⟩ := (edited?_eq_some_iff settles.inserts).mp edited
  obtain ⟨listed, allowed⟩ := Bool.and_eq_true_iff.mp chosen
  obtain ⟨l, given, located⟩ := List.mem_filterMap.mp (of_decide_eq_true listed)
  rw [settles.allowedAt_again apart given rows located] at allowed
  cases allowed

end Again

end Substitution

theorem Builtin.exists_settles {b : Builtin}
    (substitutes : b ∈ [useAssignmentOperator, preferEqualsComparison, noWhitespaceComment]) :
    ∃ s ahead behind, Substitution.Settles s ahead behind ∧
      b.fixer = .editing b.name s.edited? := by
  simp only [List.mem_cons, List.not_mem_nil, or_false] at substitutes
  rcases substitutes with rfl | rfl | rfl
  · exact ⟨_, _, _, Substitution.assignment_settles, rfl⟩
  · exact ⟨_, _, _, Substitution.comparison_settles, rfl⟩
  · exact ⟨_, _, _, Substitution.spacedComment_settles, rfl⟩

/-- A fixer that substitutes has nothing to do on its own result, given the same locations, if there
is at most one on each row. -/
theorem Builtin.substitutes_only_once {b : Builtin}
    (substitutes : b ∈ [useAssignmentOperator, preferEqualsComparison, noWhitespaceComment])
    {candidate again : Candidate} {options : Options} {edits : List Edit} {edit : Edit}
    (apart : OnePerRow options.locations)
    (fixed : b.fixer.fix candidate (some options) = .ok edits) (given : edit ∈ edits)
    (contents : again.contents = edit.contents) :
    b.fixer.fix again (some options) = .ok [] := by
  obtain ⟨s, ahead, behind, settles, made⟩ := Builtin.exists_settles substitutes
  rw [made] at fixed ⊢
  rw [Fixer.editing_fix] at fixed
  obtain rfl := Except.ok.inj fixed
  obtain ⟨text, edited, rfl⟩ := Option.map_eq_some_iff.mp (Option.mem_toList.mp given)
  rw [Fixer.editing_fix_eq_nil_iff, contents]
  exact settles.edited?_again apart edited

/-- A target that is pushed to the right of its column, one that is left alone, a row without a
target, and a row that is not there. -/
theorem Builtin.substitutes_only_once_rows :
    useAssignmentOperator.fixer.fix ⟨"a.rego", "é = 1\nx == y\nz"⟩
        (some ⟨"/p", [⟨1, 4, none⟩, ⟨3, 1, none⟩, ⟨2, 1, none⟩, ⟨9, 1, none⟩]⟩) = .ok [{
          title := "use-assignment-operator"
          root := "/p"
          contents := "é := 1\nx == y\nz"
          sourceHash := .compute "é = 1\nx == y\nz" }] ∧
      useAssignmentOperator.fixer.fix ⟨"a.rego", "é := 1\nx == y\nz"⟩
        (some ⟨"/p", [⟨1, 4, none⟩, ⟨3, 1, none⟩, ⟨2, 1, none⟩, ⟨9, 1, none⟩]⟩) = .ok [] := by
  have edited : Substitution.assignment.edited? "é = 1\nx == y\nz"
      [⟨1, 4, none⟩, ⟨3, 1, none⟩, ⟨2, 1, none⟩, ⟨9, 1, none⟩] =
        some "é := 1\nx == y\nz" := by
    decide +kernel
  have fixed := @Fixer.editing_fix_of_eq_some "use-assignment-operator" _
    ⟨"a.rego", "é = 1\nx == y\nz"⟩
    ⟨"/p", [⟨1, 4, none⟩, ⟨3, 1, none⟩, ⟨2, 1, none⟩, ⟨9, 1, none⟩]⟩ _ edited
  refine ⟨fixed, ?_⟩
  exact Builtin.substitutes_only_once (by decide) (by unfold OnePerRow; decide) fixed
    List.mem_cons_self rfl

/-- With two locations on a row, the second one can be led to another target the next time. -/
example : Substitution.spacedComment.edited? "#a#b#c" [⟨1, 1, none⟩, ⟨1, 4, none⟩] =
      some "# a#b# c" ∧
    Substitution.spacedComment.edited? "# a#b# c" [⟨1, 1, none⟩, ⟨1, 4, none⟩] =
      some "# a# b# c" := by
  decide +kernel

end PolicyMend.Fix
