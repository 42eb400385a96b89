import PolicyMend.Sorting

/-! Sorting puts the distinct elements in strict order, given an order that compares any two. -/

namespace PolicyMend

section Order

variable {α : Type} [DecidableEq α] {before : α → α → Bool}
  (trans : ∀ a b c, before a b = true → before b c = true → before a c = true)
  (total : ∀ a b, a ≠ b → before a b = true ∨ before b a = true)

include trans total

theorem insertDistinct_pairwise (a : α) {elements : List α}
    (sorted : elements.Pairwise fun x y => before x y = true) :
    (insertDistinct before a elements).Pairwise fun x y => before x y = true := by
  induction elements with
  | nil => simp [insertDistinct]
  | cons b rest ih =>
    obtain ⟨first, sortedRest⟩ := List.pairwise_cons.mp sorted
    simp only [insertDistinct]
    split
    · exact sorted
    · next different =>
      split
      · next less =>
        refine List.pairwise_cons.mpr ⟨?_, sorted⟩
        intro x member
        rcases List.mem_cons.mp member with rfl | later
        · exact less
        · exact trans a b x less (first x later)
      · next notLess =>
        have greater : before b a = true := (total a b different).resolve_left notLess
        refine List.pairwise_cons.mpr ⟨?_, ih sortedRest⟩
        intro x member
        rcases (mem_insertDistinct before a x rest).mp member with rfl | later
        · exact greater
        · exact first x later

theorem sortDistinct_pairwise (elements : List α) :
    (sortDistinct before elements).Pairwise fun x y => before x y = true := by
  induction elements with
  | nil => exact List.Pairwise.nil
  | cons a rest ih => exact insertDistinct_pairwise trans total a ih

end Order

theorem ascending_pairwise (texts : List String) : (ascending texts).Pairwise (· < ·) := by
  have trans : ∀ a b c : String,
      decide (a < b) = true → decide (b < c) = true → decide (a < c) = true := by
    intro a b c first second
    exact decide_eq_true (String.lt_trans (of_decide_eq_true first) (of_decide_eq_true second))
  have total : ∀ a b : String, a ≠ b → decide (a < b) = true ∨ decide (b < a) = true := by
    intro a b different
    rcases String.le_total a b with le | le
    · exact .inl (decide_eq_true (Decidable.not_not.mp fun notLess =>
        different (String.le_antisymm le notLess)))
    · exact .inr (decide_eq_true (Decidable.not_not.mp fun notLess =>
        different (String.le_antisymm notLess le)))
  exact (sortDistinct_pairwise trans total texts).imp of_decide_eq_true

theorem ascending_nodup (texts : List String) : (ascending texts).Nodup := by
  refine (ascending_pairwise texts).imp fun {a b} less => ?_
  rintro rfl
  exact String.lt_irrefl a less

theorem ascending_perm {texts : List String} (nodup : texts.Nodup) : (ascending texts).Perm texts :=
  (List.perm_ext_iff_of_nodup (ascending_nodup texts) nodup).mpr fun x => by
    rw [ascending, mem_sortDistinct]

theorem descending_pairwise (pairs : List (Nat × Nat)) :
    (descending pairs).Pairwise fun x y => y.1 < x.1 ∨ x.1 = y.1 ∧ y.2 < x.2 := by
  have sorted := @sortDistinct_pairwise _ _
    (fun a b : Nat × Nat => b.1 < a.1 || (a.1 = b.1 && b.2 < a.2)) ?_ ?_ pairs
  · exact sorted.imp fun {x y} before => by simpa using before
  · intro a b c first second
    simp only [Bool.or_eq_true, Bool.and_eq_true, decide_eq_true_eq] at first second ⊢
    omega
  · intro a b different
    have apart : a.1 ≠ b.1 ∨ a.2 ≠ b.2 :=
      Decidable.not_and_iff_or_not.mp fun ⟨first, second⟩ => different (Prod.ext first second)
    simp only [Bool.or_eq_true, Bool.and_eq_true, decide_eq_true_eq]
    omega

end PolicyMend
