/-!
Sorting that keeps one of equal elements. A list is sorted by putting its elements one by one into
their place; `mem_sortDistinct` says that none is lost.
-/

namespace PolicyMend

variable {α : Type} [DecidableEq α]

/-- Puts an element into its place in a sorted list, unless it is there already. -/
def insertDistinct (before : α → α → Bool) (a : α) : List α → List α
  | [] => [a]
  | b :: rest =>
    if a = b then b :: rest
    else if before a b then a :: b :: rest
    else b :: insertDistinct before a rest

def sortDistinct (before : α → α → Bool) (elements : List α) : List α :=
  elements.foldr (insertDistinct before) []

/-- Distinct texts in ascending order of their code points. -/
def ascending (texts : List String) : List String :=
  sortDistinct (fun a b => a < b) texts

/-- Distinct pairs of numbers in descending order: by the first number, then by the second. -/
def descending (pairs : List (Nat × Nat)) : List (Nat × Nat) :=
  sortDistinct (fun a b => b.1 < a.1 || (a.1 = b.1 && b.2 < a.2)) pairs

@[simp] theorem mem_insertDistinct (before : α → α → Bool) (a x : α) (elements : List α) :
    x ∈ insertDistinct before a elements ↔ x = a ∨ x ∈ elements := by
  induction elements with
  | nil => simp [insertDistinct]
  | cons b rest ih =>
    simp only [insertDistinct]
    split
    · next same => simp [same]
    · split
      · simp
      · simp [ih, or_left_comm]

@[simp] theorem mem_sortDistinct (before : α → α → Bool) (x : α) (elements : List α) :
    x ∈ sortDistinct before elements ↔ x ∈ elements := by
  induction elements with
  | nil => simp [sortDistinct]
  | cons a rest ih =>
    have step : sortDistinct before (a :: rest) =
        insertDistinct before a (sortDistinct before rest) := rfl
    rw [step, mem_insertDistinct, ih, List.mem_cons]

end PolicyMend
