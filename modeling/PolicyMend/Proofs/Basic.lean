import Mathlib.Data.List.Infix

/-!
Steps that can fail, read backwards: what a result says about the steps that led to it. Pieces of a
text between separators, and what a scan up to a separator takes.
-/

namespace PolicyMend

section Results

variable {ε α β : Type}

theorem ok_bind (a : α) (f : α → Except ε β) : (Except.ok a >>= f) = f a := rfl

theorem bind_ok {x : Except ε α} {f : α → Except ε β} {b : β} (ran : x >>= f = .ok b) :
    ∃ a, x = .ok a ∧ f a = .ok b := by
  cases x with
  | error e => cases ran
  | ok a => exact ⟨a, rfl, ran⟩

theorem map_eq_ok {x : Except ε α} {f : α → β} {b : β} (mapped : x.map f = .ok b) :
    ∃ a, x = .ok a ∧ f a = b := by
  cases x with
  | error e => cases mapped
  | ok a =>
    cases mapped
    exact ⟨a, rfl, rfl⟩

theorem map_eq_error {x : Except ε α} {f : α → β} {e : ε} (mapped : x.map f = .error e) :
    x = .error e := by
  cases x with
  | error cause =>
    cases mapped
    rfl
  | ok a => cases mapped

end Results

namespace Text

variable {sep : Char}

/-- A piece is made of characters of the text, and no separator is among them. -/
theorem piece_of_mem_splitOn {cs piece : List Char} (member : piece ∈ cs.splitOn sep) :
    sep ∉ piece ∧ piece ⊆ cs := by
  induction cs generalizing piece with
  | nil =>
    obtain rfl := List.mem_singleton.mp member
    exact ⟨List.not_mem_nil, List.Subset.refl []⟩
  | cons c cs ih =>
    rw [List.splitOn_cons_eq_if_modifyHead] at member
    split at member
    · rcases List.mem_cons.mp member with rfl | later
      · exact ⟨List.not_mem_nil, List.nil_subset _⟩
      · exact ⟨(ih later).1, List.subset_cons_of_subset c (ih later).2⟩
    · next other =>
      cases pieces : cs.splitOn sep with
      | nil => exact absurd pieces (List.splitOn_ne_nil sep cs)
      | cons first rest =>
        rw [pieces] at member ih
        rcases List.mem_cons.mp member with rfl | later
        · obtain ⟨apart, inside⟩ := ih List.mem_cons_self
          have apart' : sep ≠ c := by
            rintro rfl
            simp at other
          exact ⟨by simp [apart, apart'], List.cons_subset_cons c inside⟩
        · obtain ⟨apart, inside⟩ := ih (List.mem_cons_of_mem first later)
          exact ⟨apart, List.subset_cons_of_subset c inside⟩

theorem not_mem_of_mem_splitOn {cs piece : List Char} (member : piece ∈ cs.splitOn sep) :
    sep ∉ piece := (piece_of_mem_splitOn member).1

theorem decide_ne_of_mem {piece : List Char} (whole : sep ∉ piece) :
    ∀ c ∈ piece, decide (c ≠ sep) = true := by
  intro c member
  rw [decide_eq_true_eq]
  rintro rfl
  exact whole member

theorem takeWhile_ne_append {piece : List Char} (whole : sep ∉ piece) (rest : List Char) :
    (piece ++ sep :: rest).takeWhile (· ≠ sep) = piece := by
  rw [List.takeWhile_append_of_pos (decide_ne_of_mem whole)]
  simp

theorem dropWhile_ne_append {piece : List Char} (whole : sep ∉ piece) (rest : List Char) :
    (piece ++ sep :: rest).dropWhile (· ≠ sep) = sep :: rest := by
  rw [List.dropWhile_append_of_pos (decide_ne_of_mem whole)]
  simp

end Text

end PolicyMend
