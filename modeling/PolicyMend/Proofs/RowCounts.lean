import PolicyMend.Proofs.Basic
import PolicyMend.Proofs.RowBytes

/-!
Texts as rows, and how many rows a text has. Splitting a text and joining its rows are inverse to
each other, while the count of rows goes by newlines and leaves out a last row without characters.
Main statement: the two agree up to that row, and no column can be found on it.
-/

namespace PolicyMend.Text

variable {sep : Char}

theorem length_splitOn (cs : List Char) : (cs.splitOn sep).length = cs.count sep + 1 := by
  induction cs with
  | nil => rfl
  | cons c cs ih =>
    rw [List.splitOn_cons_eq_if_modifyHead, List.count_cons]
    split
    · rw [List.length_cons, ih]
    · rw [List.length_modifyHead, ih, Nat.add_zero]

theorem intercalate_concat {pieces : List (List Char)} (nonempty : pieces ≠ [])
    (piece : List Char) :
    [sep].intercalate (pieces ++ [piece]) = [sep].intercalate pieces ++ sep :: piece := by
  induction pieces with
  | nil => exact absurd rfl nonempty
  | cons first pieces ih =>
    cases pieces with
    | nil => simp [List.intercalate_cons_cons]
    | cons next pieces =>
      have later := ih (List.cons_ne_nil next pieces)
      rw [List.cons_append] at later
      rw [List.cons_append, List.cons_append, List.intercalate_cons_cons, later,
        List.intercalate_cons_cons, List.append_assoc (first ++ [sep])]

theorem getLast?_splitOn_eq_nil_iff (cs : List Char) :
    (cs.splitOn sep).getLast? = some [] ↔ cs = [] ∨ cs.getLast? = some sep := by
  constructor
  · intro last
    obtain ⟨before, split⟩ := List.getLast?_eq_some_iff.mp last
    have joined := @List.intercalate_splitOn _ cs _ _ sep
    rw [split] at joined
    cases before with
    | nil => exact .inl joined.symm
    | cons piece before =>
      right
      rw [← joined, intercalate_concat (List.cons_ne_nil piece before), List.getLast?_concat]
  · rintro (rfl | last)
    · rfl
    · obtain ⟨front, rfl⟩ := List.getLast?_eq_some_iff.mp last
      rw [List.splitOn_append_cons_self, List.splitOn_nil, List.getLast?_concat]

/-! ### Rows -/

theorem joinRows_splitRows (text : String) : joinRows (splitRows text) = text := by
  unfold joinRows splitRows
  rw [List.map_map]
  simp [Function.comp_def]

theorem newline_not_mem_splitRows {text row : String} (member : row ∈ splitRows text) :
    '\n' ∉ row.toList := by
  obtain ⟨cs, piece, rfl⟩ := List.mem_map.mp member
  rw [String.toList_ofList]
  exact not_mem_of_mem_splitOn piece

theorem splitRows_joinRows {rows : List String} (nonempty : rows ≠ [])
    (whole : ∀ row ∈ rows, '\n' ∉ row.toList) : splitRows (joinRows rows) = rows := by
  have pieces : ∀ piece ∈ rows.map String.toList, '\n' ∉ piece := by
    intro piece member
    obtain ⟨row, given, rfl⟩ := List.mem_map.mp member
    exact whole row given
  unfold splitRows joinRows
  rw [String.toList_ofList, Text.rows, unrows, List.splitOn_intercalate _ pieces
    (by simpa using nonempty), List.map_map]
  simp [Function.comp_def]

theorem length_splitRows (text : String) :
    (splitRows text).length = text.toList.count '\n' + 1 := by
  rw [splitRows, List.length_map, rows, length_splitOn]

theorem getLast?_splitRows_eq_empty_iff (text : String) :
    (splitRows text).getLast? = some "" ↔
      text.toList = [] ∨ text.toList.getLast? = some '\n' := by
  rw [← getLast?_splitOn_eq_nil_iff, splitRows, rows, List.getLast?_map, Option.map_eq_some_iff]
  constructor
  · rintro ⟨piece, last, empty⟩
    obtain rfl : piece = [] := by simpa using empty
    exact last
  · intro last
    exact ⟨[], last, rfl⟩

theorem rowCount_eq {text : String} (few : text.toList.count '\n' < UInt32.size - 1) :
    (rowCount text).toNat =
      (splitRows text).length - if (splitRows text).getLast? = some "" then 1 else 0 := by
  rw [UInt32.size] at few
  have newlines : (UInt32.ofNat (text.toList.count '\n')).toNat = text.toList.count '\n' :=
    UInt32.toNat_ofNat_of_lt' (by rw [UInt32.size]; omega)
  have last := getLast?_splitRows_eq_empty_iff text
  rw [length_splitRows]
  unfold rowCount
  dsimp only
  split
  · rename_i empty
    rw [if_pos (last.mpr (.inl empty)), empty]
    rfl
  · rename_i filled
    split
    · rename_i closed
      rw [if_pos (last.mpr (.inr closed)), newlines]
      omega
    · rename_i opened
      rw [if_neg fun none => (last.mp none).elim filled opened, UInt32.toNat_add, newlines]
      show (_ + 1) % 2 ^ 32 = _
      omega

/-- A column can only be found on a row with characters, so not on the row that is left out. -/
theorem index_lt_of_columnIndex {text line : String} {index offset : Nat} {col : UInt32}
    (found : (splitRows text)[index]? = some line)
    (column : columnIndex line.toList col = some offset) :
    index < (splitRows text).length - if (splitRows text).getLast? = some "" then 1 else 0 := by
  have short := (List.getElem?_eq_some_iff.mp found).1
  have filled := (columnIndex_eq_some_iff.mp column).2.1
  split
  · rename_i last
    have other : index ≠ (splitRows text).length - 1 := by
      rintro rfl
      rw [List.getLast?_eq_getElem?, found] at last
      rw [Option.some.inj last] at filled
      exact absurd filled (Nat.not_lt_zero offset)
    omega
  · omega

/-- Rows are a faithful decomposition of a text. The count of rows is theirs up to a last empty row,
so every place that rows and columns accept is on a row that is counted. -/
theorem splitRows_faithful (text : String) (lines : List String) :
    joinRows (splitRows text) = text ∧
    (∀ row ∈ splitRows text, '\n' ∉ row.toList) ∧
    (lines ≠ [] → (∀ line ∈ lines, '\n' ∉ line.toList) → splitRows (joinRows lines) = lines) ∧
    (text.toList.count '\n' < UInt32.size - 1 →
      (rowCount text).toNat =
        (splitRows text).length - (if (splitRows text).getLast? = some "" then 1 else 0) ∧
      ∀ row col index offset, rowIndex (splitRows text).length row = some index →
        ∀ line ∈ (splitRows text)[index]?, columnIndex line.toList col = some offset →
          1 ≤ row ∧ row ≤ rowCount text) := by
  refine ⟨joinRows_splitRows text, fun row => newline_not_mem_splitRows, splitRows_joinRows,
    fun few => ⟨rowCount_eq few, ?_⟩⟩
  intro row col index offset known line found column
  obtain ⟨number, -⟩ := rowIndex_eq_some_iff.mp known
  have counted := index_lt_of_columnIndex found column
  rw [← rowCount_eq few] at counted
  rw [UInt32.le_iff_toNat_le, UInt32.le_iff_toNat_le]
  exact ⟨by show 1 ≤ row.toNat; omega, by omega⟩

/-- A blank row in between, a last row of two bytes, and a newline at the end. -/
theorem splitRows_faithful_blankRow :
    splitRows (joinRows ["", "a", ""]) = ["", "a", ""] ∧
      (rowCount "a\n\né\n").toNat = (splitRows "a\n\né\n").length - 1 ∧
      (1 : UInt32) ≤ 3 ∧ 3 ≤ rowCount "a\n\né\n" := by
  obtain ⟨-, -, joined, counted⟩ := splitRows_faithful "a\n\né\n" ["", "a", ""]
  obtain ⟨count, inside⟩ := counted (by decide)
  refine ⟨joined (by decide) (by decide), count.trans (by decide +kernel), ?_⟩
  exact inside 3 1 2 0 (by decide +kernel) "é" (by decide +kernel) (by decide +kernel)

end PolicyMend.Text
