import Mathlib.Data.List.Basic
import PolicyMend.Text.Rows

/-!
Rows as bytes. Rows are held as characters and addressed by byte offsets; here the offsets of a row
are tied to the parts it has there and to its bytes in UTF-8. Main statement: a byte below 128 is a
character of its own, so an ASCII character can be looked for among the bytes.
-/

namespace PolicyMend.Text

/-! ### Offsets -/

theorem byteLength_append (a b : List Char) :
    byteLength (a ++ b) = byteLength a + byteLength b := by
  induction a with
  | nil => simp [byteLength]
  | cons c a ih =>
    simp only [List.cons_append, byteLength, ih]
    omega

theorem splitAtByte_append (a b : List Char) :
    splitAtByte (a ++ b) (byteLength a) = some (a, b) := by
  induction a with
  | nil => cases b <;> rfl
  | cons c a ih =>
    have size := c.utf8Size_pos
    obtain ⟨n, offset⟩ : ∃ n, byteLength (c :: a) = n + 1 :=
      ⟨byteLength (c :: a) - 1, by simp only [byteLength]; omega⟩
    have rest : n + 1 - c.utf8Size = byteLength a := by
      simp only [byteLength] at offset
      omega
    rw [offset, List.cons_append, splitAtByte, if_pos (by simp only [byteLength] at offset; omega),
      rest, ih]
    rfl

theorem splitAtByte_eq_some_iff {row before after : List Char} {offset : Nat} :
    splitAtByte row offset = some (before, after) ↔
      row = before ++ after ∧ byteLength before = offset := by
  refine ⟨fun split => ?_, ?_⟩
  · induction row generalizing offset before with
    | nil =>
      cases offset with
      | zero => cases split; exact ⟨rfl, rfl⟩
      | succ offset => cases split
    | cons c row ih =>
      cases offset with
      | zero => cases split; exact ⟨rfl, rfl⟩
      | succ offset =>
        rw [splitAtByte] at split
        split at split
        · next fits =>
          obtain ⟨⟨front, back⟩, rest, eq⟩ := Option.map_eq_some_iff.mp split
          cases eq
          obtain ⟨rfl, length⟩ := ih rest
          refine ⟨rfl, ?_⟩
          simp only [byteLength]
          omega
        · cases split
  · rintro ⟨rfl, rfl⟩
    exact splitAtByte_append before after

theorem isBoundary_iff {row : List Char} {offset : Nat} :
    isBoundary row offset = true ↔ ∃ before after, row = before ++ after ∧
      byteLength before = offset := by
  rw [isBoundary, Option.isSome_iff_exists]
  constructor
  · rintro ⟨⟨before, after⟩, split⟩
    exact ⟨before, after, splitAtByte_eq_some_iff.mp split⟩
  · rintro ⟨before, after, parts⟩
    exact ⟨(before, after), splitAtByte_eq_some_iff.mpr parts⟩

theorem le_byteLength_of_isBoundary {row : List Char} {offset : Nat}
    (boundary : isBoundary row offset = true) : offset ≤ byteLength row := by
  obtain ⟨before, after, rfl, rfl⟩ := isBoundary_iff.mp boundary
  rw [byteLength_append]
  exact Nat.le_add_right _ _

/-- A boundary at or before the end of the first part of a row is one of that part. -/
theorem isBoundary_append_iff {a b : List Char} {offset : Nat} (inside : offset ≤ byteLength a) :
    isBoundary (a ++ b) offset = true ↔ isBoundary a offset = true := by
  rw [isBoundary_iff, isBoundary_iff]
  constructor
  · rintro ⟨before, after, parts, length⟩
    rcases List.append_eq_append_iff.mp parts with ⟨rest, rfl, rfl⟩ | ⟨rest, rfl, rfl⟩
    · rw [byteLength_append] at length
      have none : rest = [] := by
        cases rest with
        | nil => rfl
        | cons c rest =>
          have size := c.utf8Size_pos
          simp only [byteLength] at length
          omega
      subst none
      exact ⟨a, [], by simp, by simpa [byteLength] using length⟩
    · exact ⟨before, rest, rfl, length⟩
  · rintro ⟨before, after, rfl, length⟩
    exact ⟨before, after ++ b, by simp, length⟩

/-- No boundary lies inside a character. -/
theorem isBoundary_append_cons {a b : List Char} {c : Char} {offset : Nat}
    (boundary : isBoundary (a ++ c :: b) offset = true) :
    offset ≤ byteLength a ∨ byteLength a + c.utf8Size ≤ offset := by
  obtain ⟨before, after, parts, rfl⟩ := isBoundary_iff.mp boundary
  rcases List.append_eq_append_iff.mp parts with ⟨rest, rfl, tail⟩ | ⟨rest, rfl, -⟩
  · cases rest with
    | nil => exact .inl (by simp)
    | cons d rest =>
      obtain ⟨rfl, -⟩ := List.cons.inj tail
      right
      simp only [byteLength_append, byteLength]
      omega
  · left
    rw [byteLength_append]
    omega

theorem rowIndex_eq_some_iff {count index : Nat} {row : UInt32} :
    rowIndex count row = some index ↔ row.toNat = index + 1 ∧ index < count := by
  unfold rowIndex
  cases row.toNat with
  | zero => simp
  | succ n =>
    simp only [Option.ite_none_right_eq_some, Option.some.injEq]
    omega

theorem columnIndex_eq_some_iff {row : List Char} {col : UInt32} {offset : Nat} :
    columnIndex row col = some offset ↔
      col.toNat = offset + 1 ∧ offset < byteLength row ∧ isBoundary row offset = true := by
  unfold columnIndex
  cases col.toNat with
  | zero => simp
  | succ n =>
    simp only [Option.ite_none_right_eq_some, Option.some.injEq, Bool.and_eq_true,
      decide_eq_true_eq, Nat.add_right_cancel_iff]
    constructor
    · rintro ⟨fits, rfl⟩
      exact ⟨rfl, fits⟩
    · rintro ⟨rfl, fits⟩
      exact ⟨fits, rfl⟩

theorem endColumnIndex_eq_some_iff {row : List Char} {col : UInt32} {offset : Nat} :
    endColumnIndex row col = some offset ↔
      col.toNat = offset + 1 ∧ offset ≤ byteLength row ∧ isBoundary row offset = true := by
  unfold endColumnIndex
  cases col.toNat with
  | zero => simp
  | succ n =>
    simp only [Option.ite_none_right_eq_some, Option.some.injEq, Bool.and_eq_true,
      decide_eq_true_eq, Nat.add_right_cancel_iff]
    constructor
    · rintro ⟨fits, rfl⟩
      exact ⟨rfl, fits⟩
    · rintro ⟨rfl, fits⟩
      exact ⟨fits, rfl⟩

/-! ### Bytes -/

def bytes (row : List Char) : List UInt8 := row.flatMap String.utf8EncodeChar

theorem bytes_cons (c : Char) (row : List Char) :
    bytes (c :: row) = String.utf8EncodeChar c ++ bytes row := List.flatMap_cons

theorem bytes_append (a b : List Char) : bytes (a ++ b) = bytes a ++ bytes b :=
  List.flatMap_append

theorem length_bytes (row : List Char) : (bytes row).length = byteLength row := by
  induction row with
  | nil => rfl
  | cons c row ih =>
    rw [bytes_cons, List.length_append, String.length_utf8EncodeChar, ih, byteLength]

theorem utf8EncodeChar_ascii {c : Char} (ascii : c.toNat < 128) :
    String.utf8EncodeChar c = [c.toUInt8] := by
  have small : c.val.toNat ≤ 127 := Nat.le_of_lt_succ ascii
  rw [String.utf8EncodeChar, if_pos small]
  rfl

theorem le_of_mem_utf8EncodeChar {c : Char} (large : 128 ≤ c.toNat) {b : UInt8}
    (member : b ∈ String.utf8EncodeChar c) : 128 ≤ b.toNat := by
  have wide : ¬c.val.toNat ≤ 127 := Nat.not_le_of_lt large
  rw [String.utf8EncodeChar, if_neg wide] at member
  split at member
  · simp only [List.mem_cons, List.not_mem_nil, or_false] at member
    rcases member with rfl | rfl <;> rw [UInt8.toNat_ofNat'] <;> omega
  · split at member
    · simp only [List.mem_cons, List.not_mem_nil, or_false] at member
      rcases member with rfl | rfl | rfl <;> rw [UInt8.toNat_ofNat'] <;> omega
    · simp only [List.mem_cons, List.not_mem_nil, or_false] at member
      rcases member with rfl | rfl | rfl | rfl <;> rw [UInt8.toNat_ofNat'] <;> omega

theorem toNat_toUInt8 {c : Char} (ascii : c.toNat < 128) : c.toUInt8.toNat = c.toNat :=
  Nat.mod_eq_of_lt (Nat.lt_trans ascii (by decide))

theorem eq_of_mem_utf8EncodeChar {c d : Char} (ascii : c.toNat < 128)
    (member : c.toUInt8 ∈ String.utf8EncodeChar d) : d = c := by
  by_cases small : d.toNat < 128
  · rw [utf8EncodeChar_ascii small, List.mem_singleton] at member
    have same := congrArg UInt8.toNat member
    rw [toNat_toUInt8 ascii, toNat_toUInt8 small] at same
    exact (Char.toNat_inj.mp same).symm
  · have large := le_of_mem_utf8EncodeChar (Nat.le_of_not_lt small) member
    rw [toNat_toUInt8 ascii] at large
    omega

/-- After the first part of a row come the bytes of the other. -/
theorem getElem?_bytes_append {a : List Char} {offset : Nat} (beyond : byteLength a ≤ offset)
    (b : List Char) : (bytes (a ++ b))[offset]? = (bytes b)[offset - byteLength a]? := by
  rw [← length_bytes] at beyond ⊢
  rw [bytes_append, List.getElem?_append_right beyond]

/-- The byte of an ASCII character stands exactly where the character does. -/
theorem getElem?_bytes_eq_iff {c : Char} (ascii : c.toNat < 128) {row : List Char} {offset : Nat} :
    (bytes row)[offset]? = some c.toUInt8 ↔
      ∃ before after, row = before ++ c :: after ∧ byteLength before = offset := by
  constructor
  · intro found
    induction row generalizing offset with
    | nil => cases found
    | cons d row ih =>
      rw [bytes_cons] at found
      by_cases inside : offset < (String.utf8EncodeChar d).length
      · rw [List.getElem?_append_left inside] at found
        obtain rfl := eq_of_mem_utf8EncodeChar ascii (List.mem_of_getElem? found)
        rw [utf8EncodeChar_ascii ascii, List.length_singleton] at inside
        exact ⟨[], row, rfl, by simp only [byteLength]; omega⟩
      · have least := Nat.le_of_not_lt inside
        rw [List.getElem?_append_right least] at found
        obtain ⟨before, after, rfl, length⟩ := ih found
        rw [String.length_utf8EncodeChar] at least length
        exact ⟨d :: before, after, rfl, by simp only [byteLength]; omega⟩
  · rintro ⟨before, after, rfl, rfl⟩
    rw [getElem?_bytes_append (Nat.le_refl _), Nat.sub_self, bytes_cons, utf8EncodeChar_ascii ascii]
    rfl

theorem head?_bytes_eq_iff {c : Char} (ascii : c.toNat < 128) {row : List Char} :
    (bytes row).head? = some c.toUInt8 ↔ row.head? = some c := by
  cases row with
  | nil => simp [bytes]
  | cons d row =>
    rw [bytes_cons, List.head?_append_of_ne_nil _ String.utf8EncodeChar_ne_nil, List.head?_cons,
      Option.some.injEq]
    constructor
    · intro first
      exact eq_of_mem_utf8EncodeChar ascii (List.mem_of_head? first)
    · rintro rfl
      rw [utf8EncodeChar_ascii ascii]
      rfl

theorem getLast?_bytes_eq_iff {c : Char} (ascii : c.toNat < 128) {row : List Char} :
    (bytes row).getLast? = some c.toUInt8 ↔ row.getLast? = some c := by
  rcases List.eq_nil_or_concat row with rfl | ⟨row, d, rfl⟩
  · simp [bytes]
  · rw [List.concat_eq_append, bytes_append, List.getLast?_concat, Option.some.injEq]
    have last : bytes [d] = String.utf8EncodeChar d := by rw [bytes_cons]; exact List.append_nil _
    rw [last, List.getLast?_append_of_ne_nil _ String.utf8EncodeChar_ne_nil]
    constructor
    · intro first
      exact eq_of_mem_utf8EncodeChar ascii (List.mem_of_getLast? first)
    · rintro rfl
      rw [utf8EncodeChar_ascii ascii]
      rfl

theorem head?_bytes_eq_none_iff {row : List Char} :
    (bytes row).head? = none ↔ row.head? = none := by
  cases row with
  | nil => simp [bytes]
  | cons c row =>
    rw [bytes_cons]
    simp

/-! ### Beside an offset -/

def byteBefore (row : List Char) (offset : Nat) : Option UInt8 := ((bytes row).take offset).getLast?

/-- The byte after the one at an offset. -/
def byteAfter (row : List Char) (offset : Nat) : Option UInt8 := (bytes row)[offset + 1]?

theorem byteBefore_append (before after : List Char) :
    byteBefore (before ++ after) (byteLength before) = (bytes before).getLast? := by
  rw [byteBefore, bytes_append, ← length_bytes, List.take_left]

theorem byteAfter_append {c : Char} (ascii : c.toNat < 128) (before after : List Char) :
    byteAfter (before ++ c :: after) (byteLength before) = (bytes after).head? := by
  rw [byteAfter, getElem?_bytes_append (Nat.le_add_right _ 1), Nat.add_sub_cancel_left, bytes_cons,
    utf8EncodeChar_ascii ascii]
  exact List.head?_eq_getElem?.symm

end PolicyMend.Text
