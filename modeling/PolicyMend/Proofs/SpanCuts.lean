import PolicyMend.Fix.SpanRemoval
import PolicyMend.Proofs.RowBytes

/-!
Spans of a row and what is left when they are cut out one after the other. Main statement: the spans
that a removal takes do not get in each other's way, so cutting them one by one leaves exactly the
characters that lie in none of them.
-/

namespace PolicyMend

namespace Fix.SpanRemoval

open Text (byteLength splitAtByte isBoundary)

/-! ### Outside of spans -/

/-- The characters of a row, which starts at an offset, that lie in none of some spans. -/
def outside (spans : List (Nat × Nat)) : Nat → List Char → List Char
  | _, [] => []
  | offset, c :: row =>
    let rest := outside spans (offset + c.utf8Size) row
    if spans.any fun span => span.1 ≤ offset && offset + c.utf8Size ≤ span.2 then rest
    else c :: rest

theorem outside_append (spans : List (Nat × Nat)) (offset : Nat) (a b : List Char) :
    outside spans offset (a ++ b) =
      outside spans offset a ++ outside spans (offset + byteLength a) b := by
  induction a generalizing offset with
  | nil => rfl
  | cons c a ih =>
    simp only [List.cons_append, outside, ih, byteLength, Nat.add_assoc]
    split <;> rfl

theorem outside_sublist (spans : List (Nat × Nat)) (offset : Nat) (row : List Char) :
    (outside spans offset row).Sublist row := by
  induction row generalizing offset with
  | nil => exact List.Sublist.slnil
  | cons c row ih =>
    simp only [outside]
    split
    · exact (ih _).cons c
    · exact (ih _).cons_cons c

/-- The more spans, the less is outside. -/
theorem outside_sublist_of_subset {spans more : List (Nat × Nat)} (subset : spans ⊆ more)
    (offset : Nat) (row : List Char) :
    (outside more offset row).Sublist (outside spans offset row) := by
  induction row generalizing offset with
  | nil => exact List.Sublist.slnil
  | cons c row ih =>
    simp only [outside]
    split
    · split
      · exact ih _
      · exact (ih _).cons c
    · next free =>
      rw [if_neg]
      · exact (ih _).cons_cons c
      · intro taken
        obtain ⟨span, member, inside⟩ := List.any_eq_true.mp taken
        exact free (List.any_eq_true.mpr ⟨span, subset member, inside⟩)

theorem outside_of_right {spans : List (Nat × Nat)} {offset : Nat}
    (right : ∀ span ∈ spans, span.2 ≤ offset) (row : List Char) :
    outside spans offset row = row := by
  induction row generalizing offset with
  | nil => rfl
  | cons c row ih =>
    have size := c.utf8Size_pos
    have free : ¬(spans.any fun span =>
        span.1 ≤ offset && offset + c.utf8Size ≤ span.2) = true := by
      intro taken
      obtain ⟨span, member, inside⟩ := List.any_eq_true.mp taken
      have ends := right span member
      simp only [Bool.and_eq_true, decide_eq_true_eq] at inside
      omega
    simp only [outside, if_neg free]
    rw [ih fun span member => Nat.le_trans (right span member) (Nat.le_add_right _ _)]

theorem outside_cons_of_left {span : Nat × Nat} {offset : Nat} {row : List Char}
    (left : offset + byteLength row ≤ span.1) (spans : List (Nat × Nat)) :
    outside (span :: spans) offset row = outside spans offset row := by
  induction row generalizing offset with
  | nil => rfl
  | cons c row ih =>
    have size := c.utf8Size_pos
    simp only [byteLength] at left
    have before : (decide (span.1 ≤ offset) && decide (offset + c.utf8Size ≤ span.2)) = false := by
      rw [decide_eq_false (by omega), Bool.false_and]
    simp only [outside, List.any_cons, before, Bool.false_or]
    rw [ih (by omega)]

theorem outside_cons_of_inside {span : Nat × Nat} {offset : Nat} {row : List Char}
    (starts : span.1 ≤ offset) (stops : offset + byteLength row ≤ span.2)
    (spans : List (Nat × Nat)) : outside (span :: spans) offset row = [] := by
  induction row generalizing offset with
  | nil => rfl
  | cons c row ih =>
    simp only [byteLength] at stops
    have inside : (decide (span.1 ≤ offset) && decide (offset + c.utf8Size ≤ span.2)) = true := by
      rw [decide_eq_true starts, decide_eq_true (by omega), Bool.and_self]
    simp only [outside, List.any_cons, inside, Bool.true_or, ↓reduceIte]
    exact ih (by omega) (by omega)

/-! ### Cutting -/

/-- Spans from right to left, each of which stops before the last one starts. -/
def Leftward (spans : List (Nat × Nat)) : Prop :=
  spans.Pairwise fun earlier later => later.2 ≤ earlier.1

structure Fits (row : List Char) (span : Nat × Nat) : Prop where
  ordered : span.1 ≤ span.2
  start : isBoundary row span.1 = true
  stop : isBoundary row span.2 = true

theorem Fits.parts {row : List Char} {span : Nat × Nat} (fits : Fits row span) :
    ∃ before inner after, row = before ++ (inner ++ after) ∧ byteLength before = span.1 ∧
      byteLength (before ++ inner) = span.2 := by
  obtain ⟨front, after, rfl, stop⟩ := Text.isBoundary_iff.mp fits.stop
  have start := (Text.isBoundary_append_iff (stop ▸ fits.ordered)).mp fits.start
  obtain ⟨before, inner, rfl, length⟩ := Text.isBoundary_iff.mp start
  exact ⟨before, inner, after, by simp, length, stop⟩

theorem cut?_eq {before inner : List Char} {span : Nat × Nat} (start : byteLength before = span.1)
    (stop : byteLength (before ++ inner) = span.2) (after : List Char) :
    cut? (before ++ (inner ++ after)) span = some (before ++ after) := by
  have first := Text.splitAtByte_append before (inner ++ after)
  have second := Text.splitAtByte_append (before ++ inner) after
  rw [List.append_assoc] at second
  simp [cut?, ← start, ← stop, first, second]

theorem cutAll_cons {before inner : List Char} {span : Nat × Nat}
    (start : byteLength before = span.1) (stop : byteLength (before ++ inner) = span.2)
    (after : List Char) (spans : List (Nat × Nat)) :
    cutAll (before ++ (inner ++ after)) (span :: spans) = cutAll (before ++ after) spans := by
  rw [cutAll, List.foldl_cons, cut?_eq start stop]
  rfl

/-- A span still fits when something was cut to the right of it. -/
theorem Fits.of_left {before inner after : List Char} {span : Nat × Nat}
    (fits : Fits (before ++ (inner ++ after)) span) (left : span.2 ≤ byteLength before) :
    Fits (before ++ after) span := by
  have starts := Nat.le_trans fits.ordered left
  refine ⟨fits.ordered, ?_, ?_⟩
  · exact (Text.isBoundary_append_iff starts).mpr
      ((Text.isBoundary_append_iff starts).mp fits.start)
  · exact (Text.isBoundary_append_iff left).mpr ((Text.isBoundary_append_iff left).mp fits.stop)

/-- When its turn comes, each of the spans fits what is left of the row. -/
theorem fits_cutAll {row : List Char} {done todo : List (Nat × Nat)} {span : Nat × Nat}
    (leftward : Leftward (done ++ span :: todo))
    (fits : ∀ other ∈ done ++ span :: todo, Fits row other) : Fits (cutAll row done) span := by
  induction done generalizing row with
  | nil => exact fits span List.mem_cons_self
  | cons first done ih =>
    obtain ⟨left, leftward⟩ := List.pairwise_cons.mp leftward
    obtain ⟨before, inner, after, rfl, start, stop⟩ := (fits first List.mem_cons_self).parts
    rw [cutAll_cons start stop]
    refine ih leftward fun other member => ?_
    exact (fits other (List.mem_cons_of_mem first member)).of_left (start ▸ left other member)

theorem cutAll_eq_outside {row : List Char} {spans : List (Nat × Nat)} (leftward : Leftward spans)
    (fits : ∀ span ∈ spans, Fits row span) : cutAll row spans = outside spans 0 row := by
  induction spans generalizing row with
  | nil => exact (outside_of_right (by simp) row).symm
  | cons span spans ih =>
    obtain ⟨left, leftward⟩ := List.pairwise_cons.mp leftward
    obtain ⟨before, inner, after, rfl, start, stop⟩ := (fits span List.mem_cons_self).parts
    -- The spans to come lie in what stands before this one.
    have later : ∀ other ∈ spans, Fits (before ++ after) other := fun other member =>
      (fits other (List.mem_cons_of_mem span member)).of_left (start ▸ left other member)
    have right : ∀ other ∈ spans, other.2 ≤ 0 + byteLength before := by
      intro other member
      rw [Nat.zero_add, start]
      exact left other member
    have beyond : ∀ other ∈ span :: spans, other.2 ≤ byteLength before + byteLength inner := by
      rw [← Text.byteLength_append, stop]
      intro other member
      rcases List.mem_cons.mp member with rfl | later
      · exact Nat.le_refl _
      · exact Nat.le_trans (left other later) (fits span List.mem_cons_self).ordered
    rw [cutAll_cons start stop, ih leftward later, outside_append, outside_append, outside_append]
    rw [outside_of_right right, outside_cons_of_left (by omega), Nat.zero_add]
    rw [outside_cons_of_inside (by omega) (by rw [← Text.byteLength_append]; omega)]
    rw [outside_of_right beyond, List.nil_append]

/-! ### The spans that are taken -/

def taken (rows : List (List Char)) (locations : List Location) (index : Nat) : List (Nat × Nat) :=
  select none (descending (onRow (locations.filterMap (locate rows)) index))

theorem select_sublist (last : Option Nat) (spans : List (Nat × Nat)) :
    (select last spans).Sublist spans := by
  induction spans generalizing last with
  | nil => exact List.Sublist.slnil
  | cons span spans ih =>
    obtain ⟨start, stop⟩ := span
    simp only [select]
    split
    · exact (ih last).cons _
    · exact (ih (some start)).cons_cons _

theorem select_leftward {spans : List (Nat × Nat)} (ordered : ∀ span ∈ spans, span.1 ≤ span.2)
    (last : Option Nat) :
    Leftward (select last spans) ∧
      ∀ span ∈ select last spans, ∀ bound ∈ last, span.2 ≤ bound := by
  induction spans generalizing last with
  | nil => exact ⟨List.Pairwise.nil, by simp [select]⟩
  | cons span spans ih =>
    obtain ⟨start, stop⟩ := span
    have rest := fun other member => ordered other (List.mem_cons_of_mem (start, stop) member)
    simp only [select]
    split
    · exact ih rest last
    · next free =>
      obtain ⟨leftward, bounded⟩ := ih rest (some start)
      have starts : start ≤ stop := ordered (start, stop) List.mem_cons_self
      have stops : ∀ bound ∈ last, stop ≤ bound := by
        rintro bound ⟨⟩
        simpa using free
      refine ⟨List.pairwise_cons.mpr
        ⟨fun other member => bounded other member start rfl, leftward⟩, ?_⟩
      intro other member bound known
      rcases List.mem_cons.mp member with rfl | later
      · exact stops bound known
      · have before := bounded other later start rfl
        have after := stops bound known
        omega

theorem locate_eq_some_iff {rows : List (List Char)} {l : Location} {index : Nat}
    {span : Nat × Nat} :
    locate rows l = some (index, span) ↔ ∃ row stop, rows[index]? = some row ∧
      l.row.toNat = index + 1 ∧ l.col.toNat = span.1 + 1 ∧ l.stopOnRow = some stop ∧
      stop.toNat = span.2 + 1 ∧ span.1 < span.2 ∧ Fits row span := by
  constructor
  · intro located
    unfold locate at located
    obtain ⟨at_, known, located⟩ := Option.bind_eq_some_iff.mp located
    obtain ⟨row, found, located⟩ := Option.bind_eq_some_iff.mp located
    obtain ⟨start, starts, located⟩ := Option.bind_eq_some_iff.mp located
    obtain ⟨stopCol, onRow, located⟩ := Option.bind_eq_some_iff.mp located
    obtain ⟨stop, stops, located⟩ := Option.bind_eq_some_iff.mp located
    split at located
    · next forward =>
      cases located
      obtain ⟨rowEq, -⟩ := Text.rowIndex_eq_some_iff.mp known
      obtain ⟨colEq, -, startFits⟩ := Text.columnIndex_eq_some_iff.mp starts
      obtain ⟨stopEq, -, stopFits⟩ := Text.endColumnIndex_eq_some_iff.mp stops
      exact ⟨row, stopCol, found, rowEq, colEq, onRow, stopEq, forward,
        Nat.le_of_lt forward, startFits, stopFits⟩
    · cases located
  · rintro ⟨row, stopCol, found, rowEq, colEq, onRow, stopEq, forward, fits⟩
    have most := Text.le_byteLength_of_isBoundary fits.stop
    have short := (List.getElem?_eq_some_iff.mp found).1
    have known := Text.rowIndex_eq_some_iff.mpr ⟨rowEq, short⟩
    have starts := Text.columnIndex_eq_some_iff.mpr
      ⟨colEq, Nat.lt_of_lt_of_le forward most, fits.start⟩
    have stops := Text.endColumnIndex_eq_some_iff.mpr ⟨stopEq, most, fits.stop⟩
    simp only [locate, known, found, starts, onRow, stops, Option.bind_eq_bind, Option.bind_some,
      if_pos forward]
    rfl

theorem mem_descending_onRow {rows : List (List Char)} {locations : List Location} {index : Nat}
    {span : Nat × Nat} :
    span ∈ descending (onRow (locations.filterMap (locate rows)) index) ↔
      ∃ l ∈ locations, locate rows l = some (index, span) := by
  rw [descending, mem_sortDistinct, onRow, List.mem_map]
  constructor
  · rintro ⟨⟨at_, found⟩, kept, rfl⟩
    obtain ⟨listed, same⟩ := List.mem_filter.mp kept
    obtain ⟨l, given, located⟩ := List.mem_filterMap.mp listed
    obtain rfl : at_ = index := by simpa using same
    exact ⟨l, given, located⟩
  · rintro ⟨l, given, located⟩
    refine ⟨(index, span), List.mem_filter.mpr ⟨?_, by simp⟩, rfl⟩
    exact List.mem_filterMap.mpr ⟨l, given, located⟩

theorem mem_taken {rows : List (List Char)} {locations : List Location} {index : Nat}
    {span : Nat × Nat} (member : span ∈ taken rows locations index) :
    ∃ l ∈ locations, locate rows l = some (index, span) :=
  mem_descending_onRow.mp ((select_sublist _ _).subset member)

theorem taken_fits {rows : List (List Char)} {locations : List Location} {index : Nat}
    {row : List Char} (found : rows[index]? = some row) :
    ∀ span ∈ taken rows locations index, Fits row span := by
  intro span member
  obtain ⟨l, -, located⟩ := mem_taken member
  obtain ⟨row', -, found', -, -, -, -, -, fits⟩ := locate_eq_some_iff.mp located
  rw [found] at found'
  cases found'
  exact fits

theorem taken_leftward (rows : List (List Char)) (locations : List Location) (index : Nat) :
    Leftward (taken rows locations index) := by
  refine (select_leftward (fun span member => ?_) none).1
  obtain ⟨l, -, located⟩ := mem_descending_onRow.mp member
  obtain ⟨row, stop, -, -, -, -, -, -, fits⟩ := locate_eq_some_iff.mp located
  exact fits.ordered

/-- A removal leaves of a row exactly what lies in none of the spans it takes. -/
theorem cutAll_taken {rows : List (List Char)} {index : Nat} {row : List Char}
    (found : rows[index]? = some row) (locations : List Location) :
    cutAll row (taken rows locations index) = outside (taken rows locations index) 0 row :=
  cutAll_eq_outside (taken_leftward rows locations index) (taken_fits found)

end Fix.SpanRemoval

end PolicyMend
