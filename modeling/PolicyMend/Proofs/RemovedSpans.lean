import Mathlib.Data.List.Sort
import PolicyMend.Proofs.MarkedSpans
import PolicyMend.Proofs.Sorting

/-!
What the fixers that remove do, told by bytes. The valid spans of a row are gone through from the
right and each is kept that does not reach into the last one kept. Main statement: a fixer that
removes deletes exactly the bytes of the spans that are kept, and it returns a text whenever there
is a valid span.
-/

namespace PolicyMend.Fix

open Text (byteLength bytes isBoundary)

namespace SpanRemoval

/-! ### The spans that are kept -/

/-- The span of a location that is valid in some rows: its row is there, it stops on the same row,
both ends are boundaries of it and the first is inside. -/
def ValidSpan (rows : List (List Char)) (l : Location) (index : Nat) (span : Nat × Nat) : Prop :=
  ∃ row ∈ rows[index]?, l.row.toNat = index + 1 ∧ l.col.toNat = span.1 + 1 ∧
    (∃ stop ∈ l.stop, stop.row = l.row ∧ stop.col.toNat = span.2 + 1) ∧
    span.1 < byteLength row ∧ isBoundary row span.1 = true ∧
    span.2 ≤ byteLength row ∧ isBoundary row span.2 = true ∧ span.1 < span.2

instance (rows : List (List Char)) (l : Location) (index : Nat) (span : Nat × Nat) :
    Decidable (ValidSpan rows l index span) :=
  inferInstanceAs (Decidable (∃ row ∈ rows[index]?, _))

def Precedes (span other : Nat × Nat) : Prop :=
  other.1 < span.1 ∨ span.1 = other.1 ∧ other.2 < span.2

instance (span other : Nat × Nat) : Decidable (Precedes span other) :=
  inferInstanceAs (Decidable (_ ∨ _ ∧ _))

/-- The last one kept of the spans that are gone through before some span. -/
def lastBefore (kept : List (Nat × Nat)) (span : Nat × Nat) : Option (Nat × Nat) :=
  (kept.filter fun other => Precedes other span).getLast?

/-- The spans that are kept of the valid ones: a span is, if it stops at or before the start of the
last one kept before it. -/
structure Picked (valid : Nat × Nat → Prop) (kept : List (Nat × Nat)) : Prop where
  sorted : kept.Pairwise Precedes
  mem_iff : ∀ span, span ∈ kept ↔ valid span ∧ ∀ last ∈ lastBefore kept span, span.2 ≤ last.1

theorem Precedes.trans {a b c : Nat × Nat} (first : Precedes a b) (second : Precedes b c) :
    Precedes a c := by
  unfold Precedes at *
  omega

theorem Precedes.irrefl (a : Nat × Nat) : ¬Precedes a a := by
  unfold Precedes
  omega

theorem Precedes.asymm {a b : Nat × Nat} (first : Precedes a b) : ¬Precedes b a := by
  unfold Precedes at *
  omega

instance : Std.Irrefl Precedes := ⟨Precedes.irrefl⟩

instance : Std.Antisymm Precedes := ⟨fun _ _ first second => absurd second first.asymm⟩

theorem lastBefore_eq_none {kept : List (Nat × Nat)} {span : Nat × Nat}
    (first : ∀ other ∈ kept, ¬Precedes other span) : lastBefore kept span = none := by
  rw [lastBefore, List.getLast?_eq_none_iff, List.filter_eq_nil_iff]
  intro other member before
  exact first other member (of_decide_eq_true before)

theorem lastBefore_cons {kept : List (Nat × Nat)} {first span : Nat × Nat}
    (before : Precedes first span) :
    lastBefore (first :: kept) span = (lastBefore kept span).or (some first) := by
  have there : decide (Precedes first span) = true := decide_eq_true before
  rw [lastBefore, List.filter_cons, if_pos there, List.getLast?_cons, ← lastBefore]
  cases lastBefore kept span <;> rfl

/-- A selection passes a span over only if it reaches into the last one that was taken. -/
theorem mem_select_iff {spans : List (Nat × Nat)} (sorted : spans.Pairwise Precedes)
    (last : Option Nat) (span : Nat × Nat) :
    span ∈ select last spans ↔ span ∈ spans ∧
      ∀ bound ∈ ((lastBefore (select last spans) span).map Prod.fst).or last, span.2 ≤ bound := by
  induction spans generalizing last with
  | nil => simp [select]
  | cons first spans ih =>
    obtain ⟨start, stop⟩ := first
    obtain ⟨before, sortedRest⟩ := List.pairwise_cons.mp sorted
    have later : ∀ bound, ∀ other ∈ select bound spans, Precedes (start, stop) other :=
      fun bound other member => before other ((select_sublist bound spans).subset member)
    simp only [select]
    split
    -- In both cases nothing that was taken from the rest comes before the first span.
    · next refused =>
      by_cases same : span = (start, stop)
      · subst same
        rw [lastBefore_eq_none fun other member => (later last other member).asymm]
        constructor
        · intro member
          exact absurd (later last _ member) (Precedes.irrefl _)
        · rintro ⟨-, bounded⟩
          cases last with
          | none => cases refused
          | some bound =>
            have most : stop ≤ bound := bounded bound rfl
            have less : bound < stop := of_decide_eq_true refused
            omega
      · rw [ih sortedRest, List.mem_cons]
        simp only [same, false_or]
    · next free =>
      by_cases same : span = (start, stop)
      · subst same
        refine ⟨fun _ => ⟨List.mem_cons_self, ?_⟩, fun _ => List.mem_cons_self⟩
        rw [lastBefore_eq_none]
        · rintro bound ⟨⟩
          simpa using free
        · intro other member
          rcases List.mem_cons.mp member with rfl | taken
          · exact Precedes.irrefl _
          · exact (later _ other taken).asymm
      · rw [List.mem_cons, List.mem_cons, ih sortedRest]
        simp only [same, false_or]
        refine and_congr_right fun listed => ?_
        rw [lastBefore_cons (before span listed)]
        cases lastBefore (select (some start) spans) span <;> rfl

theorem length_filter_precedes_lt {spans : List (Nat × Nat)} {span other : Nat × Nat}
    (listed : other ∈ spans) (before : Precedes other span) :
    (spans.filter fun x => Precedes x other).length <
      (spans.filter fun x => Precedes x span).length := by
  have sub : (spans.filter fun x => Precedes x other).Sublist
      (spans.filter fun x => Precedes x span) :=
    List.monotone_filter_right spans fun x first =>
      decide_eq_true ((of_decide_eq_true first).trans before)
  refine Nat.lt_of_le_of_ne sub.length_le fun same => ?_
  have member : other ∈ spans.filter fun x => Precedes x span :=
    List.mem_filter.mpr ⟨listed, decide_eq_true before⟩
  rw [← sub.eq_of_length same] at member
  exact Precedes.irrefl other (of_decide_eq_true (List.mem_filter.mp member).2)

namespace Picked

variable {valid : Nat × Nat → Prop} {kept kept' : List (Nat × Nat)}

/-- Whether a span is kept depends on those that precede it. -/
theorem mem_iff_mem (picked : Picked valid kept) (picked' : Picked valid kept')
    (span : Nat × Nat) : span ∈ kept ↔ span ∈ kept' := by
  induction count : ((kept ++ kept').filter fun other => Precedes other span).length
    using Nat.strongRecOn generalizing span with
  | ind n ih =>
    have same : (kept.filter fun other => Precedes other span) =
        kept'.filter fun other => Precedes other span := by
      refine (picked.sorted.filter _).eq_of_mem_iff (picked'.sorted.filter _) fun other => ?_
      rw [List.mem_filter, List.mem_filter]
      refine and_congr_left fun before => ?_
      by_cases listed : other ∈ kept ++ kept'
      · have fewer := length_filter_precedes_lt listed (of_decide_eq_true before)
        exact ih _ (count ▸ fewer) other rfl
      · rw [List.mem_append, not_or] at listed
        exact iff_of_false listed.1 listed.2
    rw [picked.mem_iff, picked'.mem_iff, lastBefore, lastBefore, same]

theorem unique (picked : Picked valid kept) (picked' : Picked valid kept') : kept = kept' :=
  picked.sorted.eq_of_mem_iff picked'.sorted (picked.mem_iff_mem picked')

end Picked

theorem stopOnRow_eq_some_iff {l : Location} {col : UInt32} :
    l.stopOnRow = some col ↔ ∃ stop ∈ l.stop, stop.row = l.row ∧ stop.col = col := by
  unfold Location.stopOnRow
  cases l.stop with
  | none => simp
  | some stop => simp

theorem locate_eq_some_iff_validSpan {rows : List (List Char)} {l : Location} {index : Nat}
    {span : Nat × Nat} : locate rows l = some (index, span) ↔ ValidSpan rows l index span := by
  rw [locate_eq_some_iff]
  constructor
  · rintro ⟨row, col, found, rowEq, colEq, stops, stopEq, forward, fits⟩
    obtain ⟨stop, given, onRow, rfl⟩ := stopOnRow_eq_some_iff.mp stops
    have most := Text.le_byteLength_of_isBoundary fits.stop
    exact ⟨row, found, rowEq, colEq, ⟨stop, given, onRow, stopEq⟩, Nat.lt_of_lt_of_le forward most,
      fits.start, most, fits.stop, forward⟩
  · rintro ⟨row, found, rowEq, colEq, ⟨stop, given, onRow, stopEq⟩, -, starts, -, stops, forward⟩
    exact ⟨row, stop.col, found, rowEq, colEq, stopOnRow_eq_some_iff.mpr ⟨stop, given, onRow, rfl⟩,
      stopEq, forward, Nat.le_of_lt forward, starts, stops⟩

/-- The spans that the locations take on a row are those that are kept of the valid ones. -/
theorem taken_picked (rows : List (List Char)) (locations : List Location) (index : Nat) :
    Picked (fun span => ∃ l ∈ locations, ValidSpan rows l index span)
      (taken rows locations index) := by
  have sorted : (descending (onRow (locations.filterMap (locate rows)) index)).Pairwise Precedes :=
    descending_pairwise _
  refine ⟨sorted.sublist (select_sublist none _), fun span => ?_⟩
  rw [taken, mem_select_iff sorted, mem_descending_onRow]
  simp only [locate_eq_some_iff_validSpan, Option.or_none]
  refine and_congr_right fun _ => ?_
  simp

theorem select_none_ne_nil {spans : List (Nat × Nat)} (nonempty : spans ≠ []) :
    select none spans ≠ [] := by
  cases spans with
  | nil => exact absurd rfl nonempty
  | cons span spans => exact List.cons_ne_nil _ _

theorem taken_ne_nil {rows : List (List Char)} {locations : List Location} {l : Location}
    {index : Nat} {span : Nat × Nat} (given : l ∈ locations) (valid : ValidSpan rows l index span) :
    taken rows locations index ≠ [] := by
  refine select_none_ne_nil (List.ne_nil_of_mem (a := span) ?_)
  exact mem_descending_onRow.mpr ⟨l, given, locate_eq_some_iff_validSpan.mpr valid⟩

/-! ### The bytes that are left -/

def spares (spans : List (Nat × Nat)) (place : UInt8 × Nat) : Bool :=
  spans.all fun span => place.2 < span.1 || span.2 ≤ place.2

theorem spares_eq_true_iff {spans : List (Nat × Nat)} {place : UInt8 × Nat} :
    spares spans place = true ↔ ∀ span ∈ spans, place.2 < span.1 ∨ span.2 ≤ place.2 := by
  simp [spares]

/-- A character is outside of spans that fit exactly if its bytes are spared. -/
theorem bytes_outside {spans : List (Nat × Nat)} {a b : List Char}
    (fits : ∀ span ∈ spans, Fits (a ++ b) span) :
    bytes (outside spans (byteLength a) b) =
      (((bytes b).zipIdx (byteLength a)).filter (spares spans)).map Prod.fst := by
  induction b generalizing a with
  | nil => rfl
  | cons c b ih =>
    have size := c.utf8Size_pos
    have rest := @ih (a ++ [c]) (by simpa using fits)
    have next : byteLength (a ++ [c]) = byteLength a + c.utf8Size := by
      simp [Text.byteLength_append, byteLength]
    rw [next] at rest
    have within : ∀ place ∈ (String.utf8EncodeChar c).zipIdx (byteLength a),
        byteLength a ≤ place.2 ∧ place.2 < byteLength a + c.utf8Size := by
      rintro ⟨x, i⟩ member
      obtain ⟨least, most, -⟩ := List.mem_zipIdx member
      rw [String.length_utf8EncodeChar] at most
      exact ⟨least, most⟩
    rw [Text.bytes_cons, List.zipIdx_append, String.length_utf8EncodeChar, List.filter_append,
      List.map_append, ← rest]
    simp only [outside]
    split
    · next inside =>
      obtain ⟨span, member, covers⟩ := List.any_eq_true.mp inside
      simp only [Bool.and_eq_true, decide_eq_true_eq] at covers
      rw [List.filter_eq_nil_iff.mpr]
      · rfl
      · intro place listed spared
        have apart := spares_eq_true_iff.mp spared span member
        have bounds := within place listed
        omega
    · next free =>
      rw [List.filter_eq_self.mpr, List.zipIdx_map_fst, Text.bytes_cons]
      intro place listed
      refine spares_eq_true_iff.mpr fun span member => ?_
      have bounds := within place listed
      have starts := Text.isBoundary_append_cons (fits span member).start
      have stops := Text.isBoundary_append_cons (fits span member).stop
      have misses : ¬(span.1 ≤ byteLength a ∧ byteLength a + c.utf8Size ≤ span.2) := by
        intro covers
        refine free (List.any_eq_true.mpr ⟨span, member, ?_⟩)
        simpa using covers
      omega

theorem bytes_cutAll_taken {rows : List (List Char)} {index : Nat} {row : List Char}
    (found : rows[index]? = some row) (locations : List Location) :
    bytes (cutAll row (taken rows locations index)) =
      ((bytes row).zipIdx.filter (spares (taken rows locations index))).map Prod.fst := by
  rw [cutAll_taken found]
  exact @bytes_outside _ [] row (taken_fits found)

theorem cutAll_taken_ne {rows : List (List Char)} {index : Nat} {row : List Char}
    (found : rows[index]? = some row) {locations : List Location}
    (cuts : taken rows locations index ≠ []) :
    cutAll row (taken rows locations index) ≠ row := by
  intro same
  obtain ⟨span, member⟩ := List.exists_mem_of_ne_nil _ cuts
  obtain ⟨l, -, located⟩ := mem_taken member
  obtain ⟨row', stop, found', -, -, -, -, forward, fits⟩ := locate_eq_some_iff.mp located
  obtain rfl : row = row' := Option.some.inj (found.symm.trans found')
  have left := congrArg List.length (bytes_cutAll_taken found locations)
  rw [same, List.length_map, ← @List.length_zipIdx _ (bytes row) 0] at left
  have all := List.length_filter_eq_length_iff.mp left.symm
  have short : span.1 < (bytes row).length := by
    rw [Text.length_bytes]
    exact Nat.lt_of_lt_of_le forward (Text.le_byteLength_of_isBoundary fits.stop)
  have there : ((bytes row)[span.1], span.1) ∈ (bytes row).zipIdx :=
    List.mem_zipIdx_iff_getElem?.mpr (List.getElem?_eq_getElem short)
  have spared := spares_eq_true_iff.mp (all _ there) span member
  omega

/-! ### The text that is left -/

/-- A row goes that had a span taken from it and something else than blanks in it, and has nothing
else left. -/
def Drops (emptied : Emptied) (row : List Char) (spans : List (Nat × Nat)) : Prop :=
  emptied = .dropped ∧ spans ≠ [] ∧ (∃ c ∈ row, Text.isBlank c = false) ∧
    ∀ c ∈ cutAll row spans, Text.isBlank c = true

theorem drops_iff {emptied : Emptied} {row : List Char} {spans : List (Nat × Nat)} :
    Drops emptied row spans ↔ (emptied = .dropped && !Text.isBlankRow row &&
      Text.isBlankRow (cutAll row spans)) = true := by
  simp only [Drops, Text.isBlankRow, Bool.and_eq_true, decide_eq_true_eq, Bool.not_eq_true',
    List.all_eq_false, List.all_eq_true, Bool.not_eq_true]
  constructor
  · rintro ⟨dropping, -, dark, blank⟩
    exact ⟨⟨dropping, dark⟩, blank⟩
  · rintro ⟨⟨dropping, c, member, dark⟩, blank⟩
    refine ⟨dropping, ?_, ⟨c, member, dark⟩, blank⟩
    rintro rfl
    have light := blank c member
    rw [dark] at light
    cases light

instance (emptied : Emptied) (row : List Char) (spans : List (Nat × Nat)) :
    Decidable (Drops emptied row spans) :=
  decidable_of_iff _ drops_iff.symm

theorem reduced_eq_ite (emptied : Emptied) (rows : List (List Char)) (locations : List Location)
    (place : List Char × Nat) :
    reduced emptied rows locations place =
      if Drops emptied place.1 (taken rows locations place.2) then none
      else some (cutAll place.1 (taken rows locations place.2)) := by
  rw [reduced_eq]
  simp only [drops_iff]

theorem filter_unrows {rows : List (List Char)} (whole : ∀ row ∈ rows, '\n' ∉ row) :
    (Text.unrows rows).filter (· ≠ '\n') = rows.flatten := by
  unfold Text.unrows
  induction rows with
  | nil => rfl
  | cons row rows ih =>
    have clean : row.filter (· ≠ '\n') = row :=
      List.filter_eq_self.mpr (Text.decide_ne_of_mem (whole row List.mem_cons_self))
    have rest := ih fun other member => whole other (List.mem_cons_of_mem row member)
    cases rows with
    | nil => simpa using clean
    | cons next rows =>
      rw [List.intercalate_cons_cons, List.append_assoc, List.filter_append, clean,
        List.flatten_cons, ← rest]
      simp

theorem length_flatMap_le {α β : Type} {f g : α → List β} {xs : List α}
    (sub : ∀ x ∈ xs, (f x).Sublist (g x)) : (xs.flatMap f).length ≤ (xs.flatMap g).length := by
  induction xs with
  | nil => exact Nat.le_refl _
  | cons x xs ih =>
    have first := (sub x List.mem_cons_self).length_le
    have rest := ih fun y member => sub y (List.mem_cons_of_mem x member)
    rw [List.flatMap_cons, List.flatMap_cons, List.length_append, List.length_append]
    omega

/-- Pieces that are taken from others piece by piece are the same if together they are. -/
theorem eq_of_flatMap_eq {α β : Type} {f g : α → List β} {xs : List α}
    (sub : ∀ x ∈ xs, (f x).Sublist (g x)) (same : xs.flatMap f = xs.flatMap g) :
    ∀ x ∈ xs, f x = g x := by
  induction xs with
  | nil => simp
  | cons x xs ih =>
    have subRest := fun y member => sub y (List.mem_cons_of_mem x member)
    have length := congrArg List.length same
    have most := (sub x List.mem_cons_self).length_le
    have mostRest := length_flatMap_le subRest
    rw [List.flatMap_cons, List.flatMap_cons] at same
    rw [List.flatMap_cons, List.flatMap_cons, List.length_append, List.length_append] at length
    have first : f x = g x := (sub x List.mem_cons_self).eq_of_length (by omega)
    rw [first] at same
    have rest := ih subRest (List.append_cancel_left same)
    intro y member
    rcases List.mem_cons.mp member with rfl | later
    · exact first
    · exact rest y later

theorem reduced_sublist {rows : List (List Char)} {place : List Char × Nat}
    (member : place ∈ rows.zipIdx) (emptied : Emptied) (locations : List Location) :
    ((reduced emptied rows locations place).getD []).Sublist place.1 := by
  have found := List.mem_zipIdx_iff_getElem?.mp member
  rw [reduced_eq_ite]
  split
  · exact List.nil_sublist _
  · rw [Option.getD_some, cutAll_taken found]
    exact outside_sublist _ 0 _

theorem unrows_leftRows_ne {emptied : Emptied} {text : List Char} {locations : List Location}
    {l : Location} {index : Nat} {span : Nat × Nat} (given : l ∈ locations)
    (valid : ValidSpan (Text.rows text) l index span) :
    Text.unrows (leftRows emptied (Text.rows text) locations) ≠ text := by
  intro same
  have cuts := taken_ne_nil given valid
  obtain ⟨row, found, -, -, -, inside, -⟩ := valid
  -- Without the newlines both texts are their rows, and each row was at most cut.
  have flat : (leftRows emptied (Text.rows text) locations).flatten = (Text.rows text).flatten := by
    rw [← filter_unrows (newline_not_mem_leftRows fun _ => Text.newline_not_mem_of_mem_rows),
      ← filter_unrows fun _ => Text.newline_not_mem_of_mem_rows, Text.unrows_rows, same]
  have whole : (Text.rows text).flatten = (Text.rows text).zipIdx.flatMap Prod.fst := by
    rw [List.flatMap_def, List.zipIdx_map_fst]
  rw [flatten_leftRows, whole] at flat
  have listed : (row, index) ∈ (Text.rows text).zipIdx := List.mem_zipIdx_iff_getElem?.mpr found
  have unchanged := eq_of_flatMap_eq
    (fun place member => reduced_sublist member emptied locations) flat (row, index) listed
  rw [reduced_eq_ite] at unchanged
  split at unchanged
  · obtain rfl : row = [] := unchanged.symm
    cases inside
  · exact cutAll_taken_ne found cuts unchanged

end SpanRemoval

/-! ### The result -/

open SpanRemoval

theorem Builtin.remove_eq_some {emptied : Emptied} {contents : String} {locations : List Location}
    (valid : ∃ l ∈ locations, ∃ index span, ValidSpan (Text.rows contents.toList) l index span) :
    remove emptied contents locations = some (String.ofList (Text.unrows
      (leftRows emptied (Text.rows contents.toList) locations))) := by
  obtain ⟨l, given, index, span, valid⟩ := valid
  have left := remove_getD emptied contents locations
  cases removed : remove emptied contents locations with
  | none =>
    rw [removed, Option.getD_none] at left
    have same := congrArg String.toList left
    rw [String.toList_ofList] at same
    exact absurd same.symm (unrows_leftRows_ne given valid)
  | some text =>
    rw [removed, Option.getD_some] at left
    rw [left]

theorem Builtin.remove_eq_none_iff {emptied : Emptied} {contents : String}
    {locations : List Location} :
    remove emptied contents locations = none ↔
      ∀ l ∈ locations, ¬∃ index span, ValidSpan (Text.rows contents.toList) l index span := by
  constructor
  · intro none l given valid
    rw [remove_eq_some ⟨l, given, valid⟩] at none
    cases none
  · intro invalid
    have idle : locations.filterMap (locate (Text.rows contents.toList)) = [] := by
      refine List.filterMap_eq_nil_iff.mpr fun l given => ?_
      rw [Option.eq_none_iff_forall_ne_some]
      rintro ⟨index, span⟩ located
      exact invalid l given ⟨index, span, locate_eq_some_iff_validSpan.mp located⟩
    simp [remove, edited?, idle]

/-- What the fixers that remove do with a row that is left blank. -/
def Builtin.removal? : Builtin → Option Emptied
  | constantCondition => some .dropped
  | redundantExistenceCheck => some .kept
  | _ => none

theorem Builtin.fixer_of_removal? {b : Builtin} {emptied : Emptied}
    (removes : b.removal? = some emptied) : b.fixer = .editing b.name (remove emptied) := by
  cases b with
  | constantCondition => cases removes; rfl
  | redundantExistenceCheck => cases removes; rfl
  | useAssignmentOperator => cases removes
  | preferEqualsComparison => cases removes
  | noWhitespaceComment => cases removes
  | directoryPackageMismatch besideTested => cases removes

/-- A fixer that removes cuts the kept spans out of each row, every one of them between two
characters of what is left of the row by then, and joins the rows that do not go. -/
theorem Builtin.removes_kept_spans {b : Builtin} {emptied : Emptied}
    (removes : b.removal? = some emptied) (candidate : Candidate) (options : Options) :
    let rows := Text.rows candidate.contents.toList
    let valid := fun l => ∃ index span, ValidSpan rows l index span
    ∃ kept : Nat → List (Nat × Nat),
      (∀ index spans,
        Picked (fun span => ∃ l ∈ options.locations, ValidSpan rows l index span) spans ↔
          spans = kept index) ∧
      (∀ index row, rows[index]? = some row →
        (∀ done span todo, kept index = done ++ span :: todo →
          isBoundary (cutAll row done) span.1 = true ∧
            isBoundary (cutAll row done) span.2 = true) ∧
        bytes (cutAll row (kept index)) =
          ((bytes row).zipIdx.filter (spares (kept index))).map Prod.fst) ∧
      (b.fixer.fix candidate (some options) = .ok [] ↔ ∀ l ∈ options.locations, ¬valid l) ∧
      ((∃ l ∈ options.locations, valid l) → b.fixer.fix candidate (some options) = .ok [{
        title := b.name
        root := options.baseDir
        contents := String.ofList (Text.unrows (rows.zipIdx.filterMap fun place =>
          if Drops emptied place.1 (kept place.2) then none
          else some (cutAll place.1 (kept place.2))))
        sourceHash := .compute candidate.contents }]) := by
  intro rows valid
  rw [Builtin.fixer_of_removal? removes]
  refine ⟨taken rows options.locations, fun index spans => ?_, fun index row found => ⟨?_, ?_⟩,
    ?_, fun present => ?_⟩
  · have picked := taken_picked rows options.locations index
    constructor
    · intro other
      exact other.unique picked
    · rintro rfl
      exact picked
  · intro done span todo parts
    have leftward := taken_leftward rows options.locations index
    have fits := @taken_fits rows options.locations index row found
    rw [parts] at leftward fits
    have fit := fits_cutAll leftward fits
    exact ⟨fit.start, fit.stop⟩
  · exact bytes_cutAll_taken found options.locations
  · rw [Fixer.editing_fix_eq_nil_iff, Builtin.remove_eq_none_iff]
  · have removed := @Builtin.remove_eq_some emptied candidate.contents options.locations present
    have left : leftRows emptied rows options.locations = rows.zipIdx.filterMap fun place =>
        if Drops emptied place.1 (taken rows options.locations place.2) then none
        else some (cutAll place.1 (taken rows options.locations place.2)) :=
      congrArg rows.zipIdx.filterMap (funext (reduced_eq_ite emptied rows options.locations))
    rw [Fixer.editing_fix_of_eq_some removed, left]

/-- A row that is emptied, and one where of three spans that overlap the first is kept, and one more
before them; beside these a start inside a character. -/
theorem Builtin.removes_kept_spans_rows :
    constantCondition.removal? = some .dropped ∧
      constantCondition.fixer.fix ⟨"a.rego", "x if y\n  true\né true é\n"⟩
        (some ⟨"/p", [⟨2, 3, some ⟨2, 7⟩⟩, ⟨3, 1, some ⟨3, 3⟩⟩, ⟨3, 4, some ⟨3, 8⟩⟩,
          ⟨3, 3, some ⟨3, 9⟩⟩, ⟨3, 4, some ⟨3, 9⟩⟩, ⟨3, 2, some ⟨3, 4⟩⟩]⟩) = .ok [{
        title := "constant-condition"
        root := "/p"
        contents := "x if y\n é\n"
        sourceHash := .compute "x if y\n  true\né true é\n" }] := by
  refine ⟨rfl, ?_⟩
  obtain ⟨kept, picked, -, -, result⟩ := @Builtin.removes_kept_spans constantCondition .dropped rfl
    ⟨"a.rego", "x if y\n  true\né true é\n"⟩
    ⟨"/p", [⟨2, 3, some ⟨2, 7⟩⟩, ⟨3, 1, some ⟨3, 3⟩⟩, ⟨3, 4, some ⟨3, 8⟩⟩,
      ⟨3, 3, some ⟨3, 9⟩⟩, ⟨3, 4, some ⟨3, 9⟩⟩, ⟨3, 2, some ⟨3, 4⟩⟩]⟩
  obtain rfl : taken _ _ = kept := funext fun index => (picked index _).mp (taken_picked _ _ index)
  rw [result ⟨_, List.mem_cons_self, 1, (2, 6), by decide⟩, Except.ok.injEq, List.cons.injEq,
    Edit.mk.injEq]
  exact ⟨⟨rfl, rfl, by decide +kernel, rfl, rfl⟩, rfl⟩

end PolicyMend.Fix
