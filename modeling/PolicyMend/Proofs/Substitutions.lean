import PolicyMend.Proofs.FixerTurns
import PolicyMend.Proofs.Insertions

/-!
What the fixers that substitute do, told by bytes. A location leads to the first target byte from
its column on, and the bytes beside it decide whether something is set there. Main statement: a
fixer changes all of these places at once, as it finds them in the text as it was.
-/

namespace PolicyMend.Fix

open Text (byteLength bytes isBoundary byteBefore byteAfter)

/-- A rule that sets something beside a target, given a test of the bytes beside it. -/
structure Insertion where
  target : Char
  ahead : List Char
  behind : List Char
  fits : Option UInt8 → Option UInt8 → Bool

def loneEquals (left right : Option UInt8) : Bool :=
  ([':', '=', '!', '<', '>'].all fun c => left ≠ some c.toUInt8) && right ≠ some '='.toUInt8

/-- A comment mark with a byte after it that is no blank and no other mark. -/
def opensComment (_ right : Option UInt8) : Bool :=
  right.any fun b => [' ', '\t', '#', '!'].all fun c => b ≠ c.toUInt8

def Builtin.insertion? : Builtin → Option Insertion
  | useAssignmentOperator => some ⟨'=', [':'], [], loneEquals⟩
  | preferEqualsComparison => some ⟨'=', [], ['='], loneEquals⟩
  | noWhitespaceComment => some ⟨'#', [], [' '], opensComment⟩
  | _ => none

/-- The first byte of a target at or after a column, which falls on a character of the row. -/
def FirstFrom (target : Char) (row : List Char) (col : UInt32) (offset : Nat) : Prop :=
  ∃ start < byteLength row, col.toNat = start + 1 ∧ isBoundary row start = true ∧
    start ≤ offset ∧ (bytes row)[offset]? = some target.toUInt8 ∧
    ∀ i < offset, start ≤ i → (bytes row)[i]? ≠ some target.toUInt8

instance (target : Char) (row : List Char) (col : UInt32) (offset : Nat) :
    Decidable (FirstFrom target row col offset) :=
  inferInstanceAs (Decidable (∃ start < byteLength row, _))

namespace Insertion

def Located (i : Insertion) (rows : List (List Char)) (locations : List Location)
    (place : Nat × Nat) : Prop :=
  ∃ row ∈ rows[place.1]?, ∃ l ∈ locations, l.row.toNat = place.1 + 1 ∧
    FirstFrom i.target row l.col place.2

/-- A place to which one of the locations leads, and where the bytes beside it let something be
set. -/
def Guarded (i : Insertion) (rows : List (List Char)) (locations : List Location)
    (place : Nat × Nat) : Prop :=
  i.Located rows locations place ∧
    ∃ row ∈ rows[place.1]?, i.fits (byteBefore row place.2) (byteAfter row place.2) = true

instance (i : Insertion) (rows : List (List Char)) (locations : List Location)
    (place : Nat × Nat) : Decidable (i.Located rows locations place) :=
  inferInstanceAs (Decidable (∃ row ∈ rows[place.1]?, _))

instance (i : Insertion) (rows : List (List Char)) (locations : List Location)
    (place : Nat × Nat) : Decidable (i.Guarded rows locations place) :=
  inferInstanceAs (Decidable (_ ∧ ∃ row ∈ rows[place.1]?, _))

end Insertion

/-! ### Bytes and characters -/

section

variable {target : Char} {row : List Char} {col : UInt32} {offset : Nat}

/-- The first target byte from a column on, as the parts of the row around it. -/
theorem firstFrom_iff (ascii : target.toNat < 128) :
    FirstFrom target row col offset ↔ ∃ front gap tail, row = front ++ (gap ++ target :: tail) ∧
      col.toNat = byteLength front + 1 ∧ target ∉ gap ∧
      byteLength front + byteLength gap = offset := by
  constructor
  · rintro ⟨start, -, colEq, boundary, beyond, found, first⟩
    obtain ⟨front, after, rfl, rfl⟩ := Text.isBoundary_iff.mp boundary
    rw [Text.getElem?_bytes_append beyond] at found
    obtain ⟨gap, tail, rfl, length⟩ := (Text.getElem?_bytes_eq_iff ascii).mp found
    refine ⟨front, gap, tail, rfl, colEq, ?_, by omega⟩
    intro member
    -- A target in the gap would come first.
    obtain ⟨before, inner, rfl⟩ := List.append_of_mem member
    have size := target.utf8Size_pos
    simp only [Text.byteLength_append, byteLength] at length
    refine first (byteLength front + byteLength before) (by omega) (Nat.le_add_right _ _) ?_
    refine (Text.getElem?_bytes_eq_iff ascii).mpr ⟨front ++ before, inner ++ target :: tail, ?_, ?_⟩
    · simp
    · exact Text.byteLength_append front before
  · rintro ⟨front, gap, tail, rfl, colEq, free, rfl⟩
    have size := target.utf8Size_pos
    refine ⟨byteLength front, ?_, colEq, Text.isBoundary_iff.mpr ⟨front, _, rfl, rfl⟩,
      Nat.le_add_right _ _, ?_, ?_⟩
    · simp only [Text.byteLength_append, byteLength]
      omega
    · refine (Text.getElem?_bytes_eq_iff ascii).mpr ⟨front ++ gap, tail, ?_, ?_⟩
      · rw [List.append_assoc]
      · exact Text.byteLength_append front gap
    · intro p before beyond found
      have inside : p - byteLength front < (bytes gap).length := by
        rw [Text.length_bytes]
        omega
      rw [Text.getElem?_bytes_append beyond, Text.bytes_append,
        List.getElem?_append_left inside] at found
      obtain ⟨before, after, rfl, -⟩ := (Text.getElem?_bytes_eq_iff ascii).mp found
      exact free (by simp)

theorem loneEquals_bytes (before after : List Char) :
    loneEquals (bytes before).getLast? (bytes after).head? =
      Substitution.standsAlone before.getLast? after.head? := by
  simp (disch := decide) [loneEquals, Substitution.standsAlone, Text.getLast?_bytes_eq_iff,
    Text.head?_bytes_eq_iff, Bool.and_assoc]

theorem opensComment_eq (left right : Option UInt8) :
    opensComment left right = !(right = none || right = some ' '.toUInt8 ||
      right = some '\t'.toUInt8 || right = some '#'.toUInt8 || right = some '!'.toUInt8) := by
  cases right with
  | none => rfl
  | some b => simp [opensComment, Bool.and_assoc]

theorem opensComment_bytes (before after : List Char) :
    opensComment (bytes before).getLast? (bytes after).head? =
      Substitution.spacedComment.allows before.getLast? after.head? := by
  rw [opensComment_eq]
  simp (disch := decide) only [Text.head?_bytes_eq_iff, Text.head?_bytes_eq_none_iff,
    Substitution.spacedComment]

end

/-! ### The places that change -/

/-- A substitution that does what a rule told by bytes asks for. -/
structure Insertion.Describes (i : Insertion) (s : Substitution) : Prop where
  target : i.target = s.target
  ascii : s.target.toNat < 128
  inserts : s.Inserts i.ahead i.behind
  fits : ∀ before after, i.fits (bytes before).getLast? (bytes after).head? =
    s.allows before.getLast? after.head?

theorem Builtin.exists_describes {b : Builtin} {i : Insertion} (rule : b.insertion? = some i) :
    ∃ s, i.Describes s ∧ b.fixer = .editing b.name s.edited? := by
  cases b with
  | useAssignmentOperator =>
    cases rule
    exact ⟨_, ⟨rfl, by decide, Substitution.assignment_inserts, loneEquals_bytes⟩, rfl⟩
  | preferEqualsComparison =>
    cases rule
    exact ⟨_, ⟨rfl, by decide, Substitution.comparison_inserts, loneEquals_bytes⟩, rfl⟩
  | noWhitespaceComment =>
    cases rule
    exact ⟨_, ⟨rfl, by decide, Substitution.spacedComment_inserts, opensComment_bytes⟩, rfl⟩
  | constantCondition => cases rule
  | redundantExistenceCheck => cases rule
  | directoryPackageMismatch besideTested => cases rule

namespace Insertion.Describes

variable {i : Insertion} {s : Substitution} {rows : List (List Char)} {locations : List Location}
  {place : Nat × Nat}

theorem mem_targets_iff (describes : i.Describes s) :
    place ∈ s.targets rows locations ↔ i.Located rows locations place := by
  rw [Substitution.targets, List.mem_filterMap]
  constructor
  · rintro ⟨l, given, located⟩
    obtain ⟨rowEq, front, gap, tail, found, colEq, free, length⟩ :=
      Substitution.locate_eq_some_iff.mp located
    refine ⟨_, found, l, given, rowEq, ?_⟩
    rw [describes.target, firstFrom_iff describes.ascii]
    exact ⟨front, gap, tail, rfl, colEq, free, length⟩
  · rintro ⟨row, found, l, given, rowEq, first⟩
    rw [describes.target, firstFrom_iff describes.ascii] at first
    obtain ⟨front, gap, tail, rfl, colEq, free, length⟩ := first
    exact ⟨l, given, Substitution.locate_eq_some_iff.mpr
      ⟨rowEq, front, gap, tail, found, colEq, free, length⟩⟩

/-- What stands beside a place may be read by bytes as well as by characters. -/
theorem allowedAt_eq (describes : i.Describes s) {row : List Char}
    (found : rows[place.1]? = some row) (target : s.HasTarget rows place) :
    s.allowedAt rows place = i.fits (byteBefore row place.2) (byteAfter row place.2) := by
  obtain ⟨before, after, found', length⟩ := target
  obtain rfl : row = before ++ s.target :: after := Option.some.inj (found.symm.trans found')
  obtain ⟨index, offset⟩ := place
  dsimp only at found length ⊢
  subst length
  rw [Substitution.allowedAt_eq found, Text.byteBefore_append,
    Text.byteAfter_append describes.ascii, describes.fits]

/-- The places at which a substitution sets something are the guarded ones. -/
theorem chosen_iff (describes : i.Describes s) :
    s.chosen rows locations place = true ↔ i.Guarded rows locations place := by
  rw [Substitution.chosen, Substitution.replaced, Bool.and_eq_true, decide_eq_true_eq,
    Insertion.Guarded, ← describes.mem_targets_iff]
  refine and_congr_right fun listed => ?_
  obtain ⟨l, -, located⟩ := List.mem_filterMap.mp listed
  have target := Substitution.locate_hasTarget located
  obtain ⟨row, found⟩ : ∃ row, rows[place.1]? = some row := by
    obtain ⟨before, after, found, -⟩ := target
    exact ⟨_, found⟩
  rw [describes.allowedAt_eq found target]
  constructor
  · intro fits
    exact ⟨_, found, fits⟩
  · rintro ⟨row, found', fits⟩
    obtain rfl := Option.some.inj (found.symm.trans found')
    exact fits

theorem chosen_eq (describes : i.Describes s) :
    s.chosen rows locations = fun place => decide (i.Guarded rows locations place) := by
  funext place
  rw [Bool.eq_iff_iff, decide_eq_true_eq, describes.chosen_iff]

end Insertion.Describes

theorem Insertion.guarded_congr {i : Insertion} {rows : List (List Char)}
    {locations others : List Location} (same : ∀ l, l ∈ locations ↔ l ∈ others)
    (place : Nat × Nat) : i.Guarded rows locations place ↔ i.Guarded rows others place := by
  simp only [Insertion.Guarded, Insertion.Located, same]

/-! ### The result -/

def Insertion.inserted (i : Insertion) (contents : String) (locations : List Location) : String :=
  let rows := Text.rows contents.toList
  String.ofList (Text.unrows (Substitution.insertedRows i.ahead i.behind
    (fun place => decide (i.Guarded rows locations place)) rows))

theorem Insertion.inserted_congr {i : Insertion} {contents : String}
    {locations others : List Location} (same : ∀ l, l ∈ locations ↔ l ∈ others) :
    i.inserted contents locations = i.inserted contents others := by
  simp only [Insertion.inserted, Insertion.guarded_congr same]

theorem Insertion.Describes.edited?_eq_some_iff {i : Insertion} {s : Substitution}
    (describes : i.Describes s) {contents text : String} {locations : List Location} :
    s.edited? contents locations = some text ↔
      (∃ place, i.Guarded (Text.rows contents.toList) locations place) ∧
        text = i.inserted contents locations := by
  rw [Substitution.edited?_eq_some_iff describes.inserts, describes.chosen_eq]
  simp only [decide_eq_true_eq, Insertion.inserted]

theorem Insertion.Describes.edited?_congr {i : Insertion} {s : Substitution}
    (describes : i.Describes s) (contents : String) {locations others : List Location}
    (same : ∀ l, l ∈ locations ↔ l ∈ others) :
    s.edited? contents locations = s.edited? contents others := by
  refine Option.ext fun text => ?_
  rw [describes.edited?_eq_some_iff, describes.edited?_eq_some_iff, Insertion.inserted_congr same]
  simp only [Insertion.guarded_congr same]

/-- A fixer that substitutes changes all guarded places at once and nothing else, whatever the order
in which they are reported and however often. -/
theorem Builtin.substitutes_at_once {b : Builtin} {i : Insertion} (rule : b.insertion? = some i)
    (candidate : Candidate) (options : Options) :
    (b.fixer.fix candidate (some options) = .ok [] ↔
      ∀ place, ¬i.Guarded (Text.rows candidate.contents.toList) options.locations place) ∧
    ((∃ place, i.Guarded (Text.rows candidate.contents.toList) options.locations place) →
      b.fixer.fix candidate (some options) = .ok [{
        title := b.name
        root := options.baseDir
        contents := i.inserted candidate.contents options.locations
        sourceHash := .compute candidate.contents }]) ∧
    ∀ locations, (∀ l, l ∈ locations ↔ l ∈ options.locations) →
      b.fixer.fix candidate (some { options with locations }) =
        b.fixer.fix candidate (some options) := by
  obtain ⟨s, describes, made⟩ := Builtin.exists_describes rule
  rw [made]
  refine ⟨?_, ?_, ?_⟩
  · rw [Fixer.editing_fix_eq_nil_iff, Option.eq_none_iff_forall_ne_some]
    constructor
    · intro none place guarded
      exact none _ (describes.edited?_eq_some_iff.mpr ⟨⟨place, guarded⟩, rfl⟩)
    · intro none text edited
      obtain ⟨⟨place, guarded⟩, -⟩ := describes.edited?_eq_some_iff.mp edited
      exact none place guarded
  · intro guarded
    exact Fixer.editing_fix_of_eq_some (describes.edited?_eq_some_iff.mpr ⟨guarded, rfl⟩)
  · intro locations same
    rw [Fixer.editing_fix, Fixer.editing_fix, describes.edited?_congr candidate.contents same]

/-- Two targets, one met from three columns and one behind a character of two bytes; a column inside
that character, an operator that is left alone and a row that is not there. -/
theorem Builtin.substitutes_at_once_row :
    useAssignmentOperator.insertion? = some ⟨'=', [':'], [], loneEquals⟩ ∧
      useAssignmentOperator.fixer.fix ⟨"a.rego", "x=é=y == z"⟩
        (some ⟨"/p", [⟨1, 4, none⟩, ⟨1, 5, none⟩, ⟨1, 3, none⟩, ⟨1, 1, none⟩, ⟨1, 2, none⟩,
          ⟨1, 1, none⟩, ⟨1, 6, none⟩, ⟨2, 1, none⟩]⟩) = .ok [{
        title := "use-assignment-operator"
        root := "/p"
        contents := "x:=é:=y == z"
        sourceHash := .compute "x=é=y == z" }] := by
  refine ⟨rfl, ?_⟩
  rw [(Builtin.substitutes_at_once rfl _ _).2.1 ⟨(0, 1), by decide⟩, Except.ok.injEq,
    List.cons.injEq, Edit.mk.injEq]
  exact ⟨⟨rfl, rfl, by decide +kernel, rfl, rfl⟩, rfl⟩

end PolicyMend.Fix
