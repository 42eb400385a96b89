import Mathlib.Data.List.Forall2
import PolicyMend.Fix.Substitution
import PolicyMend.Proofs.Basic
import PolicyMend.Proofs.Sorting
import PolicyMend.Proofs.SpanCuts

/-!
Substitution as insertion. The replacements hold the characters they replace, and since the targets
are taken from right to left each is still where it was found, beside the characters that were
beside it. Main statement: what the substitutions leave is the text as it was, with something set
beside every target whose neighbours allow it there.
-/

namespace PolicyMend

namespace Text

theorem rows_unrows {rows : List (List Char)} (whole : ∀ row ∈ rows, '\n' ∉ row)
    (nonempty : rows ≠ []) : Text.rows (unrows rows) = rows :=
  List.splitOn_intercalate '\n' whole nonempty

theorem newline_not_mem_of_mem_rows {text row : List Char} (member : row ∈ rows text) :
    '\n' ∉ row :=
  not_mem_of_mem_splitOn member

theorem rows_ne_nil (text : List Char) : rows text ≠ [] := List.splitOn_ne_nil '\n' text

/-- Rows that have others in them, each row one. -/
def Grown (rows more : List (List Char)) : Prop := List.Forall₂ List.Sublist rows more

theorem Grown.refl (rows : List (List Char)) : Grown rows rows :=
  List.forall₂_same.mpr fun row _ => List.Sublist.refl row

theorem Grown.trans {rows more most : List (List Char)} (first : Grown rows more)
    (second : Grown more most) : Grown rows most := by
  unfold Grown at *
  induction first generalizing most with
  | nil => exact second
  | cons row _ ih =>
    cases second with
    | cons longer rest => exact .cons (row.trans longer) (ih rest)

end Text

namespace Fix.Substitution

open Text (byteLength Grown)

/-- A row with something set beside the characters at some offsets. The row starts at `offset`. -/
def insertAt (ahead behind : List Char) (chosen : Nat → Bool) : Nat → List Char → List Char
  | _, [] => []
  | offset, c :: row =>
    (if chosen offset then ahead ++ c :: behind else [c]) ++
      insertAt ahead behind chosen (offset + c.utf8Size) row

def insertedRows (ahead behind : List Char) (chosen : Nat × Nat → Bool)
    (rows : List (List Char)) : List (List Char) :=
  rows.mapIdx fun index row => insertAt ahead behind (fun offset => chosen (index, offset)) 0 row

section

variable {ahead behind : List Char} {chosen chosen' : Nat → Bool}

theorem insertAt_append (offset : Nat) (a b : List Char) :
    insertAt ahead behind chosen offset (a ++ b) =
      insertAt ahead behind chosen offset a ++
        insertAt ahead behind chosen (offset + byteLength a) b := by
  induction a generalizing offset with
  | nil => rfl
  | cons c a ih => simp only [List.cons_append, insertAt, ih, byteLength, Nat.add_assoc,
      List.append_assoc]

theorem insertAt_congr {offset : Nat} {row : List Char}
    (same : ∀ p, offset ≤ p → p < offset + byteLength row → chosen p = chosen' p) :
    insertAt ahead behind chosen offset row = insertAt ahead behind chosen' offset row := by
  induction row generalizing offset with
  | nil => rfl
  | cons c row ih =>
    have size := c.utf8Size_pos
    simp only [byteLength] at same
    rw [insertAt, insertAt, same offset (Nat.le_refl _) (by omega)]
    rw [ih fun p least most => same p (by omega) (by omega)]

theorem insertAt_of_none {offset : Nat} {row : List Char}
    (none : ∀ p, offset ≤ p → p < offset + byteLength row → chosen p = false) :
    insertAt ahead behind chosen offset row = row := by
  induction row generalizing offset with
  | nil => rfl
  | cons c row ih =>
    have size := c.utf8Size_pos
    simp only [byteLength] at none
    rw [insertAt, none offset (Nat.le_refl _) (by omega)]
    rw [ih fun p least most => none p (by omega) (by omega)]
    rfl

theorem sublist_insertAt (offset : Nat) (row : List Char) :
    row.Sublist (insertAt ahead behind chosen offset row) := by
  induction row generalizing offset with
  | nil => exact List.Sublist.slnil
  | cons c row ih =>
    rw [insertAt, ← List.singleton_append]
    refine List.Sublist.append ?_ (ih _)
    split
    · exact List.singleton_sublist.mpr (by simp)
    · exact List.Sublist.refl _

theorem mem_of_mem_insertAt {offset : Nat} {row : List Char} {d : Char}
    (member : d ∈ insertAt ahead behind chosen offset row) :
    d ∈ row ∨ d ∈ ahead ∨ d ∈ behind := by
  induction row generalizing offset with
  | nil => cases member
  | cons c row ih =>
    rw [insertAt] at member
    rcases List.mem_append.mp member with here | later
    · split at here
      · simp only [List.mem_append, List.mem_cons] at here ⊢
        rcases here with first | rfl | last
        · exact .inr (.inl first)
        · exact .inl (.inl rfl)
        · exact .inr (.inr last)
      · exact .inl (List.mem_cons.mpr (.inl (List.mem_singleton.mp here)))
    · rcases ih later with inside | beside
      · exact .inl (List.mem_cons_of_mem c inside)
      · exact .inr beside

theorem getElem?_insertedRows {chosen : Nat × Nat → Bool} (rows : List (List Char))
    (index : Nat) :
    (insertedRows ahead behind chosen rows)[index]? =
      rows[index]?.map (insertAt ahead behind (fun offset => chosen (index, offset)) 0) :=
  List.getElem?_mapIdx

theorem grown_insertedRows (chosen : Nat × Nat → Bool) (rows : List (List Char)) :
    Grown rows (insertedRows ahead behind chosen rows) := by
  refine List.forall₂_iff_get.mpr ⟨by simp [insertedRows], fun i _ _ => ?_⟩
  simp only [insertedRows, List.get_eq_getElem, List.getElem_mapIdx]
  exact sublist_insertAt 0 _

end

/-- A rule whose replacement is the target with something beside it. What is set ahead of a target
does not come between it and another target before it, since there it would not be allowed. -/
structure Inserts (s : Substitution) (ahead behind : List Char) : Prop where
  replacement : s.replacement = ahead ++ s.target :: behind
  oneRow : '\n' ∉ s.replacement
  apart : ahead = [] ∨ ∀ right, s.allows (some s.target) right = false

theorem assignment_inserts : assignment.Inserts [':'] [] :=
  ⟨rfl, by decide, .inr fun _ => rfl⟩

theorem comparison_inserts : comparison.Inserts [] ['='] := ⟨rfl, by decide, .inl rfl⟩

theorem spacedComment_inserts : spacedComment.Inserts [] [' '] := ⟨rfl, by decide, .inl rfl⟩

/-- A target stands at a place, given by its row and the bytes before it. -/
def HasTarget (s : Substitution) (rows : List (List Char)) (place : Nat × Nat) : Prop :=
  ∃ before after, rows[place.1]? = some (before ++ s.target :: after) ∧ byteLength before = place.2

def allowedAt (s : Substitution) (rows : List (List Char)) (place : Nat × Nat) : Bool :=
  (rows[place.1]?.bind (s.replaceIn · place.2)).isSome

theorem replaceIn_append (s : Substitution) (before after : List Char) (c : Char) :
    s.replaceIn (before ++ c :: after) (byteLength before) =
      if s.allows before.getLast? after.head? then some (before ++ s.replacement ++ after)
      else none := by
  rw [replaceIn, Text.splitAtByte_append]

theorem allowedAt_eq {s : Substitution} {rows : List (List Char)} {index : Nat}
    {before after : List Char} {c : Char} (found : rows[index]? = some (before ++ c :: after)) :
    s.allowedAt rows (index, byteLength before) = s.allows before.getLast? after.head? := by
  rw [allowedAt, found, Option.bind_some, replaceIn_append]
  cases s.allows before.getLast? after.head? <;> rfl

/-- The target of a location: the row is as far as the column, then something without a target, and
then the target. -/
theorem locate_eq_some_iff {target : Char} {rows : List (List Char)} {l : Location}
    {index offset : Nat} :
    locate target rows l = some (index, offset) ↔ l.row.toNat = index + 1 ∧
      ∃ front gap tail, rows[index]? = some (front ++ (gap ++ target :: tail)) ∧
        l.col.toNat = byteLength front + 1 ∧ target ∉ gap ∧
        byteLength front + byteLength gap = offset := by
  constructor
  · intro located
    unfold locate at located
    obtain ⟨index, known, located⟩ := Option.bind_eq_some_iff.mp located
    obtain ⟨row, found, located⟩ := Option.bind_eq_some_iff.mp located
    obtain ⟨start, starts, located⟩ := Option.bind_eq_some_iff.mp located
    obtain ⟨⟨before, after⟩, split, located⟩ := Option.bind_eq_some_iff.mp located
    dsimp only at located
    split at located
    · next there =>
      cases located
      obtain ⟨rowEq, -⟩ := Text.rowIndex_eq_some_iff.mp known
      obtain ⟨colEq, -⟩ := Text.columnIndex_eq_some_iff.mp starts
      obtain ⟨rfl, rfl⟩ := Text.splitAtByte_eq_some_iff.mp split
      obtain ⟨gap, tail, rfl, free⟩ := List.eq_append_cons_of_mem there
      rw [Text.takeWhile_ne_append free]
      exact ⟨rowEq, before, gap, tail, found, colEq, free, rfl⟩
    · cases located
  · rintro ⟨rowEq, front, gap, tail, found, colEq, free, rfl⟩
    have size := target.utf8Size_pos
    have short := (List.getElem?_eq_some_iff.mp found).1
    have known := Text.rowIndex_eq_some_iff.mpr ⟨rowEq, short⟩
    have inside : byteLength front < byteLength (front ++ (gap ++ target :: tail)) := by
      simp only [Text.byteLength_append, byteLength]
      omega
    have starts := Text.columnIndex_eq_some_iff.mpr
      ⟨colEq, inside, Text.isBoundary_iff.mpr ⟨front, _, rfl, rfl⟩⟩
    simp only [locate, known, found, starts, Text.splitAtByte_append, Option.bind_eq_bind,
      Option.bind_some]
    rw [if_pos (by simp), Text.takeWhile_ne_append free]
    rfl

theorem locate_hasTarget {s : Substitution} {rows : List (List Char)} {l : Location}
    {place : Nat × Nat} (located : locate s.target rows l = some place) :
    s.HasTarget rows place := by
  obtain ⟨-, front, gap, tail, found, -, -, length⟩ := locate_eq_some_iff.mp located
  refine ⟨front ++ gap, tail, ?_, ?_⟩
  · rw [found, List.append_assoc]
  · rw [Text.byteLength_append, length]

/-! ### One step -/

/-- The places that were done and whose neighbours in the text as it was allow a replacement. -/
def replaced (s : Substitution) (rows : List (List Char)) (done : List (Nat × Nat))
    (place : Nat × Nat) : Bool :=
  decide (place ∈ done) && s.allowedAt rows place

/-- A place further right on the same row, or on a row below. -/
def Beyond (place other : Nat × Nat) : Prop :=
  place.1 < other.1 ∨ other.1 = place.1 ∧ place.2 < other.2

section Step

variable {s : Substitution} {ahead behind : List Char} {rows : List (List Char)}
  {done : List (Nat × Nat)} {index : Nat} {before after : List Char}

theorem replaced_of_not_beyond {place other : Nat × Nat}
    (beyond : ∀ other ∈ done, Beyond place other) (near : ¬Beyond place other) :
    s.replaced rows done other = false := by
  rw [replaced, decide_eq_false fun member => near (beyond other member), Bool.false_and]

/-- Up to the place that comes next, nothing has been inserted yet. -/
theorem insertAt_replaced (beyond : ∀ other ∈ done, Beyond (index, byteLength before) other) :
    insertAt ahead behind (fun offset => s.replaced rows done (index, offset)) 0
      (before ++ s.target :: after) = before ++ s.target ::
        insertAt ahead behind (fun offset => s.replaced rows done (index, offset))
          (byteLength before + s.target.utf8Size) after := by
  have here : s.replaced rows done (index, byteLength before) = false :=
    replaced_of_not_beyond beyond (by simp [Beyond])
  rw [insertAt_append, insertAt_of_none, insertAt, Nat.zero_add, here]
  · rfl
  · intro p _ inside
    refine replaced_of_not_beyond beyond ?_
    simp only [Beyond]
    omega

/-- The character after the place that comes next is the one that was there. -/
theorem head?_insertAt_replaced (inserts : s.Inserts ahead behind)
    (found : rows[index]? = some (before ++ s.target :: after)) :
    (insertAt ahead behind (fun offset => s.replaced rows done (index, offset))
      (byteLength before + s.target.utf8Size) after).head? = after.head? := by
  cases after with
  | nil => rfl
  | cons c after =>
    have split : rows[index]? = some ((before ++ [s.target]) ++ c :: after) := by
      rw [found]
      simp
    have length : byteLength (before ++ [s.target]) = byteLength before + s.target.utf8Size := by
      simp [Text.byteLength_append, byteLength]
    rw [insertAt, ← length]
    split
    · next chosen =>
      have allowed := (Bool.and_eq_true_iff.mp chosen).2
      rw [allowedAt_eq split, List.getLast?_concat] at allowed
      rcases inserts.apart with none | never
      · rw [none]
        rfl
      · rw [never] at allowed
        cases allowed
    · rfl

theorem replaced_cons_of_ne {place other : Nat × Nat} (different : other ≠ place) :
    s.replaced rows (place :: done) other = s.replaced rows done other := by
  simp [replaced, different]

theorem replaced_cons_of_not_allowed {place : Nat × Nat}
    (refused : s.allowedAt rows place = false) :
    s.replaced rows (place :: done) = s.replaced rows done := by
  funext other
  by_cases same : other = place
  · rw [replaced, replaced, same, refused, Bool.and_false, Bool.and_false]
  · exact replaced_cons_of_ne same

theorem insertAt_replaced_cons (inserts : s.Inserts ahead behind)
    (found : rows[index]? = some (before ++ s.target :: after))
    (allowed : s.allows before.getLast? after.head? = true)
    (beyond : ∀ other ∈ done, Beyond (index, byteLength before) other) :
    insertAt ahead behind
      (fun offset => s.replaced rows ((index, byteLength before) :: done) (index, offset)) 0
      (before ++ s.target :: after) = before ++ s.replacement ++
        insertAt ahead behind (fun offset => s.replaced rows done (index, offset))
          (byteLength before + s.target.utf8Size) after := by
  have size := s.target.utf8Size_pos
  have here : s.replaced rows ((index, byteLength before) :: done) (index, byteLength before) =
      true := by
    rw [replaced, allowedAt_eq found, allowed, decide_eq_true List.mem_cons_self, Bool.and_self]
  have elsewhere : ∀ p, p ≠ byteLength before →
      s.replaced rows ((index, byteLength before) :: done) (index, p) =
        s.replaced rows done (index, p) := fun p different =>
    replaced_cons_of_ne fun same => different (congrArg Prod.snd same)
  have front : insertAt ahead behind
      (fun offset => s.replaced rows ((index, byteLength before) :: done) (index, offset)) 0
      before = before := by
    refine insertAt_of_none fun p _ inside => ?_
    rw [elsewhere p (by omega)]
    refine replaced_of_not_beyond beyond ?_
    simp only [Beyond]
    omega
  have back := @insertAt_congr ahead behind _ _ (byteLength before + s.target.utf8Size) after
    fun p least _ => elsewhere p (by omega)
  rw [insertAt_append, front, insertAt, Nat.zero_add, if_pos here, back, inserts.replacement]
  simp only [List.append_assoc]

/-- A step at the place that comes next finds there what was there at first, and so it does what the
text as it was asks for. -/
theorem step_replaced (inserts : s.Inserts ahead behind) {place : Nat × Nat}
    (target : s.HasTarget rows place) (beyond : ∀ other ∈ done, Beyond place other)
    (changed : Bool) :
    s.step (insertedRows ahead behind (s.replaced rows done) rows, changed) place =
      (insertedRows ahead behind (s.replaced rows (place :: done)) rows,
        changed || s.allowedAt rows place) := by
  obtain ⟨index, offset⟩ := place
  obtain ⟨before, after, found, rfl⟩ := target
  dsimp only at found
  have tail := @head?_insertAt_replaced s ahead behind rows done index before after inserts found
  have allows := @allowedAt_eq s rows index before after s.target found
  rw [step]
  dsimp only
  rw [getElem?_insertedRows, found, Option.map_some, Option.bind_some, insertAt_replaced beyond,
    replaceIn_append, tail, allows]
  by_cases allowed : s.allows before.getLast? after.head? = true
  · rw [if_pos allowed, allowed, Bool.or_true]
    dsimp only
    congr 1
    have short := (List.getElem?_eq_some_iff.mp found).1
    refine List.ext_getElem? fun i => ?_
    rw [getElem?_insertedRows]
    by_cases same : i = index
    · subst same
      rw [List.getElem?_set_self (by simpa [insertedRows] using short), found, Option.map_some,
        insertAt_replaced_cons inserts found allowed beyond]
    · rw [List.getElem?_set_ne (Ne.symm same), getElem?_insertedRows]
      congr 2
      funext offset
      exact (replaced_cons_of_ne fun equal => same (congrArg Prod.fst equal)).symm
  · rw [if_neg allowed, Bool.eq_false_iff.mpr allowed, Bool.or_false]
    rw [replaced_cons_of_not_allowed (allows.trans (Bool.eq_false_iff.mpr allowed))]

end Step

/-! ### All steps -/

theorem foldl_step_replaced {s : Substitution} {ahead behind : List Char}
    (inserts : s.Inserts ahead behind) {rows : List (List Char)} {done todo : List (Nat × Nat)}
    (targets : ∀ place ∈ todo, s.HasTarget rows place)
    (sorted : todo.Pairwise fun x y => Beyond y x)
    (beyond : ∀ place ∈ todo, ∀ other ∈ done, Beyond place other) (changed : Bool) :
    todo.foldl s.step (insertedRows ahead behind (s.replaced rows done) rows, changed) =
      (insertedRows ahead behind (s.replaced rows (todo.reverse ++ done)) rows,
        changed || todo.any (s.allowedAt rows)) := by
  induction todo generalizing done changed with
  | nil => simp
  | cons place todo ih =>
    obtain ⟨left, sorted⟩ := List.pairwise_cons.mp sorted
    rw [List.foldl_cons, step_replaced inserts (targets place List.mem_cons_self)
      (beyond place List.mem_cons_self)]
    rw [ih (fun other member => targets other (List.mem_cons_of_mem place member)) sorted]
    · simp [Bool.or_assoc]
    · intro other member done' old
      rcases List.mem_cons.mp old with rfl | earlier
      · exact left other member
      · exact beyond other (List.mem_cons_of_mem place member) done' earlier

theorem insertedRows_replaced_nil {s : Substitution} {ahead behind : List Char}
    (rows : List (List Char)) :
    insertedRows ahead behind (s.replaced rows []) rows = rows := by
  refine List.ext_getElem? fun i => ?_
  rw [getElem?_insertedRows]
  cases rows[i]? with
  | none => rfl
  | some row => exact congrArg some (insertAt_of_none fun p _ _ => by simp [replaced])

theorem replaced_congr {s : Substitution} {rows : List (List Char)} {done done' : List (Nat × Nat)}
    (same : ∀ place, place ∈ done ↔ place ∈ done') :
    s.replaced rows done = s.replaced rows done' := by
  funext place
  simp only [replaced, same]

def targets (s : Substitution) (rows : List (List Char)) (locations : List Location) :
    List (Nat × Nat) :=
  locations.filterMap (locate s.target rows)

def chosen (s : Substitution) (rows : List (List Char)) (locations : List Location) :
    Nat × Nat → Bool :=
  s.replaced rows (s.targets rows locations)

theorem foldl_step_targets {s : Substitution} {ahead behind : List Char}
    (inserts : s.Inserts ahead behind) (rows : List (List Char)) (locations : List Location) :
    (descending (s.targets rows locations)).foldl s.step (rows, false) =
      (insertedRows ahead behind (s.chosen rows locations) rows,
        (descending (s.targets rows locations)).any (s.allowedAt rows)) := by
  have targets : ∀ place ∈ descending (s.targets rows locations), s.HasTarget rows place := by
    intro place member
    rw [descending, mem_sortDistinct] at member
    obtain ⟨l, -, located⟩ := List.mem_filterMap.mp member
    exact locate_hasTarget located
  have sorted : (descending (s.targets rows locations)).Pairwise fun x y => Beyond y x :=
    descending_pairwise _
  have first : ∀ place ∈ descending (s.targets rows locations),
      ∀ other ∈ ([] : List (Nat × Nat)), Beyond place other := by simp
  have run := foldl_step_replaced inserts targets sorted first false
  have same : s.replaced rows ((descending (s.targets rows locations)).reverse ++ []) =
      s.chosen rows locations :=
    replaced_congr fun place => by simp [descending]
  rw [insertedRows_replaced_nil, same, Bool.false_or] at run
  exact run

/-- A substitution sets something beside the targets that the text as it was allows, and beside no
others. -/
theorem edited?_eq_some_iff {s : Substitution} {ahead behind : List Char}
    (inserts : s.Inserts ahead behind) {contents text : String} {locations : List Location} :
    s.edited? contents locations = some text ↔
      (∃ place, s.chosen (Text.rows contents.toList) locations place = true) ∧
        text = String.ofList (Text.unrows (insertedRows ahead behind
          (s.chosen (Text.rows contents.toList) locations) (Text.rows contents.toList))) := by
  have any : (descending (s.targets (Text.rows contents.toList) locations)).any
      (s.allowedAt (Text.rows contents.toList)) = true ↔
      ∃ place, s.chosen (Text.rows contents.toList) locations place = true := by
    simp [chosen, replaced, descending]
  have run := foldl_step_targets inserts (Text.rows contents.toList) locations
  rw [targets] at run any
  rw [edited?, run, ← any]
  dsimp only
  split
  · next changed =>
    rw [Option.some.injEq]
    exact ⟨fun same => ⟨changed, same.symm⟩, fun same => same.2.symm⟩
  · next unchanged =>
    refine ⟨fun same => ?_, fun same => absurd same.1 unchanged⟩
    cases same

theorem rows_unrows_insertedRows {s : Substitution} {ahead behind : List Char}
    (inserts : s.Inserts ahead behind) (chosen : Nat × Nat → Bool) (text : List Char) :
    Text.rows (Text.unrows (insertedRows ahead behind chosen (Text.rows text))) =
      insertedRows ahead behind chosen (Text.rows text) := by
  have oneRow := inserts.oneRow
  rw [inserts.replacement] at oneRow
  simp only [List.mem_append, List.mem_cons, not_or] at oneRow
  refine Text.rows_unrows (fun more member newline => ?_) ?_
  · obtain ⟨index, found⟩ := List.mem_iff_getElem?.mp member
    rw [getElem?_insertedRows] at found
    obtain ⟨row, given, rfl⟩ := Option.map_eq_some_iff.mp found
    rcases mem_of_mem_insertAt newline with inside | first | last
    · exact Text.newline_not_mem_of_mem_rows (List.mem_of_getElem? given) inside
    · exact oneRow.1 first
    · exact oneRow.2.2 last
  · intro none
    have length := congrArg List.length none
    rw [insertedRows, List.length_mapIdx, List.length_nil, List.length_eq_zero_iff] at length
    exact Text.rows_ne_nil text length

/-- A substitution keeps every row, with something inserted at most. -/
theorem edited?_grown {s : Substitution} {ahead behind : List Char}
    (inserts : s.Inserts ahead behind) {contents text : String} {locations : List Location}
    (edited : s.edited? contents locations = some text) :
    Grown (Text.rows contents.toList) (Text.rows text.toList) := by
  obtain ⟨-, rfl⟩ := (edited?_eq_some_iff inserts).mp edited
  rw [String.toList_ofList, rows_unrows_insertedRows inserts]
  exact grown_insertedRows _ _

end Fix.Substitution

end PolicyMend
