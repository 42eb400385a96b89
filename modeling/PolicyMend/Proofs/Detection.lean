import PolicyMend.Proofs.MoveConflicts
import PolicyMend.Proofs.Sorting

/-!
Detection of conflicts in a ledger that was filled in any way. Main statement: a path is listed
under another one just if its move is crowded or obstructed, looking again changes nothing, and the
order in which the moves of different files came makes no difference.
-/

namespace PolicyMend

theorem ascending_congr {a b : List String} (same : ∀ x, x ∈ a ↔ x ∈ b) :
    ascending a = ascending b := by
  have members : ∀ x, x ∈ ascending a ↔ x ∈ ascending b := by
    intro x
    rw [ascending, ascending, mem_sortDistinct, mem_sortDistinct]
    exact same x
  have perm := (List.perm_ext_iff_of_nodup (ascending_nodup a) (ascending_nodup b)).mpr members
  refine perm.eq_of_pairwise ?_ (ascending_pairwise a) (ascending_pairwise b)
  intro x y _ _ less greater
  exact absurd (String.lt_trans less greater) (String.lt_irrefl x)

namespace Ledger

open Relation

/-! ### Filling a ledger -/

inductive Note where
  | fix (dest title root : String)
  | merge (new old : String)
  | move (new old : String)
  deriving DecidableEq

def Note.isMove : Note → Bool
  | .move _ _ => true
  | _ => false

def Note.isMoveOf (source : String) : Note → Bool
  | .move _ old => old = source
  | _ => false

def note (l : Ledger) : Note → Ledger
  | .fix dest title root => l.addFix dest title root
  | .merge new old => l.mergeFixes new old
  | .move new old => l.registerMove new old

def ofNotes (notes : List Note) : Ledger := notes.foldl note {}

theorem mergeFixes_frame (l : Ledger) (new old : String) :
    (l.mergeFixes new old).moves = l.moves ∧ (l.mergeFixes new old).sourceFile = l.sourceFile ∧
      (l.mergeFixes new old).manyToOne = l.manyToOne := by
  unfold mergeFixes
  split
  · exact ⟨rfl, rfl, rfl⟩
  · split <;> exact ⟨rfl, rfl, rfl⟩

theorem note_clean {l : Ledger} (clean : l.Clean) (n : Note) : (l.note n).Clean := by
  cases n with
  | fix dest title root => exact clean
  | merge new old =>
    obtain ⟨-, first, second⟩ := l.mergeFixes_frame new old
    exact ⟨first.trans clean.1, second.trans clean.2⟩
  | move new old =>
    simp only [note, registerMove]
    split <;> exact clean

theorem ofNotes_clean (notes : List Note) : (ofNotes notes).Clean :=
  List.foldlRecOn notes note ⟨rfl, rfl⟩ fun _ clean n _ => note_clean clean n

/-! ### The order of the notes -/

theorem fixes_note_congr {l l' : Ledger} (same : l.fixes = l'.fixes) (n : Note) :
    (l.note n).fixes = (l'.note n).fixes := by
  cases n with
  | fix dest title root => simp only [note, addFix, seeRoot, same]
  | merge new old =>
    simp only [note, mergeFixes, same]
    split
    · exact same
    · split
      · exact same
      · rfl
  | move new old =>
    simp only [note, registerMove]
    split <;> exact same

theorem fixes_note_of_isMove (l : Ledger) {n : Note} (moves : n.isMove = true) :
    (l.note n).fixes = l.fixes := by
  cases n with
  | fix dest title root => cases moves
  | merge new old => cases moves
  | move new old =>
    simp only [note, registerMove]
    split <;> rfl

/-- The fixes of a ledger come from the notes that are no moves. -/
theorem fixes_foldl_note {l l' : Ledger} (same : l.fixes = l'.fixes) (notes : List Note) :
    (notes.foldl note l).fixes = ((notes.filter fun n => !n.isMove).foldl note l').fixes := by
  induction notes generalizing l l' with
  | nil => exact same
  | cons n notes ih =>
    by_cases moves : n.isMove = true
    · rw [List.filter_cons_of_neg (by simp [moves])]
      exact ih ((l.fixes_note_of_isMove moves).trans same)
    · rw [List.filter_cons_of_pos (by simp [moves])]
      exact ih (fixes_note_congr same n)

theorem get?_note_congr {l l' : Ledger} {source : String}
    (same : l.moves.get? source = l'.moves.get? source) (n : Note) :
    (l.note n).moves.get? source = (l'.note n).moves.get? source := by
  cases n with
  | fix dest title root => exact same
  | merge new old =>
    simp only [note]
    rw [(l.mergeFixes_frame new old).1, (l'.mergeFixes_frame new old).1, same]
  | move new old => simp only [note, get?_registerMove, same]

theorem get?_note_of_other (l : Ledger) {source : String} {n : Note}
    (other : ¬n.isMoveOf source = true) :
    (l.note n).moves.get? source = l.moves.get? source := by
  cases n with
  | fix dest title root => rfl
  | merge new old => simp only [note, (l.mergeFixes_frame new old).1]
  | move new old =>
    have different : source ≠ old := fun same => other (decide_eq_true same.symm)
    simp only [note, get?_registerMove, if_neg different]

/-- Where a file moves comes from the notes of its own moves. -/
theorem get?_foldl_note {l l' : Ledger} {source : String}
    (same : l.moves.get? source = l'.moves.get? source) (notes : List Note) :
    (notes.foldl note l).moves.get? source =
      ((notes.filter (·.isMoveOf source)).foldl note l').moves.get? source := by
  induction notes generalizing l l' with
  | nil => exact same
  | cons n notes ih =>
    by_cases own : n.isMoveOf source = true
    · rw [List.filter_cons_of_pos own]
      exact ih (get?_note_congr same n)
    · rw [List.filter_cons_of_neg own]
      exact ih ((l.get?_note_of_other own).trans same)

/-- The same notes, except that moves may stand elsewhere: those of one file are in the same order,
and so are the notes that are no moves. -/
structure Reordered (notes notes' : List Note) : Prop where
  fixes : notes'.filter (fun n => !n.isMove) = notes.filter fun n => !n.isMove
  moves : ∀ source, notes'.filter (·.isMoveOf source) = notes.filter (·.isMoveOf source)

theorem reordered_swap (before after : List Note) (new new' : String) {old old' : String}
    (different : old ≠ old') :
    Reordered (before ++ .move new old :: .move new' old' :: after)
      (before ++ .move new' old' :: .move new old :: after) where
  fixes := by simp [Note.isMove]
  moves source := by
    by_cases first : old = source
    · have second : old' ≠ source := fun same => different (first.trans same.symm)
      simp [Note.isMoveOf, first, second]
    · simp [List.filter_cons, Note.isMoveOf, first]

theorem Reordered.sameMoves {notes notes' : List Note} (reordered : Reordered notes notes') :
    (ofNotes notes').fixes = (ofNotes notes).fixes ∧
      ∀ source, (ofNotes notes').moves.get? source = (ofNotes notes).moves.get? source := by
  constructor
  · rw [ofNotes, fixes_foldl_note rfl, reordered.fixes, ← fixes_foldl_note rfl, ofNotes]
  · intro source
    rw [ofNotes, get?_foldl_note rfl, reordered.moves source, ← get?_foldl_note rfl, ofNotes]

theorem conflicting_congr {l l' : Ledger}
    (same : ∀ source, l'.moves.get? source = l.moves.get? source) (existing : List String)
    (old new : String) :
    (l'.Crowded old new ↔ l.Crowded old new) ∧
      (l'.Obstructed existing old new ↔ l.Obstructed existing old new) := by
  have moves : l'.Moves = l.Moves := by
    funext old new
    rw [Moves, Moves, same]
  constructor
  · rw [Crowded, Crowded, moves]
  · rw [Obstructed, Obstructed, moves, OrderedMap.contains, OrderedMap.contains, same]

/-! ### What is listed -/

def Listed (conflicts : List Conflict) (root old new : String) : Prop :=
  ∃ others, (new, others) ∈ grouped conflicts root ∧ old ∈ others

theorem listed_iff {conflicts : List Conflict} {root old new : String} :
    Listed conflicts root old new ↔ ⟨root, new, old⟩ ∈ conflicts := by
  simp only [Listed, grouped, List.mem_map, ascending, mem_sortDistinct, List.mem_filter,
    decide_eq_true_eq, Prod.mk.injEq]
  constructor
  · rintro ⟨others, ⟨path, -, rfl, rfl⟩, listed⟩
    rw [mem_sortDistinct, List.mem_map] at listed
    obtain ⟨c, found, rfl⟩ := listed
    simp only [List.mem_filter, decide_eq_true_eq] at found
    obtain ⟨⟨member, rfl⟩, rfl⟩ := found
    exact member
  · intro member
    refine ⟨_, ⟨new, ⟨_, ⟨member, rfl⟩, rfl⟩, rfl, rfl⟩, ?_⟩
    rw [mem_sortDistinct, List.mem_map]
    exact ⟨⟨root, new, old⟩, by simpa using member, rfl⟩

theorem grouped_congr {conflicts conflicts' : List Conflict}
    (same : ∀ c, c ∈ conflicts' ↔ c ∈ conflicts) (root : String) :
    grouped conflicts' root = grouped conflicts root := by
  have here : ∀ c,
      c ∈ conflicts'.filter (·.root = root) ↔ c ∈ conflicts.filter (·.root = root) := by
    intro c
    rw [List.mem_filter, List.mem_filter, same]
  have paths : ascending ((conflicts'.filter (·.root = root)).map (·.path)) =
      ascending ((conflicts.filter (·.root = root)).map (·.path)) :=
    ascending_congr fun path => by simp only [List.mem_map, here]
  simp only [grouped, paths]
  refine List.map_congr_left fun path _ => congrArg (Prod.mk path) (ascending_congr fun other => ?_)
  simp only [List.mem_map, List.mem_filter (p := fun c : Conflict => decide (c.path = path)), here]

/-! ### Looking again -/

/-- Every root under which there is a conflict is known. -/
def RootsSeen (l : Ledger) : Prop :=
  (∀ c ∈ l.manyToOne, c.root ∈ l.roots) ∧ ∀ c ∈ l.sourceFile, c.root ∈ l.roots

theorem RootsSeen.registerManyToOne {l : Ledger} (seen : l.RootsSeen) (root old new : String) :
    (l.registerManyToOne root old new).RootsSeen := by
  constructor
  · intro c member
    rcases mem_addNew.mp member with known | rfl
    · exact mem_addNew.mpr (.inl (seen.1 c known))
    · exact mem_addNew.mpr (.inr rfl)
  · intro c member
    exact mem_addNew.mpr (.inl (seen.2 c member))

theorem RootsSeen.registerSourceFile {l : Ledger} (seen : l.RootsSeen)
    (root existing incoming : String) :
    (l.registerSourceFile root existing incoming).RootsSeen := by
  constructor
  · intro c member
    exact mem_addNew.mpr (.inl (seen.1 c member))
  · intro c member
    rcases mem_addNew.mp member with known | rfl
    · exact mem_addNew.mpr (.inl (seen.2 c known))
    · exact mem_addNew.mpr (.inr rfl)

/-- What registering a conflict preserves, detection preserves. -/
theorem detect_induction {motive : Ledger → Prop} {l : Ledger} (existing : List String)
    (start : motive l)
    (manyToOne : ∀ l root old new, motive l → motive (l.registerManyToOne root old new))
    (sourceFile : ∀ l root path other, motive l → motive (l.registerSourceFile root path other)) :
    motive (l.detect existing) := by
  refine List.foldlRecOn _ _ start fun l holds dest _ => ?_
  unfold detectAt
  refine List.foldlRecOn _ _ ?_ fun l holds source _ => sourceFile l _ dest source holds
  exact List.foldlRecOn _ _ holds fun l holds source _ => manyToOne l _ source dest holds

theorem RootsSeen.detect {l : Ledger} (seen : l.RootsSeen) (existing : List String) :
    (l.detect existing).RootsSeen :=
  detect_induction existing seen (fun _ root old new seen => seen.registerManyToOne root old new)
    fun _ root path other seen => seen.registerSourceFile root path other

theorem Clean.rootsSeen {l : Ledger} (clean : l.Clean) : l.RootsSeen := by
  simp [RootsSeen, clean.1, clean.2]

theorem addNew_of_mem {α : Type} [DecidableEq α] {known : List α} {a : α} (present : a ∈ known) :
    addNew known a = known := if_pos present

theorem registerManyToOne_of_mem {l : Ledger} (seen : l.RootsSeen) {root old new : String}
    (known : ⟨root, new, old⟩ ∈ l.manyToOne) : l.registerManyToOne root old new = l := by
  rw [registerManyToOne, seeRoot, addNew_of_mem (seen.1 _ known), addNew_of_mem known]

theorem registerSourceFile_of_mem {l : Ledger} (seen : l.RootsSeen)
    {root existing incoming : String} (known : ⟨root, existing, incoming⟩ ∈ l.sourceFile) :
    l.registerSourceFile root existing incoming = l := by
  rw [registerSourceFile, seeRoot, addNew_of_mem (seen.2 _ known), addNew_of_mem known]

theorem foldl_eq_self {α β : Type} {f : β → α → β} {b : β} {elements : List α}
    (idle : ∀ a ∈ elements, f b a = b) : elements.foldl f b = b := by
  induction elements with
  | nil => rfl
  | cons a elements ih =>
    rw [List.foldl_cons, idle a List.mem_cons_self]
    exact ih fun a member => idle a (List.mem_cons_of_mem _ member)

theorem detectAt_of_known {l : Ledger} (seen : l.RootsSeen) {existing : List String}
    (crowded : ∀ old new, l.Crowded old new → ⟨l.rootFor new, new, old⟩ ∈ l.manyToOne)
    (obstructed : ∀ old new, l.Obstructed existing old new →
      ⟨l.rootFor new, new, old⟩ ∈ l.sourceFile)
    (dest : String) : detectAt existing l dest = l := by
  simp only [detectAt]
  rw [foldl_eq_self (b := l)]
  · refine foldl_eq_self fun source member => registerSourceFile_of_mem seen ?_
    exact obstructed source dest (mem_obstructing.mp member)
  · intro source member
    exact registerManyToOne_of_mem seen (crowded source dest (mem_crowding.mp member))

theorem detect_detect {l : Ledger} (seen : l.RootsSeen) (existing : List String) :
    (l.detect existing).detect existing = l.detect existing := by
  have same := sameMoves_detect l existing
  refine foldl_eq_self fun dest _ => detectAt_of_known (seen.detect existing) ?_ ?_ dest
  · intro old new crowded
    refine mem_manyToOne_detect.mpr (.inr ⟨same.rootFor new, (same.crowded old new).mp crowded⟩)
  · intro old new obstructed
    refine mem_sourceFile_detect.mpr
      (.inr ⟨same.rootFor new, (same.obstructed existing old new).mp obstructed⟩)

/-! ### No conflict -/

theorem hasConflicts_detect_eq_false {l : Ledger} (clean : l.Clean) (existing : List String) :
    (l.detect existing).hasConflicts = false ↔
      (∀ a b dest, l.Moves a dest → l.Moves b dest → a = b) ∧
      (∀ path, ¬TransGen l.Moves path path) ∧
      ∀ old new, l.Moves old new → new ∈ existing → ∃ next, l.Moves new next := by
  rw [Bool.eq_false_iff, ne_eq, hasConflicts_detect clean]
  constructor
  · intro free
    refine ⟨?_, ?_, ?_⟩
    · intro a b dest first second
      by_contra different
      exact free ⟨a, dest, .inl ⟨first, b, Ne.symm different, second⟩⟩
    · intro path cycle
      obtain ⟨next, move, -⟩ := TransGen.head'_iff.mp cycle
      exact free ⟨path, next, .inr ⟨move, .inr cycle⟩⟩
    · intro old new move taken
      by_contra stays
      rw [← moves_contains_iff, Bool.not_eq_true] at stays
      exact free ⟨old, new, .inr ⟨move, .inl ⟨taken, stays⟩⟩⟩
  · rintro ⟨injective, acyclic, vacated⟩ ⟨old, new, crowded | obstructed⟩
    · obtain ⟨move, other, different, move'⟩ := crowded
      exact different (injective other old new move' move)
    · obtain ⟨move, ⟨taken, stays⟩ | cycle⟩ := obstructed
      · rw [moves_contains_iff.mpr (vacated old new move taken)] at stays
        cases stays
      · exact acyclic old cycle

/-- Detection lists just the moves that are crowded and those that are obstructed, each under the
root of its destination. So it finds no conflict if and only if no two files move to one place, no
moves lead back and none ends on a file that stays. To detect again changes nothing, and the order
in which the moves of different files were noted makes no difference. -/
theorem detect_lists_conflicts (notes : List Note) (existing : List String) :
    let l := ofNotes notes
    let found := l.detect existing
    (∀ root old new, Listed found.manyToOne root old new ↔
      root = l.rootFor new ∧ l.Moves old new ∧ ∃ other, other ≠ old ∧ l.Moves other new) ∧
    (∀ root old new, Listed found.sourceFile root old new ↔
      root = l.rootFor new ∧ l.Moves old new ∧
        ((new ∈ existing ∧ ¬∃ next, l.Moves new next) ∨ TransGen l.Moves old old)) ∧
    (found.hasConflicts = false ↔
      (∀ a b dest, l.Moves a dest → l.Moves b dest → a = b) ∧
      (∀ path, ¬TransGen l.Moves path path) ∧
      ∀ old new, l.Moves old new → new ∈ existing → ∃ next, l.Moves new next) ∧
    found.detect existing = found ∧
    ∀ notes', Reordered notes notes' → ∀ root,
      grouped ((ofNotes notes').detect existing).manyToOne root = grouped found.manyToOne root ∧
      grouped ((ofNotes notes').detect existing).sourceFile root =
        grouped found.sourceFile root := by
  intro l found
  have clean := ofNotes_clean notes
  refine ⟨?_, ?_, hasConflicts_detect_eq_false clean existing,
    detect_detect clean.rootsSeen existing, ?_⟩
  · intro root old new
    rw [listed_iff, mem_manyToOne_detect, clean.2]
    simp [Crowded, l]
  · intro root old new
    rw [listed_iff, mem_sourceFile_detect, clean.1, ← moves_contains_iff, Bool.not_eq_true]
    simp [Obstructed, l]
  · intro notes' reordered root
    obtain ⟨fixes, moves⟩ := reordered.sameMoves
    have clean' := ofNotes_clean notes'
    have rootFor : ∀ path, (ofNotes notes').rootFor path = (ofNotes notes).rootFor path := by
      intro path
      rw [Ledger.rootFor, Ledger.rootFor, rootOf?, rootOf?, fixes]
    constructor
    · refine grouped_congr (fun c => ?_) root
      rw [mem_manyToOne_detect, mem_manyToOne_detect, clean.2, clean'.2, rootFor,
        (conflicting_congr moves existing c.other c.path).1]
    · refine grouped_congr (fun c => ?_) root
      rw [mem_sourceFile_detect, mem_sourceFile_detect, clean.1, clean'.1, rootFor,
        (conflicting_congr moves existing c.other c.path).2]

/-- Two files that go to one place, and two that change places. -/
def tangledNotes : List Note :=
  [.fix "/w/p" "moved" "/w", .move "/w/p" "/w/b", .move "/w/p" "/w/a", .move "/w/d" "/w/c",
    .move "/w/c" "/w/d"]

def tangledNotesSwapped : List Note :=
  [.fix "/w/p" "moved" "/w", .move "/w/p" "/w/a", .move "/w/p" "/w/b", .move "/w/d" "/w/c",
    .move "/w/c" "/w/d"]

theorem detect_lists_conflicts_tangledNotes :
    let found := (ofNotes tangledNotes).detect ["/w/p"]
    let found' := (ofNotes tangledNotesSwapped).detect ["/w/p"]
    Reordered tangledNotes tangledNotesSwapped ∧
      grouped found.manyToOne "/w" = [("/w/p", ["/w/a", "/w/b"])] ∧
      grouped found.sourceFile "/w" = [("/w/p", ["/w/a", "/w/b"])] ∧
      grouped found.sourceFile "" = [("/w/c", ["/w/d"]), ("/w/d", ["/w/c"])] ∧
      ∀ root, grouped found'.manyToOne root = grouped found.manyToOne root ∧
        grouped found'.sourceFile root = grouped found.sourceFile root := by
  have reordered : Reordered tangledNotes tangledNotesSwapped :=
    reordered_swap [.fix "/w/p" "moved" "/w"] _ _ _ (by decide)
  obtain ⟨-, -, -, -, same⟩ := detect_lists_conflicts tangledNotes ["/w/p"]
  exact ⟨reordered, by decide +kernel, by decide +kernel, by decide +kernel, same _ reordered⟩

end Ledger

end PolicyMend
