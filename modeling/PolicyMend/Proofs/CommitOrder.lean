import PolicyMend.Commit
import PolicyMend.Proofs.MoveChains

/-!
The order in which files are committed. Each round takes out the files that wait for no pending one,
until none is left or all that are left wait. Main statement: the rounds come to an end with a
permutation of the files, in which a file comes after the one it waits for, unless following the
files waited for runs into a cycle; those from which it does come last, as they were.
-/

namespace PolicyMend

theorem FixedFile.isMove_iff {f : FixedFile} : f.isMove = true ↔ f.source ≠ f.dest := by
  simp [isMove]

theorem FixedFile.source_eq_dest {f : FixedFile} (stays : ¬f.isMove = true) :
    f.source = f.dest := by
  simpa [isMove] using stays

end PolicyMend

namespace PolicyMend.Commit

open Relation

/-- A file waits for another if it moves onto the other's place. -/
def WaitsFor (f g : FixedFile) : Prop := f.isMove = true ∧ g.source = f.dest

theorem isBlocked_iff {pending : List FixedFile} {f : FixedFile} :
    isBlocked pending f = true ↔ ∃ g ∈ pending, WaitsFor f g := by
  simp only [isBlocked, WaitsFor, Bool.and_eq_true, List.any_eq_true, decide_eq_true_eq]
  constructor
  · rintro ⟨moves, g, member, same⟩
    exact ⟨g, member, moves, same⟩
  · rintro ⟨g, member, moves, same⟩
    exact ⟨moves, g, member, same⟩

def waiting (pending : List FixedFile) : List FixedFile := pending.filter (isBlocked pending)

def ready (pending : List FixedFile) : List FixedFile :=
  pending.filter fun f => !isBlocked pending f

theorem mem_waiting {pending : List FixedFile} {f : FixedFile} :
    f ∈ waiting pending ↔ f ∈ pending ∧ ∃ g ∈ pending, WaitsFor f g := by
  rw [waiting, List.mem_filter, isBlocked_iff]

theorem mem_ready {pending : List FixedFile} {f : FixedFile} :
    f ∈ ready pending ↔ f ∈ pending ∧ ¬∃ g ∈ pending, WaitsFor f g := by
  rw [ready, List.mem_filter, ← isBlocked_iff]
  simp

theorem waiting_sublist (pending : List FixedFile) : (waiting pending).Sublist pending :=
  List.filter_sublist

theorem waiting_append_ready_perm (pending : List FixedFile) :
    (waiting pending ++ ready pending).Perm pending :=
  List.filter_append_perm (isBlocked pending) pending

theorem length_waiting_add_ready (pending : List FixedFile) :
    (waiting pending).length + (ready pending).length = pending.length := by
  rw [← List.length_append]
  exact (waiting_append_ready_perm pending).length_eq

theorem waiting_eq_self {pending : List FixedFile} (noneReady : ready pending = []) :
    waiting pending = pending := by
  have total := length_waiting_add_ready pending
  rw [noneReady, List.length_nil, Nat.add_zero] at total
  exact (waiting_sublist pending).eq_of_length total

/-! ### The rounds -/

theorem rounds_of_noneReady {pending : List FixedFile} (noneReady : ready pending = [])
    (fuel : Nat) : rounds fuel pending = pending := by
  cases fuel with
  | zero => rfl
  | succ fuel =>
    rw [rounds]
    exact if_pos (List.isEmpty_iff.mpr noneReady)

theorem rounds_succ (fuel : Nat) (pending : List FixedFile) :
    rounds (fuel + 1) pending = ready pending ++ rounds fuel (waiting pending) := by
  by_cases noneReady : ready pending = []
  · rw [waiting_eq_self noneReady, noneReady, List.nil_append, rounds_of_noneReady noneReady,
      rounds_of_noneReady noneReady]
  · have someReady : ¬(ready pending).isEmpty = true := fun none =>
      noneReady (List.isEmpty_iff.mp none)
    rw [rounds]
    exact if_neg someReady

theorem rounds_perm (fuel : Nat) (pending : List FixedFile) :
    (rounds fuel pending).Perm pending := by
  induction fuel generalizing pending with
  | zero => exact List.Perm.refl pending
  | succ fuel ih =>
    rw [rounds_succ]
    exact ((ih (waiting pending)).append_left _).trans
      (List.perm_append_comm.trans (waiting_append_ready_perm pending))

theorem order_perm (files : List FixedFile) : (order files).Perm files :=
  rounds_perm files.length files

/-- What the loop over pending files gives out from here on, when it comes to an end. -/
inductive Ends : List FixedFile → List FixedFile → Prop
  | done : Ends [] []
  | stuck {pending} (some : pending ≠ []) (noneReady : ready pending = []) : Ends pending pending
  | round {pending later} (some : pending ≠ []) (someReady : ready pending ≠ [])
      (rest : Ends (waiting pending) later) : Ends pending (ready pending ++ later)

theorem ends_rounds {fuel : Nat} {pending : List FixedFile} (enough : pending.length ≤ fuel) :
    Ends pending (rounds fuel pending) := by
  induction fuel generalizing pending with
  | zero =>
    obtain rfl : pending = [] := List.length_eq_zero_iff.mp (Nat.le_zero.mp enough)
    exact .done
  | succ fuel ih =>
    by_cases empty : pending = []
    · subst empty
      exact .done
    · by_cases noneReady : ready pending = []
      · rw [rounds_of_noneReady noneReady]
        exact .stuck empty noneReady
      · have total := length_waiting_add_ready pending
        have positive := List.length_pos_iff.mpr noneReady
        have shorter : (waiting pending).length ≤ fuel := by omega
        rw [rounds_succ]
        exact .round empty noneReady (ih shorter)

def readyIn (files : List FixedFile) (round : Nat) : List FixedFile := ready (waiting^[round] files)

/-- The rounds put one after the other, and what is pending after them. -/
theorem rounds_eq (fuel : Nat) (files : List FixedFile) :
    rounds fuel files = (List.range fuel).flatMap (readyIn files) ++ waiting^[fuel] files := by
  induction fuel generalizing files with
  | zero => rfl
  | succ fuel ih =>
    rw [rounds_succ, ih, List.range_succ_eq_map, List.flatMap_cons, List.flatMap_map,
      List.append_assoc]
    rfl

theorem order_eq (files : List FixedFile) :
    order files =
      (List.range files.length).flatMap (readyIn files) ++ waiting^[files.length] files :=
  rounds_eq files.length files

theorem iterate_waiting_sublist (files : List FixedFile) (n : Nat) :
    (waiting^[n] files).Sublist files := by
  induction n with
  | zero => exact List.Sublist.refl files
  | succ n ih =>
    rw [Function.iterate_succ_apply']
    exact (waiting_sublist _).trans ih

/-! ### Files that get ready -/

def Settled (pending files : List FixedFile) : Prop :=
  ∀ before f after, files = before ++ f :: after → ∀ g ∈ pending, WaitsFor f g → g ∈ before

theorem Settled.append_ready {pending later : List FixedFile}
    (settled : Settled (waiting pending) later) : Settled pending (ready pending ++ later) := by
  intro before f after split g member waits
  have notReady : f ∉ ready pending := fun taken => (mem_ready.mp taken).2 ⟨g, member, waits⟩
  -- `f` waits, so it is none of the ready files and all of these come before it.
  obtain ⟨middle, rfl, rest⟩ : ∃ middle,
      before = ready pending ++ middle ∧ later = middle ++ f :: after := by
    rcases List.append_eq_append_iff.mp split with found | ⟨middle, front, rest⟩
    · exact found
    · cases middle with
      | nil => exact ⟨[], by simpa using front.symm, by simpa using rest.symm⟩
      | cons first middle =>
        obtain ⟨rfl, -⟩ := List.cons.inj rest
        exact absurd (front ▸ by simp) notReady
  by_cases blocked : ∃ h ∈ pending, WaitsFor g h
  · have found := settled middle f after rest g (mem_waiting.mpr ⟨member, blocked⟩) waits
    exact List.mem_append_right _ found
  · exact List.mem_append_left _ (mem_ready.mpr ⟨member, blocked⟩)

theorem flatMap_readyIn_settled (count : Nat) (files : List FixedFile) :
    Settled files ((List.range count).flatMap (readyIn files)) := by
  induction count generalizing files with
  | zero => simp [Settled]
  | succ count ih =>
    rw [List.range_succ_eq_map, List.flatMap_cons, List.flatMap_map]
    exact (ih (waiting files)).append_ready

/-- In a settled order with others behind it, whatever a file waits for stands before it. -/
theorem Settled.mem_before {pending settled others before after : List FixedFile}
    (isSettled : Settled pending settled) {f g : FixedFile} (notOther : f ∉ others)
    (split : settled ++ others = before ++ f :: after) (member : g ∈ pending)
    (waits : WaitsFor f g) : g ∈ before := by
  rcases List.append_eq_append_iff.mp split with ⟨middle, -, rest⟩ | ⟨middle, front, rest⟩
  · exact absurd (rest ▸ by simp) notOther
  · cases middle with
    | nil => exact absurd (by rw [List.nil_append] at rest; rw [← rest]; simp) notOther
    | cons first middle =>
      obtain ⟨rfl, -⟩ := List.cons.inj rest
      exact isSettled before f middle front g member waits

/-! ### Files that are left -/

/-- Files that all wait for one another. -/
def Stuck (files : List FixedFile) : Prop :=
  ∀ f ∈ files, ∃ g ∈ files, WaitsFor f g

theorem iterate_waiting_fixed_or_short (files : List FixedFile) (n : Nat) :
    waiting (waiting^[n] files) = waiting^[n] files ∨
      (waiting^[n] files).length + n ≤ files.length := by
  induction n with
  | zero => exact .inr (Nat.le_refl _)
  | succ n ih =>
    rw [Function.iterate_succ_apply']
    by_cases noneReady : ready (waiting^[n] files) = []
    · have fixed := waiting_eq_self noneReady
      exact .inl (by rw [fixed, fixed])
    · have total := length_waiting_add_ready (waiting^[n] files)
      have positive := List.length_pos_iff.mpr noneReady
      rcases ih with fixed | short
      · rw [fixed] at total
        omega
      · exact .inr (by omega)

/-- After as many rounds as there are files, all that are pending wait for another one. -/
theorem iterate_waiting_stuck (files : List FixedFile) :
    Stuck (waiting^[files.length] files) := by
  have fixed : waiting (waiting^[files.length] files) = waiting^[files.length] files := by
    rcases iterate_waiting_fixed_or_short files files.length with fixed | short
    · exact fixed
    · have none : waiting^[files.length] files = [] := List.length_eq_zero_iff.mp (by omega)
      rw [none]
      rfl
  intro f member
  rw [← fixed] at member
  exact (mem_waiting.mp member).2

def Awaits (files : List FixedFile) (f g : FixedFile) : Prop :=
  f ∈ files ∧ g ∈ files ∧ WaitsFor f g

/-- Following the files that are waited for leads into a cycle. -/
def EntersCycle (files : List FixedFile) (f : FixedFile) : Prop :=
  ∃ turn, ReflTransGen (Awaits files) f turn ∧ TransGen (Awaits files) turn turn

theorem EntersCycle.next {files : List FixedFile} {f : FixedFile} (enters : EntersCycle files f) :
    ∃ g, Awaits files f g ∧ EntersCycle files g := by
  obtain ⟨turn, leads, cycle⟩ := enters
  rcases ReflTransGen.cases_head leads with rfl | ⟨g, waits, rest⟩
  · obtain ⟨g, waits, back⟩ := TransGen.head'_iff.mp cycle
    exact ⟨g, waits, f, back, cycle⟩
  · exact ⟨g, waits, turn, rest, cycle⟩

theorem EntersCycle.mem_iterate_waiting {files : List FixedFile} {f : FixedFile}
    (enters : EntersCycle files f) (n : Nat) : f ∈ waiting^[n] files := by
  induction n generalizing f with
  | zero =>
    obtain ⟨g, waits, -⟩ := enters.next
    exact waits.1
  | succ n ih =>
    obtain ⟨g, ⟨-, -, waits⟩, enters'⟩ := enters.next
    rw [Function.iterate_succ_apply']
    exact mem_waiting.mpr ⟨ih enters, g, ih enters', waits⟩

/-- The files that are left are those from which a cycle is entered. -/
theorem mem_iterate_waiting_iff {files : List FixedFile} {f : FixedFile} :
    f ∈ waiting^[files.length] files ↔ EntersCycle files f := by
  refine ⟨fun member => ?_, fun enters => enters.mem_iterate_waiting files.length⟩
  have subset := (iterate_waiting_sublist files files.length).subset
  refine exists_cycle_of_closed (fun g inside => ?_) member
  obtain ⟨h, inside', waits⟩ := iterate_waiting_stuck files g inside
  exact ⟨h, inside', subset inside, subset inside', waits⟩

theorem not_entersCycle_of_mem_readyIn {files : List FixedFile} {round : Nat} {f : FixedFile}
    (taken : f ∈ readyIn files round) : ¬EntersCycle files f := by
  intro enters
  obtain ⟨g, ⟨-, -, waits⟩, enters'⟩ := enters.next
  exact (mem_ready.mp taken).2 ⟨g, enters'.mem_iterate_waiting round, waits⟩

/-! ### Files of one round -/

theorem readyIn_eq_nil {files : List FixedFile} {round : Nat} (late : files.length ≤ round) :
    readyIn files round = [] := by
  refine List.eq_nil_iff_forall_not_mem.mpr fun f taken => ?_
  have pending := (mem_ready.mp taken).1
  rw [← Nat.sub_add_cancel late, Function.iterate_add_apply] at pending
  have left := (iterate_waiting_sublist _ _).subset pending
  exact not_entersCycle_of_mem_readyIn taken (mem_iterate_waiting_iff.mp left)

theorem readyIn_sublist_order (files : List FixedFile) (round : Nat) :
    (readyIn files round).Sublist (order files) := by
  by_cases early : round < files.length
  · rw [order_eq]
    refine List.Sublist.trans ?_ (List.sublist_append_left _ _)
    exact List.sublist_flatten_of_mem (List.mem_map_of_mem (List.mem_range.mpr early))
  · rw [readyIn_eq_nil (Nat.le_of_not_lt early)]
    exact List.nil_sublist _

theorem iterate_waiting_eq_filter (files : List FixedFile) (n : Nat) :
    ∃ p : FixedFile → Bool, waiting^[n] files = files.filter p := by
  induction n with
  | zero => exact ⟨fun _ => true, (List.filter_true files).symm⟩
  | succ n ih =>
    obtain ⟨p, eq⟩ := ih
    refine ⟨fun f => isBlocked (files.filter p) f && p f, ?_⟩
    rw [Function.iterate_succ_apply', eq, waiting, List.filter_filter]

theorem filter_mem_readyIn (files : List FixedFile) (round : Nat) :
    files.filter (· ∈ readyIn files round) = readyIn files round := by
  obtain ⟨p, eq⟩ := iterate_waiting_eq_filter files round
  rw [readyIn, eq, ready, List.filter_filter]
  refine List.filter_congr fun f member => ?_
  simp [member]

theorem order_filter_mem_readyIn (files : List FixedFile) (round : Nat) :
    (order files).filter (· ∈ readyIn files round) = files.filter (· ∈ readyIn files round) := by
  have inside := (readyIn_sublist_order files round).filter (· ∈ readyIn files round)
  have all : (readyIn files round).filter (· ∈ readyIn files round) = readyIn files round :=
    List.filter_eq_self.mpr fun f member => decide_eq_true member
  have length := ((order_perm files).filter (· ∈ readyIn files round)).length_eq
  rw [all] at inside
  rw [filter_mem_readyIn] at length ⊢
  exact (inside.eq_of_length length.symm).symm

/-! ### The order -/

/-- The order of a commit is topological. A file stands nowhere before one that it waits for, unless
it leads into a cycle; the files that do are last, in the order in which they were given, and so are
the files of one round among themselves. -/
theorem order_topological (files : List FixedFile) :
    Ends files (order files) ∧ (order files).Perm files ∧
      (∀ f g before after, Awaits files f g → ¬EntersCycle files f →
        order files = before ++ f :: after → g ∈ before) ∧
      (∃ settled stuck, order files = settled ++ stuck ∧ stuck.Sublist files ∧
        (∀ f ∈ settled, ¬EntersCycle files f) ∧ ∀ f ∈ stuck, EntersCycle files f) ∧
      ∀ round, (order files).filter (· ∈ readyIn files round) =
        files.filter (· ∈ readyIn files round) := by
  refine ⟨ends_rounds (Nat.le_refl _), order_perm files, ?_, ?_, order_filter_mem_readyIn files⟩
  · rintro f g before after ⟨-, member, waits⟩ free split
    rw [order_eq] at split
    have notLeft : f ∉ waiting^[files.length] files := fun left =>
      free (mem_iterate_waiting_iff.mp left)
    exact (flatMap_readyIn_settled files.length files).mem_before notLeft split member waits
  · refine ⟨_, _, order_eq files, iterate_waiting_sublist files files.length, ?_, ?_⟩
    · intro f member
      obtain ⟨round, -, taken⟩ := List.mem_flatMap.mp member
      exact not_entersCycle_of_mem_readyIn taken
    · intro f member
      exact mem_iterate_waiting_iff.mp member

-- Two chains, a file that stays, a cycle and a file that runs into it.
example :
    (order ([("x", "y"), ("a", "b"), ("t", "x"), ("b", "c"), ("k", "k"), ("y", "x"), ("c", "d"),
      ("e", "c")].map fun pair => ⟨pair.1, pair.2, "", ⟨""⟩⟩)).map (·.source) =
      ["k", "c", "b", "e", "a", "x", "t", "y"] := by
  decide

end PolicyMend.Commit
