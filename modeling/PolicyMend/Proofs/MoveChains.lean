import Mathlib.Data.List.Nodup
import Mathlib.Data.List.Perm.Subperm
import Mathlib.Data.Nat.Find
import Mathlib.Data.Set.Finite.Basic
import Mathlib.Logic.Relation
import Mathlib.Order.Preorder.Finite
import PolicyMend.Ledger.Basic
import PolicyMend.Proofs.OrderedMap

/-!
Following the moves of a ledger. Each path moves to one place at most, so the paths that can be
reached from a path form a chain that ends or runs into a cycle. Main statement: the bounded search
of the ledger finds exactly the paths that lie on a cycle.
-/

namespace PolicyMend

open Relation

/-- Where every element of a list is related to another one of it, each leads into a cycle. -/
theorem exists_cycle_of_closed {α : Type} {related : α → α → Prop} {elements : List α}
    (closed : ∀ a ∈ elements, ∃ b ∈ elements, related a b) {a : α} (member : a ∈ elements) :
    ∃ turn, ReflTransGen related a turn ∧ TransGen related turn turn := by
  have : Nonempty α := ⟨a⟩
  choose! next inside step using closed
  have stays : ∀ n, next^[n] a ∈ elements := by
    intro n
    induction n with
    | zero => exact member
    | succ n ih =>
      rw [Function.iterate_succ_apply']
      exact inside _ ih
  have follows : ∀ n, related (next^[n] a) (next^[n + 1] a) := by
    intro n
    rw [Function.iterate_succ_apply']
    exact step _ (stays n)
  have leads : ∀ n m, ReflTransGen related (next^[n] a) (next^[n + m] a) := by
    intro n m
    induction m with
    | zero => exact .refl
    | succ m ih => exact ih.tail (follows (n + m))
  -- The elements passed are finitely many, so one of them is passed twice.
  obtain ⟨i, j, less, same⟩ :=
    Set.Finite.exists_lt_map_eq_of_forall_mem stays (List.finite_toSet elements)
  have start := leads 0 i
  rw [Nat.zero_add] at start
  have rest := leads (i + 1) (j - (i + 1))
  rw [Nat.add_sub_cancel' less, ← same] at rest
  exact ⟨next^[i] a, start, .head' (follows i) rest⟩

end PolicyMend

namespace PolicyMend.Ledger

open Relation

def Moves (l : Ledger) (old new : String) : Prop := l.moves.get? old = some new

theorem Moves.unique {l : Ledger} {old new other : String} (first : l.Moves old new)
    (second : l.Moves old other) : new = other :=
  Option.some.inj (first.symm.trans second)

theorem moves_contains_iff {l : Ledger} {path : String} :
    l.moves.contains path = true ↔ ∃ next, l.Moves path next :=
  Option.isSome_iff_exists

theorem get?_registerMove (l : Ledger) (new old path : String) :
    (l.registerMove new old).moves.get? path =
      if path = old then (if new = old then none else some new) else l.moves.get? path := by
  unfold registerMove
  split <;> simp

/-- The path at which a number of moves one after the other end. -/
def walk (l : Ledger) : Nat → String → Option String
  | 0, path => some path
  | steps + 1, path => (l.moves.get? path).bind (l.walk steps)

theorem walk_add (l : Ledger) (first second : Nat) (path : String) :
    l.walk (first + second) path = (l.walk first path).bind (l.walk second) := by
  induction first generalizing path with
  | zero => simp [walk]
  | succ first ih =>
    rw [Nat.succ_add]
    simp only [walk]
    cases l.moves.get? path with
    | none => rfl
    | some next => exact ih next

theorem walk_one (l : Ledger) (path : String) : l.walk 1 path = l.moves.get? path := by
  simp only [walk]
  cases l.moves.get? path <;> rfl

theorem exists_walk_of_transGen {l : Ledger} {path finish : String}
    (reached : TransGen l.Moves path finish) : ∃ steps, l.walk (steps + 1) path = some finish := by
  induction reached with
  | single move => exact ⟨0, (l.walk_one path).trans move⟩
  | tail _ move ih =>
    obtain ⟨steps, walked⟩ := ih
    exact ⟨steps + 1, by rw [walk_add, walked, Option.bind_some, walk_one]; exact move⟩

/-! ### Cycles -/

theorem exists_of_walk_le {l : Ledger} {steps total : Nat} {path finish : String}
    (walked : l.walk total path = some finish) (le : steps ≤ total) :
    ∃ middle, l.walk steps path = some middle ∧ l.walk (total - steps) middle = some finish := by
  rw [← Nat.add_sub_cancel' le, walk_add] at walked
  exact Option.bind_eq_some_iff.mp walked

/-- A shortest way around a cycle passes each of its paths once, so it has no more steps than there
are moves. -/
theorem cycle_length_le {l : Ledger} {path : String} {length : Nat}
    (walked : l.walk length path = some path)
    (shortest : ∀ shorter, 0 < shorter → shorter < length → l.walk shorter path ≠ some path) :
    length ≤ l.moves.size := by
  have passed : ∀ i < length, ∃ key ∈ l.moves.keys, l.walk i path = some key := by
    intro i small
    obtain ⟨key, here, rest⟩ := exists_of_walk_le walked (Nat.le_of_lt small)
    obtain ⟨steps, eq⟩ : ∃ steps, length - i = steps + 1 := ⟨length - i - 1, by omega⟩
    rw [eq] at rest
    obtain ⟨next, move, -⟩ := Option.bind_eq_some_iff.mp rest
    exact ⟨key, (l.moves.mem_keys_iff key).mpr (moves_contains_iff.mpr ⟨next, move⟩), here⟩
  have apart : ∀ i j, i < j → j < length → l.walk i path ≠ l.walk j path := by
    intro i j less small same
    -- Leaving out the steps between `i` and `j` would be a shorter way around.
    obtain ⟨key, here, rest⟩ := exists_of_walk_le walked (Nat.le_of_lt small)
    refine shortest (i + (length - j)) (by omega) (by omega) ?_
    rw [walk_add, same, here]
    exact rest
  have nodup : ((List.range length).map fun i => l.walk i path).Nodup := by
    refine List.Nodup.map_on ?_ List.nodup_range
    intro i small j small' same
    rcases Nat.lt_trichotomy i j with less | equal | greater
    · exact absurd same (apart i j less (List.mem_range.mp small'))
    · exact equal
    · exact absurd same.symm (apart j i greater (List.mem_range.mp small))
  have inside : ((List.range length).map fun i => l.walk i path) ⊆ l.moves.keys.map some := by
    intro step member
    obtain ⟨i, small, rfl⟩ := List.mem_map.mp member
    obtain ⟨key, found, here⟩ := passed i (List.mem_range.mp small)
    exact here ▸ List.mem_map_of_mem found
  have le := (nodup.subperm inside).length_le
  simpa [← OrderedMap.size_eq_length_keys] using le

theorem reaches_of_leadsTo {l : Ledger} {start current : String} {steps : Nat}
    (leads : l.leadsTo start steps current = true) : TransGen l.Moves current start := by
  induction steps generalizing current with
  | zero => simp [leadsTo] at leads
  | succ steps ih =>
    simp only [leadsTo] at leads
    split at leads
    · next next move =>
      rcases Bool.or_eq_true_iff.mp leads with arrived | further
      · exact .single (move.trans (congrArg some (of_decide_eq_true arrived)))
      · exact .head move (ih further)
    · simp at leads

theorem leadsTo_of_walk {l : Ledger} {start current : String} {steps fuel : Nat}
    (walked : l.walk (steps + 1) current = some start) (enough : steps < fuel) :
    l.leadsTo start fuel current = true := by
  induction steps generalizing current fuel with
  | zero =>
    obtain ⟨fuel, rfl⟩ : ∃ n, fuel = n + 1 := ⟨fuel - 1, by omega⟩
    rw [walk_one] at walked
    simp [leadsTo, walked]
  | succ steps ih =>
    obtain ⟨fuel, rfl⟩ : ∃ n, fuel = n + 1 := ⟨fuel - 1, by omega⟩
    obtain ⟨next, move, rest⟩ := Option.bind_eq_some_iff.mp walked
    have further : l.leadsTo start fuel next = true := ih rest (by omega)
    simp [leadsTo, move, further]

/-- The ledger's search for a cycle, bounded by the number of moves, misses none. -/
theorem inCycle_iff {l : Ledger} {path : String} :
    l.inCycle path = true ↔ TransGen l.Moves path path := by
  refine ⟨reaches_of_leadsTo, fun cycle => ?_⟩
  have some : ∃ length, 0 < length ∧ l.walk length path = some path := by
    obtain ⟨steps, walked⟩ := exists_walk_of_transGen cycle
    exact ⟨steps + 1, Nat.succ_pos steps, walked⟩
  classical
  obtain ⟨positive, walked⟩ := Nat.find_spec some
  have bound := cycle_length_le walked fun shorter pos less walked =>
    Nat.find_min some less ⟨pos, walked⟩
  obtain ⟨steps, eq⟩ : ∃ steps, Nat.find some = steps + 1 := ⟨Nat.find some - 1, by omega⟩
  rw [eq] at walked bound
  exact leadsTo_of_walk walked bound

/-- Among finitely many paths that all move on to one of them, every path leads into a cycle. -/
theorem reaches_cycle {l : Ledger} {paths : List String}
    (closed : ∀ path ∈ paths, ∃ next ∈ paths, l.Moves path next) {path : String}
    (member : path ∈ paths) :
    ∃ turn, ReflTransGen l.Moves path turn ∧ TransGen l.Moves turn turn :=
  exists_cycle_of_closed closed member

end PolicyMend.Ledger
