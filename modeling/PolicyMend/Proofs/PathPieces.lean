import Mathlib.Data.List.DropRight
import PolicyMend.Path
import PolicyMend.Proofs.Basic

/-!
The pieces of a path that count, those that are neither empty nor `.`. Main statement: the parent of
a path starts where the path starts, and its pieces come first among those before the last piece of
the path.
-/

namespace PolicyMend.Path

/-- The pieces that are not passed over. -/
def counting (pieces : List (List Char)) : List (List Char) :=
  pieces.filter fun piece => !isIdle piece

theorem counting_cons_of_idle {piece : List Char} (idle : isIdle piece = true)
    (pieces : List (List Char)) : counting (piece :: pieces) = counting pieces :=
  List.filter_cons_of_neg (by simp [idle])

theorem counting_splitOn_intercalate {pieces : List (List Char)}
    (whole : ∀ piece ∈ pieces, '/' ∉ piece) :
    counting ((['/'].intercalate pieces).splitOn '/') = counting pieces := by
  cases pieces with
  | nil => rfl
  | cons piece pieces => rw [List.splitOn_intercalate _ whole (List.cons_ne_nil _ _)]

theorem splitOn_rooted (rest : List Char) :
    ('/' :: rest).splitOn '/' = [] :: rest.splitOn '/' :=
  List.splitOn_append_cons_self [] rest

theorem splitOn_dotted (rest : List Char) :
    ('.' :: '/' :: rest).splitOn '/' = ['.'] :: rest.splitOn '/' :=
  @List.splitOn_append_cons_self_of_not_mem _ ['.'] _ _ '/' (by decide) rest

theorem dropLast_isPrefix {α : Type} {front all : List α} (first : front <+: all) :
    front.dropLast <+: all.dropLast := by
  obtain ⟨rest, rfl⟩ := first
  cases rest with
  | nil => rw [List.append_nil]
  | cons a rest =>
    rw [List.dropLast_append_of_ne_nil (List.cons_ne_nil a rest)]
    exact (List.dropLast_prefix front).trans (List.prefix_append _ _)

theorem trimEnd_isPrefix (body : List (List Char)) : trimEnd body <+: body :=
  List.rdropWhile_prefix isIdle body

/-! ### Layouts -/

structure Layout.IsOf (l : Layout) (cs : List Char) : Prop where
  whole : ∀ piece ∈ l.body, '/' ∉ piece
  counting : counting (cs.splitOn '/').dropLast = Path.counting l.body.dropLast
  rooted : l.lead = some .root ↔ cs.head? = some '/'
  here : l.lead = some .here → l.body.head? = some []
  lead : l.lead = some .root ∨ l.lead = some .here ∨ l.lead = none ∧ cs.splitOn '/' = l.body

theorem layout_isOf (cs : List Char) : (layout cs).IsOf cs := by
  unfold layout
  split
  · next rest =>
    refine ⟨fun _ => Text.not_mem_of_mem_splitOn, ?_, by simp, by simp, by simp⟩
    have nonempty := List.splitOn_ne_nil '/' rest
    rw [splitOn_rooted, List.dropLast_cons_of_ne_nil nonempty]
    exact counting_cons_of_idle rfl _
  · exact ⟨by simp, rfl, by simp, by simp, by simp⟩
  · next rest =>
    have nonempty := List.splitOn_ne_nil '/' rest
    refine ⟨?_, ?_, by simp, by simp, by simp⟩
    · intro piece member
      rcases List.mem_cons.mp member with rfl | later
      · exact List.not_mem_nil
      · exact Text.not_mem_of_mem_splitOn later
    · rw [splitOn_dotted, List.dropLast_cons_of_ne_nil nonempty,
        List.dropLast_cons_of_ne_nil nonempty, counting_cons_of_idle rfl, counting_cons_of_idle rfl]
  · next text absolute _ _ =>
    refine ⟨fun _ => Text.not_mem_of_mem_splitOn, rfl, ?_, by simp, by simp⟩
    cases cs with
    | nil => simp
    | cons c cs =>
      have other : c ≠ '/' := by
        rintro rfl
        exact absolute cs rfl
      simp [other]

section Front

variable {l : Layout} {cs : List Char} {left : List (List Char)}

theorem counting_front (layout : l.IsOf cs) (front : left <+: l.body) :
    counting ((leadText l.lead ++ ['/'].intercalate left).splitOn '/') = counting left := by
  have whole : ∀ piece ∈ left, '/' ∉ piece := fun piece member =>
    layout.whole piece (front.subset member)
  rcases layout.lead with root | here | ⟨none, -⟩
  · rw [root, leadText, List.cons_append, List.nil_append, splitOn_rooted,
      counting_cons_of_idle rfl, counting_splitOn_intercalate whole]
  · rw [here, leadText, List.cons_append, List.nil_append]
    cases left with
    | nil => rfl
    | cons piece left =>
      -- The piece that the leading dot belongs to is empty, so the dot stands alone.
      obtain ⟨rest, body⟩ := front
      obtain rfl : piece = [] := by
        have first := layout.here here
        rw [← body] at first
        exact Option.some.inj first
      rw [counting_cons_of_idle rfl]
      cases left with
      | nil => rfl
      | cons next left =>
        rw [List.intercalate_cons_cons, List.nil_append, List.singleton_append, splitOn_dotted,
          counting_cons_of_idle rfl]
        exact counting_splitOn_intercalate fun piece member =>
          whole piece (List.mem_cons_of_mem _ member)
  · rw [none, leadText, List.nil_append]
    · exact counting_splitOn_intercalate whole
    · simp
    · simp

theorem intercalate_isPrefix {front all : List (List Char)} (first : front <+: all) :
    ['/'].intercalate front <+: ['/'].intercalate all := by
  induction front generalizing all with
  | nil => exact List.nil_prefix
  | cons piece front ih =>
    obtain ⟨rest, rfl⟩ := first
    cases front with
    | nil =>
      cases rest with
      | nil => exact List.prefix_rfl
      | cons next rest =>
        rw [List.singleton_append, List.intercalate_cons_cons, List.append_assoc,
          List.intercalate_singleton]
        exact List.prefix_append _ _
    | cons next front =>
      have later := ih (List.prefix_append (next :: front) rest)
      rw [List.cons_append, List.cons_append, List.intercalate_cons_cons,
        List.intercalate_cons_cons]
      exact (List.prefix_append_right_inj _).mpr later

theorem head?_front (layout : l.IsOf cs) (front : left <+: l.body) :
    (leadText l.lead ++ ['/'].intercalate left).head? = some '/' ↔ cs.head? = some '/' := by
  rw [← layout.rooted]
  rcases layout.lead with root | here | ⟨none, pieces⟩
  · simp [root, leadText]
  · simp [here, leadText]
  · refine ⟨fun absolute => ?_, fun root => by rw [root] at none; cases none⟩
    rw [none, leadText, List.nil_append] at absolute
    · obtain ⟨rest, longer⟩ := intercalate_isPrefix front
      rw [layout.rooted, ← @List.intercalate_splitOn _ cs _ _ '/', pieces, ← longer,
        List.head?_append, absolute]
      rfl
    · simp
    · simp

end Front

theorem parent?_spec {path parent : String} (found : parent? path = some parent) :
    isAbsolute parent = isAbsolute path ∧
      counting (parent.toList.splitOn '/') <+: counting (path.toList.splitOn '/').dropLast := by
  have layout := layout_isOf path.toList
  unfold parent? at found
  dsimp only at found
  split at found
  · split at found
    · next here =>
      cases found
      refine ⟨?_, List.nil_prefix⟩
      have relative : ¬path.toList.head? = some '/' := by
        rw [← layout.rooted, here]
        simp
      simp [isAbsolute, relative]
    · cases found
  · next piece pieces trimmed =>
    cases found
    have front : trimEnd (piece :: pieces).dropLast <+:
        (Path.layout path.toList).body.dropLast := by
      rw [← trimmed]
      exact (trimEnd_isPrefix _).trans (dropLast_isPrefix (trimEnd_isPrefix _))
    have inner := front.trans (List.dropLast_prefix _)
    rw [isAbsolute, isAbsolute, String.toList_ofList, counting_front layout inner, layout.counting]
    exact ⟨decide_eq_decide.mpr (head?_front layout inner), front.filter _⟩

end PolicyMend.Path
