import PolicyMend.Package
import PolicyMend.Proofs.PathPieces

/-!
Joined paths by their components. A relative path adds its pieces to the components of the path that
it is joined to, so the name of a file is the last component of every path that ends in it. Main
statement: a file that is put where it belongs belongs there.
-/

namespace PolicyMend.Path

/-! ### Layouts of joined texts -/

theorem layout_plain {cs : List Char} (relative : cs.head? ≠ some '/')
    (plain : (cs.splitOn '/').head? ≠ some ['.']) : layout cs = ⟨none, cs.splitOn '/'⟩ := by
  unfold layout
  split
  · exact absurd rfl relative
  · exact absurd rfl plain
  · next rest =>
    refine absurd ?_ plain
    rw [splitOn_dotted]
    rfl
  · rfl

theorem eq_of_dotted {cs : List Char} (dotted : (cs.splitOn '/').head? = some ['.']) :
    cs = ['.'] ∨ ∃ rest, cs = '.' :: '/' :: rest := by
  rw [← @List.intercalate_splitOn _ cs _ _ '/']
  cases pieces : cs.splitOn '/' with
  | nil => exact absurd pieces (List.splitOn_ne_nil '/' cs)
  | cons piece rest =>
    rw [pieces] at dotted
    obtain rfl : piece = ['.'] := Option.some.inj dotted
    cases rest with
    | nil => exact .inl rfl
    | cons next rest => exact .inr ⟨['/'].intercalate (next :: rest), rfl⟩

def named (cs : List Char) : List Component := (counting (cs.splitOn '/')).map pieceComponent

theorem named_append (front rest : List Char) :
    named (front ++ '/' :: rest) = named front ++ named rest := by
  rw [named, List.splitOn_append_cons_self, counting, List.filter_append, List.map_append]
  rfl

theorem components_append_sep {cs : List Char} (nonempty : cs ≠ []) (rest : List Char) :
    (layout (cs ++ '/' :: rest)).components = (layout cs).components ++ named rest := by
  by_cases absolute : cs.head? = some '/'
  · obtain ⟨front, rfl⟩ : ∃ front, cs = '/' :: front := by
      cases cs with
      | nil => cases absolute
      | cons c front => exact ⟨front, by rw [Option.some.inj absolute]⟩
    show .root :: named (front ++ '/' :: rest) = .root :: named front ++ named rest
    rw [named_append]
    rfl
  · by_cases dotted : (cs.splitOn '/').head? = some ['.']
    · rcases eq_of_dotted dotted with rfl | ⟨front, rfl⟩
      · rfl
      · show .here :: named (front ++ '/' :: rest) = .here :: named front ++ named rest
        rw [named_append]
        rfl
    · have relative : (cs ++ '/' :: rest).head? ≠ some '/' := by
        rw [List.head?_append_of_ne_nil _ nonempty]
        exact absolute
      have plain : ((cs ++ '/' :: rest).splitOn '/').head? ≠ some ['.'] := by
        rw [List.splitOn_append_cons_self,
          List.head?_append_of_ne_nil _ (List.splitOn_ne_nil '/' cs)]
        exact dotted
      rw [layout_plain relative plain, layout_plain absolute dotted]
      exact named_append cs rest

theorem components_join {base other : String} (nonempty : base ≠ "")
    (relative : isAbsolute other = false) :
    components (join base other) = components base ++ named other.toList := by
  have filled : base.toList ≠ [] := by simpa using nonempty
  unfold join
  rw [relative, String.isEmpty_eq_false_iff.mpr nonempty, Bool.or_false, if_neg (by simp)]
  split
  · next closed =>
    obtain ⟨front, split⟩ := List.getLast?_eq_some_iff.mp closed
    rw [components, components, String.toList_append, split, List.append_assoc]
    cases front with
    | nil => rfl
    | cons c front =>
      rw [List.singleton_append, components_append_sep (List.cons_ne_nil c front),
        components_append_sep (List.cons_ne_nil c front) []]
      simp [named, counting, isIdle]
  · rw [components, components, String.toList_append, String.toList_append, List.append_assoc]
    exact components_append_sep filled other.toList

/-! ### File names -/

structure IsName (text : List Char) : Prop where
  whole : '/' ∉ text
  counts : isIdle text = false
  down : text ≠ ['.', '.']

theorem fileName?_isName {path name : String} (found : fileName? path = some name) :
    IsName name.toList := by
  unfold fileName? at found
  split at found
  · next text last =>
    obtain rfl := Option.some.inj found
    rw [String.toList_ofList]
    have layout := layout_isOf path.toList
    have member : Component.name text ∈ (Path.layout path.toList).components :=
      List.mem_of_getLast? last
    rw [Layout.components, List.mem_append] at member
    rcases member with lead | inside
    · rcases layout.lead with root | here | ⟨none, -⟩
      · simp [root] at lead
      · simp [here] at lead
      · simp [none] at lead
    · obtain ⟨piece, counted, same⟩ := List.mem_map.mp inside
      obtain ⟨listed, notIdle⟩ := List.mem_filter.mp counted
      unfold pieceComponent at same
      split at same
      · cases same
      · next notUp =>
        obtain rfl := Component.name.inj same
        exact ⟨layout.whole piece listed, by simpa using notIdle, notUp⟩
  · cases found

theorem IsName.named {text : List Char} (name : IsName text) : named text = [.name text] := by
  rw [Path.named, List.splitOn_eq_singleton name.whole, counting,
    List.filter_cons_of_pos (by simp [name.counts])]
  simp [pieceComponent, name.down]

theorem IsName.relative {name : String} (isName : IsName name.toList) :
    isAbsolute name = false := by
  refine decide_eq_false fun absolute => isName.whole ?_
  exact List.mem_of_head? absolute

theorem components_join_name {name : String} (base : String) (isName : IsName name.toList) :
    components (join base name) = components base ++ [.name name.toList] := by
  by_cases empty : base = ""
  · subst empty
    have plain : (name.toList.splitOn '/').head? ≠ some ['.'] := by
      rw [List.splitOn_eq_singleton isName.whole]
      intro dot
      have idle := isName.counts
      rw [Option.some.inj dot] at idle
      cases idle
    have relative : name.toList.head? ≠ some '/' := fun absolute =>
      isName.whole (List.mem_of_head? absolute)
    rw [join, if_pos (by simp), components, layout_plain relative plain]
    exact isName.named
  · rw [components_join empty isName.relative, isName.named]

theorem fileName?_join {path name : String} (base : String) (found : fileName? path = some name) :
    fileName? (join base name) = some name := by
  rw [fileName?, components_join_name base (fileName?_isName found), List.getLast?_concat]
  exact congrArg some String.ofList_toList

end PolicyMend.Path

namespace PolicyMend.Package

/-- Where a file belongs depends on its contents and its name only, so it does not change when the
file goes there. -/
theorem home?_home {besideTested : Bool} {baseDir filename contents home : String}
    (found : home? besideTested baseDir filename contents = some home) :
    home? besideTested baseDir home contents = some home := by
  unfold home? at found ⊢
  obtain ⟨reference, declared, rest⟩ := Option.bind_eq_some_iff.mp found
  obtain ⟨name, named, made⟩ := Option.bind_eq_some_iff.mp rest
  obtain rfl := Option.some.inj made
  rw [declared, Option.bind_eq_bind, Option.bind_some, Path.fileName?_join _ named]
  rfl

end PolicyMend.Package
