import PolicyMend.OrderedMap

/-!
Entries, keys and size of an ordered map, described by look-up. A map has one entry for each key it
finds, so a key that is replaced by a new one leaves the size as it was.
-/

namespace PolicyMend.OrderedMap

variable {κ ν : Type} [DecidableEq κ]

theorem lookup_eq_some_iff {entries : List (κ × ν)} (nodup : (entries.map Prod.fst).Nodup)
    (key : κ) (value : ν) : lookup key entries = some value ↔ (key, value) ∈ entries := by
  induction entries with
  | nil => simp [lookup]
  | cons entry rest ih =>
    obtain ⟨k, v⟩ := entry
    rw [List.map_cons, List.nodup_cons] at nodup
    by_cases here : k = key
    · subst here
      have absent : (k, value) ∉ rest := fun member =>
        nodup.1 (List.mem_map.mpr ⟨(k, value), member, rfl⟩)
      simp [lookup, absent, eq_comm]
    · have other : key ≠ k := Ne.symm here
      simp [lookup, here, other, ih nodup.2]

theorem get?_eq_some_iff (m : OrderedMap κ ν) (key : κ) (value : ν) :
    m.get? key = some value ↔ (key, value) ∈ m.entries :=
  lookup_eq_some_iff m.nodup key value

theorem mem_keys_iff (m : OrderedMap κ ν) (key : κ) : key ∈ m.keys ↔ m.contains key = true := by
  rw [contains, Option.isSome_iff_exists, keys, List.mem_map]
  constructor
  · rintro ⟨⟨k, v⟩, member, rfl⟩
    exact ⟨v, (m.get?_eq_some_iff k v).mpr member⟩
  · rintro ⟨value, found⟩
    exact ⟨(key, value), (m.get?_eq_some_iff key value).mp found, rfl⟩

theorem mem_values_iff (m : OrderedMap κ ν) (value : ν) :
    value ∈ m.values ↔ ∃ key, m.get? key = some value := by
  rw [values, List.mem_map]
  constructor
  · rintro ⟨⟨k, v⟩, member, rfl⟩
    exact ⟨k, (m.get?_eq_some_iff k v).mpr member⟩
  · rintro ⟨key, found⟩
    exact ⟨(key, value), (m.get?_eq_some_iff key value).mp found, rfl⟩

/-! ### Entries up to their order -/

/-- A map has one entry more than another if it finds one key more and all others alike. -/
theorem entries_perm_cons {m rest : OrderedMap κ ν} {key : κ} {value : ν}
    (found : m.get? key = some value) (absent : rest.get? key = none)
    (elsewhere : ∀ other, other ≠ key → m.get? other = rest.get? other) :
    m.entries.Perm ((key, value) :: rest.entries) := by
  have outside : (key, value) ∉ rest.entries := by
    rw [← rest.get?_eq_some_iff, absent]
    exact Option.some_ne_none value |>.symm
  have nodup : ∀ m : OrderedMap κ ν, m.entries.Nodup := fun m =>
    List.Pairwise.of_map Prod.fst (fun _ _ differ same => differ (congrArg Prod.fst same)) m.nodup
  refine (List.perm_ext_iff_of_nodup (nodup m) (List.nodup_cons.mpr ⟨outside, nodup rest⟩)).mpr ?_
  rintro ⟨k, v⟩
  rw [List.mem_cons, ← m.get?_eq_some_iff, ← rest.get?_eq_some_iff, Prod.mk.injEq]
  by_cases here : k = key
  · subst here
    rw [found, absent]
    simp [eq_comm]
  · simp [elsewhere k here, here]

/-! ### Size -/

omit [DecidableEq κ] in
theorem size_eq_length_keys (m : OrderedMap κ ν) : m.size = m.keys.length := by
  simp [size, keys]

theorem size_insert (m : OrderedMap κ ν) (key : κ) (value : ν) :
    (m.insert key value).size = if m.contains key then m.size else m.size + 1 := by
  rw [size_eq_length_keys, keys_insert, size_eq_length_keys]
  by_cases present : key ∈ m.keys
  · rw [if_pos present, if_pos ((m.mem_keys_iff key).mp present)]
  · rw [if_neg present, if_neg (fun found => present ((m.mem_keys_iff key).mpr found)),
      List.length_append, List.length_singleton]

theorem keys_erase (m : OrderedMap κ ν) (key : κ) : (m.erase key).keys = m.keys.erase key := by
  have dropped : ∀ entries : List (κ × ν),
      (drop key entries).map Prod.fst = (entries.map Prod.fst).filter (· ≠ key) := by
    intro entries
    simp [drop, List.filter_map, Function.comp_def]
  rw [keys, keys, erase, dropped, m.nodup.erase_eq_filter]
  refine List.filter_congr fun k _ => ?_
  rw [Bool.eq_iff_iff, decide_eq_true_iff, bne_iff_ne]

theorem size_erase (m : OrderedMap κ ν) {key : κ} (present : m.contains key = true) :
    (m.erase key).size + 1 = m.size := by
  have member := (m.mem_keys_iff key).mpr present
  rw [size_eq_length_keys, size_eq_length_keys, keys_erase, List.length_erase_of_mem member]
  have positive := List.length_pos_of_mem member
  omega

end PolicyMend.OrderedMap
