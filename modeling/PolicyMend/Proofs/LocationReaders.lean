import PolicyMend.Location
import PolicyMend.Proofs.DecodedTrees

/-!
The two readers of locations compared. Both are described by the parts of the text: the strict one
takes each key from the only member that has it, the loose one from the last of them. Main
statement: a location that the loose reader takes from a text is written there in decimal notation,
the strict reader takes no other one, and it takes that one exactly if no key it reads is repeated
and no column goes by another name.
-/

namespace PolicyMend

open Json (Decodes Figure Fills Reader Schema Tree)
open Json.Tree (named)

/-! ### The strict reader -/

inductive Position.Denotes : Tree → Position → Prop
  | object {members : List (String × Tree)} {row col : Tree} {p : Position}
      (oneRow : named members "row" = [row]) (oneCol : named members "col" = [col])
      (isRow : row.value = wordToJson p.row) (isCol : col.value = wordToJson p.col) :
      Denotes (.object members) p
  | array {row col : Tree} {p : Position} (isRow : row.value = wordToJson p.row)
      (isCol : col.value = wordToJson p.col) : Denotes (.array [row, col]) p

inductive Position.StopDenotes : List Tree → Option Position → Prop
  | absent : StopDenotes [] none
  | null : StopDenotes [.null] none
  | given {tree : Tree} {p : Position} (denotes : Denotes tree p) : StopDenotes [tree] (some p)

inductive Location.Denotes : Tree → Location → Prop
  | object {members : List (String × Tree)} {row col : Tree} {l : Location}
      (oneRow : named members "row" = [row]) (oneCol : named members "col" = [col])
      (isRow : row.value = wordToJson l.row) (isCol : col.value = wordToJson l.col)
      (stop : Position.StopDenotes (named members "end") l.stop) : Denotes (.object members) l
  | array {row col : Tree} {stops : List Tree} {l : Location} (isRow : row.value = wordToJson l.row)
      (isCol : col.value = wordToJson l.col) (stop : Position.StopDenotes stops l.stop) :
      Denotes (.array (row :: col :: stops)) l

theorem Position.Denotes.ne_null {tree : Tree} {p : Position} (denotes : Denotes tree p) :
    tree ≠ .null := by
  rintro rfl
  cases denotes

theorem Position.made_iff {row col : Option UInt32} {p : Position} :
    (do return { row := ← row, col := ← col } : Option Position) = some p ↔
      row = some p.row ∧ col = some p.col := by
  obtain ⟨r, c⟩ := p
  cases row <;> cases col <;> simp

theorem Location.made_iff {row col : Option UInt32} {stop : Option (Option Position)}
    {l : Location} :
    (do return { row := ← row, col := ← col, stop := stop.getD none } : Option Location) = some l ↔
      row = some l.row ∧ col = some l.col ∧ stop.getD none = l.stop := by
  obtain ⟨r, c, s⟩ := l
  cases row <;> cases col <;> simp

open Json in
theorem Position.decodes : Decodes Position.reader Position.Denotes := by
  have decodes := Schema.decodes_record
    (.field _ decodes_word32 (.field _ decodes_word32 .done) :
      Schema (.field "row" Reader.word32 (.field "col" Reader.word32 .done)))
    fun found => do return ({ row := ← found.1, col := ← found.2.1 } : Position)
  intro depth text tree rest held p later
  refine (decodes depth text tree rest held p later).trans (and_congr_right fun _ => ?_)
  simp only [Position.made_iff]
  constructor
  · rintro ⟨⟨_, _, _⟩, finds, rfl, rfl⟩
    cases finds with
    | object gathers =>
      rw [Schema.gathers_field_iff (by decide), Schema.gathers_field_iff (by decide)] at gathers
      obtain ⟨rows, cols, -⟩ := gathers
      obtain ⟨row, oneRow, isRow⟩ := fills_some_iff.mp rows
      obtain ⟨col, oneCol, isCol⟩ := fills_some_iff.mp cols
      exact .object oneRow oneCol isRow isCol
    | @array trees _ lists =>
      rcases trees with _ | ⟨row, _ | ⟨col, trees⟩⟩
      · cases lists
      · cases lists.2
      · obtain ⟨⟨r, isRow, sameRow⟩, ⟨c, isCol, sameCol⟩, rfl⟩ := lists
        cases sameRow
        cases sameCol
        exact .array isRow isCol
  · intro denotes
    refine ⟨(some p.row, some p.col, ()), ?_, rfl, rfl⟩
    cases denotes with
    | object oneRow oneCol isRow isCol =>
      refine .object ?_
      rw [Schema.gathers_field_iff (by decide), Schema.gathers_field_iff (by decide)]
      exact ⟨fills_some_iff.mpr ⟨_, oneRow, isRow⟩, fills_some_iff.mpr ⟨_, oneCol, isCol⟩,
        Schema.gathers_done _⟩
    | array isRow isCol => exact .array ⟨⟨_, isRow, rfl⟩, ⟨_, isCol, rfl⟩, rfl⟩

theorem Position.stopDenotes_iff {trees : List Tree} {stop : Option Position} :
    (∃ found : Option (Option Position),
      Fills (fun tree found => (tree = .null ∧ found = none) ∨
        (tree ≠ .null ∧ ∃ p, Denotes tree p ∧ found = some p)) none trees found ∧
      found.getD none = stop) ↔ StopDenotes trees stop := by
  constructor
  · rintro ⟨_, ⟨⟩ | ⟨⟨rfl, rfl⟩ | ⟨-, p, denotes, rfl⟩⟩, rfl⟩
    · exact .absent
    · exact .null
    · exact .given denotes
  · intro denotes
    cases denotes with
    | absent => exact ⟨none, .nothing none, rfl⟩
    | null => exact ⟨some none, .once (.inl ⟨rfl, rfl⟩), rfl⟩
    | @given tree p denotes =>
      exact ⟨some (some p), .once (.inr ⟨denotes.ne_null, p, denotes, rfl⟩), rfl⟩

open Json in
theorem Location.decodes : Decodes Location.reader Location.Denotes := by
  have decodes := Schema.decodes_record
    (.field _ decodes_word32 (.field _ decodes_word32 (.field _ Position.decodes.optional .done)) :
      Schema (.field "row" Reader.word32 (.field "col" Reader.word32
        (.field "end" (Reader.optional Position.reader) .done))))
    fun found => do
      return ({ row := ← found.1, col := ← found.2.1, stop := found.2.2.1.getD none } : Location)
  intro depth text tree rest held l later
  refine (decodes depth text tree rest held l later).trans (and_congr_right fun _ => ?_)
  simp only [Location.made_iff]
  constructor
  · rintro ⟨⟨_, _, found, _⟩, finds, rfl, rfl, same⟩
    cases finds with
    | object gathers =>
      rw [Schema.gathers_field_iff (by decide), Schema.gathers_field_iff (by decide),
        Schema.gathers_field_iff (by decide)] at gathers
      obtain ⟨rows, cols, stops, -⟩ := gathers
      obtain ⟨row, oneRow, isRow⟩ := fills_some_iff.mp rows
      obtain ⟨col, oneCol, isCol⟩ := fills_some_iff.mp cols
      exact .object oneRow oneCol isRow isCol (Position.stopDenotes_iff.mp ⟨found, stops, same⟩)
    | @array trees _ lists =>
      rcases trees with _ | ⟨row, _ | ⟨col, trees⟩⟩
      · cases lists
      · cases lists.2
      · obtain ⟨⟨r, isRow, sameRow⟩, ⟨c, isCol, sameCol⟩, stops⟩ := lists
        cases sameRow
        cases sameCol
        have filled := (Schema.lists_last_iff Position.decodes.optional).mp stops
        exact .array isRow isCol (Position.stopDenotes_iff.mp ⟨found, filled, same⟩)
  · intro denotes
    cases denotes with
    | object oneRow oneCol isRow isCol stop =>
      obtain ⟨found, filled, same⟩ := Position.stopDenotes_iff.mpr stop
      refine ⟨(some l.row, some l.col, found, ()), .object ?_, rfl, rfl, same⟩
      rw [Schema.gathers_field_iff (by decide), Schema.gathers_field_iff (by decide),
        Schema.gathers_field_iff (by decide)]
      exact ⟨fills_some_iff.mpr ⟨_, oneRow, isRow⟩, fills_some_iff.mpr ⟨_, oneCol, isCol⟩, filled,
        Schema.gathers_done _⟩
    | array isRow isCol stop =>
      obtain ⟨found, filled, same⟩ := Position.stopDenotes_iff.mpr stop
      refine ⟨(some l.row, some l.col, found, ()), .array ?_, rfl, rfl, same⟩
      exact ⟨⟨_, isRow, rfl⟩, ⟨_, isCol, rfl⟩,
        (Schema.lists_last_iff Position.decodes.optional).mpr filled⟩

/-! ### The loose reader -/

/-- The decimal notation of a word stands in a text, where a tree has that number. -/
def Spells (whole : List Char) (tree : Tree) (n : UInt32) : Prop :=
  ∃ f : Figure, tree = .number f ∧ f.value = .integer n.toNat ∧ f.Writes n.toNat ∧ f.text <:+ whole

/-- A position as the loose reader takes it from the members of an object: `column` counts where
there is no `col`, and the last member with a key counts. -/
structure Position.WrittenIn (whole : List Char) (members : List (String × Tree))
    (p : Position) : Prop where
  row : ∃ tree, (named members "row").getLast? = some tree ∧ Spells whole tree p.row
  col : ∃ tree, (named members (if named members "col" = [] then "column" else "col")).getLast? =
    some tree ∧ Spells whole tree p.col

/-- Where a location stops, as the loose reader takes it from the last value that says so. -/
inductive Position.StopWrittenIn (whole : List Char) : Option Tree → Option Position → Prop
  | absent : StopWrittenIn whole none none
  | null : StopWrittenIn whole (some .null) none
  | object {members : List (String × Tree)} {p : Position} (written : p.WrittenIn whole members) :
      StopWrittenIn whole (some (.object members)) (some p)

structure Location.WrittenIn (whole : List Char) (members : List (String × Tree))
    (l : Location) : Prop where
  start : Position.WrittenIn whole members ⟨l.row, l.col⟩
  stop : Position.StopWrittenIn whole (named members "end").getLast? l.stop

section Loose

variable {whole : List Char} {members : List (String × Tree)}

theorem mem_of_mem_named {name : String} {tree : Tree} (listed : tree ∈ named members name) :
    (name, tree) ∈ members := by
  obtain ⟨⟨key, tree⟩, kept, rfl⟩ := List.mem_map.mp listed
  obtain ⟨member, same⟩ := List.mem_filter.mp kept
  obtain rfl : key = name := by simpa using same
  exact member

theorem spells_of_value {tree : Tree} {n : UInt32} (inside : tree.Within whole)
    (same : tree.value = wordToJson n) : Spells whole tree n := by
  cases inside with
  | @number f stands =>
    rw [Tree.value] at same
    have natural : f.value = .integer n.toNat := Json.number.inj same
    exact ⟨f, rfl, natural, f.writes natural, stands⟩
  | null | boolean | string | array | object =>
    rw [Tree.value] at same
    cases same

theorem field?_gathered_nil (members : List (String × Tree)) (name : String) :
    Json.field? (Tree.gathered [] members) name =
      (named members name).getLast?.map Tree.value := by
  rw [Tree.field?_gathered]
  exact Option.or_none

theorem wordField_ok {fields : List (String × Json)} {name path : String} {n : UInt32}
    (taken : wordField fields name path = .ok n) :
    Json.field? fields name = some (wordToJson n) := by
  unfold wordField at taken
  dsimp only at taken
  split at taken
  · rename_i value found
    split at taken
    · rename_i inRange
      cases taken
      rw [found, wordToJson, Json.ofNat, UInt32.toNat_ofNat_of_lt' inRange.2,
        Int.toNat_of_nonneg inRange.1]
    · cases taken
  · cases taken

theorem spells_of_wordField (inside : ∀ member ∈ members, member.2.Within whole)
    {name path : String} {n : UInt32}
    (taken : wordField (Tree.gathered [] members) name path = .ok n) :
    ∃ tree, (named members name).getLast? = some tree ∧ Spells whole tree n := by
  have found := wordField_ok taken
  rw [field?_gathered_nil] at found
  obtain ⟨tree, last, same⟩ := Option.map_eq_some_iff.mp found
  have member := mem_of_mem_named (List.mem_of_getLast? last)
  exact ⟨tree, last, spells_of_value (inside _ member) same⟩

theorem Position.writtenIn_of_ofFields (inside : ∀ member ∈ members, member.2.Within whole)
    {path : String} {p : Position}
    (taken : Position.ofFields (Tree.gathered [] members) path = .ok p) :
    p.WrittenIn whole members := by
  obtain ⟨row, takenRow, taken⟩ := bind_ok taken
  obtain ⟨col, takenCol, taken⟩ := bind_ok taken
  cases taken
  have name : (if (Json.field? (Tree.gathered [] members) "col").isSome then "col" else "column") =
      if named members "col" = [] then "column" else "col" := by
    rw [field?_gathered_nil]
    cases named members "col" with
    | nil => rfl
    | cons tree trees =>
      rw [List.getLast?_cons, if_neg (List.cons_ne_nil tree trees)]
      rfl
  rw [name] at takenCol
  exact ⟨spells_of_wordField inside takenRow, spells_of_wordField inside takenCol⟩

theorem Location.writtenIn_of_ofJson {tree : Tree} (inside : tree.Within whole) {l : Location}
    (taken : Location.ofJson tree.value = .ok l) :
    ∃ members, tree = .object members ∧ l.WrittenIn whole members := by
  cases inside with
  | @object members all =>
    -- The value keeps one field for each key, with the value of the last member that has it.
    refine ⟨members, rfl, ?_⟩
    rw [Tree.value] at taken
    obtain ⟨start, takenStart, taken⟩ := bind_ok taken
    have start := Position.writtenIn_of_ofFields all takenStart
    rw [field?_gathered_nil] at taken
    cases last : (named members "end").getLast? with
    | none =>
      rw [last] at taken
      cases taken
      exact ⟨start, last ▸ .absent⟩
    | some tree =>
      rw [last, Option.map_some] at taken
      have within : tree.Within whole := all _ (mem_of_mem_named (List.mem_of_getLast? last))
      cases within with
      | null =>
        rw [Tree.value] at taken
        cases taken
        exact ⟨start, last ▸ .null⟩
      | object inner =>
        rw [Tree.value] at taken
        obtain ⟨stop, takenStop, taken⟩ := bind_ok taken
        cases taken
        exact ⟨start, last ▸ .object (Position.writtenIn_of_ofFields inner takenStop)⟩
      | boolean | number | string | array =>
        rw [Tree.value] at taken
        cases taken
  | null | boolean | number | string | array =>
    rw [Tree.value] at taken
    cases taken

end Loose

/-! ### Both readers -/

/-- No key of a position is repeated, and the column is not left out. -/
structure Position.WrittenOnce (members : List (String × Tree)) : Prop where
  row : (named members "row").length ≤ 1
  col : (named members "col").length = 1

structure Location.WrittenOnce (members : List (String × Tree)) : Prop where
  start : Position.WrittenOnce members
  stop : (named members "end").length ≤ 1
  inner : ∀ inner, named members "end" = [.object inner] → Position.WrittenOnce inner

section Both

variable {whole : List Char} {members : List (String × Tree)}

theorem Spells.value {tree : Tree} {n : UInt32} (spells : Spells whole tree n) :
    tree.value = wordToJson n := by
  obtain ⟨f, rfl, natural, -⟩ := spells
  rw [Tree.value, natural]
  rfl

theorem eq_of_spells {tree : Tree} {n m : UInt32} (same : tree.value = wordToJson n)
    (spells : Spells whole tree m) : n = m := by
  have equal := Json.Number.integer.inj (Json.number.inj (same.symm.trans spells.value))
  exact UInt32.toNat_inj.mp (by omega)

theorem eq_singleton_of_getLast? {trees : List Tree} {tree : Tree}
    (last : trees.getLast? = some tree) (short : trees.length ≤ 1) : trees = [tree] := by
  rcases trees with _ | ⟨first, _ | ⟨second, others⟩⟩
  · cases last
  · cases last
    rfl
  · simp only [List.length_cons] at short
    omega

theorem Position.Denotes.eq_of_writtenIn {p q : Position} (denotes : Denotes (.object members) p)
    (written : q.WrittenIn whole members) : p = q := by
  cases denotes with
  | object oneRow oneCol isRow isCol =>
    obtain ⟨⟨row, lastRow, spellsRow⟩, ⟨col, lastCol, spellsCol⟩⟩ := written
    rw [oneRow] at lastRow
    rw [oneCol, if_neg (List.cons_ne_nil _ _), oneCol] at lastCol
    cases lastRow
    cases lastCol
    obtain ⟨r, c⟩ := p
    obtain ⟨r', c'⟩ := q
    rw [Position.mk.injEq]
    exact ⟨eq_of_spells isRow spellsRow, eq_of_spells isCol spellsCol⟩

theorem Position.WrittenIn.denotes_iff {p : Position} (written : p.WrittenIn whole members) :
    Denotes (.object members) p ↔ WrittenOnce members := by
  obtain ⟨⟨row, lastRow, spellsRow⟩, ⟨col, lastCol, spellsCol⟩⟩ := written
  constructor
  · intro denotes
    cases denotes with
    | object oneRow oneCol isRow isCol =>
      exact ⟨by rw [oneRow]; exact Nat.le_refl 1, by rw [oneCol]; rfl⟩
  · rintro ⟨oneRow, oneCol⟩
    have present : named members "col" ≠ [] := by
      intro absent
      rw [absent] at oneCol
      cases oneCol
    rw [if_neg present] at lastCol
    exact .object (eq_singleton_of_getLast? lastRow oneRow)
      (eq_singleton_of_getLast? lastCol (Nat.le_of_eq oneCol)) spellsRow.value spellsCol.value

theorem Position.StopDenotes.eq_of_writtenIn {trees : List Tree} {stop other : Option Position}
    (denotes : StopDenotes trees stop) (written : StopWrittenIn whole trees.getLast? other) :
    stop = other := by
  cases denotes with
  | absent =>
    cases written
    rfl
  | null =>
    cases written
    rfl
  | given denotes =>
    cases written with
    | null => cases denotes
    | object written => rw [denotes.eq_of_writtenIn written]

theorem Position.StopWrittenIn.denotes_iff {trees : List Tree} {stop : Option Position}
    (written : StopWrittenIn whole trees.getLast? stop) :
    StopDenotes trees stop ↔
      trees.length ≤ 1 ∧ ∀ inner, trees = [.object inner] → WrittenOnce inner := by
  constructor
  · intro denotes
    cases denotes with
    | absent => exact ⟨Nat.zero_le 1, nofun⟩
    | null => exact ⟨Nat.le_refl 1, nofun⟩
    | given denotes =>
      refine ⟨Nat.le_refl 1, fun inner same => ?_⟩
      cases same
      cases written with
      | object written => exact written.denotes_iff.mp denotes
  · rintro ⟨short, once⟩
    cases last : trees.getLast? with
    | none =>
      obtain rfl := List.getLast?_eq_none_iff.mp last
      cases written
      exact .absent
    | some tree =>
      obtain rfl := eq_singleton_of_getLast? last short
      cases written with
      | null => exact .null
      | object written => exact .given (written.denotes_iff.mpr (once _ rfl))

theorem Location.denotes_object_iff {l : Location} :
    Denotes (.object members) l ↔ Position.Denotes (.object members) ⟨l.row, l.col⟩ ∧
      Position.StopDenotes (named members "end") l.stop := by
  constructor
  · rintro ⟨⟩
    exact ⟨.object ‹_› ‹_› ‹_› ‹_›, ‹_›⟩
  · rintro ⟨⟨⟩, stop⟩
    exact .object ‹_› ‹_› ‹_› ‹_› stop

theorem Location.Denotes.eq_of_writtenIn {l k : Location} (denotes : Denotes (.object members) l)
    (written : k.WrittenIn whole members) : l = k := by
  obtain ⟨start, stop⟩ := denotes_object_iff.mp denotes
  have sameStart := start.eq_of_writtenIn written.start
  have sameStop := stop.eq_of_writtenIn written.stop
  obtain ⟨r, c, s⟩ := l
  obtain ⟨r', c', s'⟩ := k
  cases sameStart
  cases sameStop
  rfl

theorem Location.WrittenIn.denotes_iff {l : Location} (written : l.WrittenIn whole members) :
    Denotes (.object members) l ↔ WrittenOnce members := by
  rw [denotes_object_iff, written.start.denotes_iff, written.stop.denotes_iff]
  constructor
  · rintro ⟨start, stop, inner⟩
    exact ⟨start, stop, inner⟩
  · rintro ⟨start, stop, inner⟩
    exact ⟨start, stop, inner⟩

/-- Keys of an object that are all different, with a column among them. -/
structure Position.Plain (members : List (String × Tree)) : Prop where
  distinct : (members.map Prod.fst).Nodup
  col : "col" ∈ members.map Prod.fst

theorem Position.Plain.length_named_le (plain : Plain members) (name : String) :
    (named members name).length ≤ 1 := by
  rw [Tree.length_named]
  exact List.nodup_iff_count.mp plain.distinct name

theorem Position.Plain.writtenOnce (plain : Plain members) : WrittenOnce members := by
  have present : 0 < (named members "col").length := by
    rw [Tree.length_named]
    exact List.count_pos_iff.mpr plain.col
  exact ⟨plain.length_named_le "row", Nat.le_antisymm (plain.length_named_le "col") present⟩

theorem Location.writtenOnce_of_plain (plain : Position.Plain members)
    (inner : ∀ inner, ("end", Tree.object inner) ∈ members → Position.Plain inner) :
    WrittenOnce members := by
  refine ⟨plain.writtenOnce, plain.length_named_le "end", fun stop only => ?_⟩
  have listed : Tree.object stop ∈ named members "end" := by
    rw [only]
    exact List.mem_singleton_self _
  exact (inner stop (mem_of_mem_named listed)).writtenOnce

end Both

/-- A location that the loose reader takes from a text is written there, the strict reader takes no
other location, and it takes that one exactly if no key is repeated and no column left out. -/
theorem Location.readers_agree {text : String} {value : Json} {loose : Location}
    (parsed : Json.parse text = .ok value) (taken : Location.ofJson value = .ok loose) :
    ∃ members, Tree.parse text = .ok (.object members) ∧
      loose.WrittenIn text.toList members ∧
      (∀ strict, Reader.whole Location.reader text = .ok strict → strict = loose) ∧
      (Position.Plain members →
        (∀ inner, ("end", Tree.object inner) ∈ members → Position.Plain inner) →
        Reader.whole Location.reader text = .ok loose) ∧
      (Reader.whole Location.reader text = .ok loose ↔ WrittenOnce members) := by
  rw [Tree.parse_eq] at parsed
  obtain ⟨tree, held, rfl⟩ := map_eq_ok parsed
  obtain ⟨members, rfl, written⟩ := writtenIn_of_ofJson (Tree.parse_within held) taken
  have decodes := Location.decodes.whole held
  have succeeds := (decodes loose).trans written.denotes_iff
  refine ⟨members, held, written, fun strict read => ?_, fun plain inner => ?_, succeeds⟩
  · exact ((decodes strict).mp read).eq_of_writtenIn written
  · exact succeeds.mpr (writtenOnce_of_plain plain inner)

def Location.reorderedText : String :=
  "\x7b\"n\":[true],\"end\":\x7b\"col\":7,\"row\":12\x7d,\"col\":4294967295,\"row\":0\x7d"

def Location.reorderedValue : Json :=
  .object [("n", .array [.boolean true]),
    ("end", .object [("col", Json.ofNat 7), ("row", Json.ofNat 12)]),
    ("col", Json.ofNat 4294967295), ("row", Json.ofNat 0)]

theorem Location.readers_agree_reordered :
    Json.parse reorderedText = .ok reorderedValue ∧
      Location.ofJson reorderedValue = .ok ⟨0, 4294967295, some ⟨12, 7⟩⟩ ∧
      Reader.whole Location.reader reorderedText = .ok ⟨0, 4294967295, some ⟨12, 7⟩⟩ ∧
      ∃ members, Tree.parse reorderedText = .ok (.object members) ∧ WrittenOnce members := by
  have parsed : Json.parse reorderedText = .ok reorderedValue := rfl
  have taken : Location.ofJson reorderedValue = .ok ⟨0, 4294967295, some ⟨12, 7⟩⟩ := rfl
  have read : Reader.whole Location.reader reorderedText =
    .ok ⟨0, 4294967295, some ⟨12, 7⟩⟩ := rfl
  obtain ⟨members, held, -, -, -, once⟩ := readers_agree parsed taken
  exact ⟨parsed, taken, read, members, held, once.mp read⟩

/-- A text that repeats a key where the location stops, and nowhere else. -/
def Location.repeatedText : String :=
  "\x7b\"row\":1,\"col\":2,\"end\":\x7b\"row\":3,\"row\":3,\"col\":4\x7d\x7d"

def Location.repeatedValue : Json :=
  .object [("row", Json.ofNat 1), ("col", Json.ofNat 2),
    ("end", .object [("row", Json.ofNat 3), ("col", Json.ofNat 4)])]

theorem Location.parse_repeatedText : ∃ a b c d e : Figure, Tree.parse repeatedText =
    .ok (.object [("row", .number a), ("col", .number b),
      ("end", .object [("row", .number c), ("row", .number d), ("col", .number e)])]) :=
  ⟨_, _, _, _, _, rfl⟩

/-- Distinct keys of the object alone are not enough: the strict reader refuses a key that is
repeated where a location stops. -/
theorem Location.strict_refuses_repeated_stop :
    ∃ members, Tree.parse repeatedText = .ok (.object members) ∧ Position.Plain members ∧
      (∀ inner, ("end", Tree.object inner) ∈ members → "col" ∈ inner.map Prod.fst) ∧
      Json.parse repeatedText = .ok repeatedValue ∧
      Location.ofJson repeatedValue = .ok ⟨1, 2, some ⟨3, 4⟩⟩ ∧
      Reader.whole Location.reader repeatedText = .error .mismatched := by
  obtain ⟨a, b, c, d, e, held⟩ := parse_repeatedText
  refine ⟨_, held, ⟨by simp, by simp⟩, fun inner listed => ?_, rfl, rfl, rfl⟩
  have same : inner = [("row", .number c), ("row", .number d), ("col", .number e)] := by
    simpa using listed
  rw [same]
  simp

end PolicyMend
