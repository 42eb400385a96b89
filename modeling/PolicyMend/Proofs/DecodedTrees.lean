import PolicyMend.Proofs.JsonTrees

/-!
Readers of one kind of value, described by the parts of the text they read. Main statements: a
reader of words, of optional values and of records reads up to the end of a value, and the parts of
the value alone decide what it makes of it; of a record, each field stands in at most one member.
-/

namespace PolicyMend.Json

/-- A reader that reads to the end of a value and makes of it what its parts mean. -/
def Decodes {α : Type} (read : Reader α) (means : Tree → α → Prop) : Prop :=
  ∀ depth text tree rest, Tree.reader depth text = .ok (tree, rest) →
    ∀ a later, read text = .ok (a, later) ↔ later = rest ∧ means tree a

section Words

theorem refuse_ne_ok {α : Type} {text later : List Char} {a : α} :
    Reader.refuse text ≠ .ok (a, later) := by
  intro read
  obtain ⟨⟨c, rest⟩, -, read⟩ := bind_ok read
  dsimp only at read
  split at read
  · cases read
  · obtain ⟨-, -, read⟩ := bind_ok read
    cases read

variable {text tail rest later : List Char} {c : Char} {n : UInt32}

theorem word32_ne_ok (ahead : next text = .ok (c, tail)) (notNumber : ¬(c = '-' ∨ c.isDigit)) :
    Reader.word32 text ≠ .ok (n, later) := by
  rw [Reader.word32, ahead, ok_bind]
  dsimp only
  rw [if_neg notNumber]
  exact refuse_ne_ok

theorem narrow_iff {number : Number} :
    (match number with
      | .integer value =>
        if 0 ≤ value ∧ value.toNat < UInt32.size then .ok (UInt32.ofNat value.toNat, rest)
        else .error Fault.mismatched
      | .float _ => .error .mismatched) = Except.ok (n, later) ↔
    later = rest ∧ .number number = ofNat n.toNat := by
  have bounded := n.toNat_lt
  cases number with
  | float value =>
    constructor
    · intro read
      cases read
    · rintro ⟨-, same⟩
      cases same
  | integer value =>
    dsimp only
    constructor
    · intro read
      split at read
      · rename_i inRange
        obtain ⟨rfl, rfl⟩ := Prod.mk.inj (Except.ok.inj read)
        refine ⟨rfl, ?_⟩
        rw [ofNat, UInt32.toNat_ofNat_of_lt' inRange.2, Int.toNat_of_nonneg inRange.1]
      · cases read
    · rintro ⟨rfl, same⟩
      obtain rfl := Number.integer.inj (Json.number.inj same)
      rw [if_pos (by rw [UInt32.size]; omega), Int.toNat_natCast, UInt32.ofNat_toNat]

theorem word32_iff {f : Figure} (ahead : next text = .ok (c, tail))
    (body : c = '-' ∧ Figure.reader true tail = .ok (f, rest) ∨
      c.isDigit ∧ Figure.reader false (c :: tail) = .ok (f, rest)) :
    Reader.word32 text = .ok (n, later) ↔ later = rest ∧ .number f.value = ofNat n.toNat := by
  rw [Reader.word32, ahead, ok_bind]
  dsimp only
  rcases body with ⟨rfl, read⟩ | ⟨isDigit, read⟩
  · rw [if_pos (.inl rfl), if_pos rfl, Figure.numberBody_eq, read]
    exact narrow_iff
  · rw [if_pos (.inr isDigit), if_neg (by rintro rfl; cases isDigit), Figure.numberBody_eq, read]
    exact narrow_iff

end Words

theorem decodes_word32 : Decodes Reader.word32 fun tree n => tree.value = ofNat n.toNat := by
  intro depth text tree rest read n later
  cases Tree.reader_cases read with
  | scalar ahead found =>
    cases found with
    | negative read =>
      simp only [Tree.value]
      exact word32_iff ahead (.inl ⟨rfl, read⟩)
    | digit isDigit read =>
      simp only [Tree.value]
      exact word32_iff ahead (.inr ⟨isDigit, read⟩)
    | null | yes | no | string =>
      simp only [Tree.value]
      constructor
      · intro read
        exact absurd read (word32_ne_ok ahead (by decide))
      · rintro ⟨-, same⟩
        cases same
  | array ahead | object ahead =>
    simp only [Tree.value]
    constructor
    · intro read
      exact absurd read (word32_ne_ok ahead (by decide))
    · rintro ⟨-, same⟩
      cases same

theorem Tree.null_or_not {depth : Nat} {text rest : List Char} {tree : Tree}
    (read : reader depth text = .ok (tree, rest)) :
    (tree = .null ∧ ∃ tail, next text = .ok ('n', tail) ∧
      dropWord ['u', 'l', 'l'] tail = .ok rest) ∨
    (tree ≠ .null ∧ ∃ c tail, next text = .ok (c, tail) ∧ c ≠ 'n') := by
  cases reader_cases read with
  | scalar ahead found =>
    cases found with
    | null word => exact .inl ⟨rfl, _, ahead, word⟩
    | digit isDigit => exact .inr ⟨nofun, _, _, ahead, by rintro rfl; cases isDigit⟩
    | yes | no | negative | string => exact .inr ⟨nofun, _, _, ahead, by decide⟩
  | array ahead | object ahead => exact .inr ⟨nofun, _, _, ahead, by decide⟩

theorem Decodes.optional {α : Type} {read : Reader α} {means : Tree → α → Prop}
    (decodes : Decodes read means) :
    Decodes (Reader.optional read) fun tree found =>
      (tree = .null ∧ found = none) ∨ (tree ≠ .null ∧ ∃ a, means tree a ∧ found = some a) := by
  intro depth text tree rest held found later
  have taken := decodes depth text tree rest held
  rcases Tree.null_or_not held with ⟨rfl, tail, ahead, word⟩ | ⟨other, c, tail, ahead, notNull⟩
  · rw [Reader.optional, ahead, ok_bind]
    dsimp only
    rw [if_pos rfl, word]
    constructor
    · intro ran
      cases ran
      exact ⟨rfl, .inl ⟨rfl, rfl⟩⟩
    · rintro ⟨rfl, ⟨-, rfl⟩ | ⟨other, -⟩⟩
      · rfl
      · exact absurd rfl other
  · rw [Reader.optional, ahead, ok_bind]
    dsimp only
    rw [if_neg notNull]
    constructor
    · intro ran
      obtain ⟨⟨a, after⟩, read, ran⟩ := bind_ok ran
      obtain ⟨rfl, meant⟩ := (taken a after).mp read
      cases ran
      exact ⟨rfl, .inr ⟨other, a, meant, rfl⟩⟩
    · rintro ⟨rfl, ⟨same, -⟩ | ⟨-, a, meant, rfl⟩⟩
      · exact absurd same other
      · rw [(taken a later).mpr ⟨rfl, meant⟩]
        rfl

/-! ### Records -/

inductive Schema : {δ : Type} → Shape δ → Type 1 where
  | done : Schema .done
  | field {α δ : Type} {name : String} {read : Reader α} {shape : Shape δ}
      (means : Tree → α → Prop) (decodes : Decodes read means) (others : Schema shape) :
      Schema (.field name read shape)

namespace Schema

variable {δ ρ : Type}

/-- A member leads from what was found before it to what is found after it: it is the first one for
its field, or it is for none. -/
def Puts (name : String) (tree : Tree) :
    {δ : Type} → {shape : Shape δ} → Schema shape → δ → δ → Prop
  | _, _, .done, _, _ => True
  | _, .field own _ _, .field means _ others, before, after =>
    if own = name then before.1 = none ∧ ∃ a, means tree a ∧ after = (some a, before.2)
    else after.1 = before.1 ∧ others.Puts name tree before.2 after.2

inductive Gathers {shape : Shape δ} (schema : Schema shape) : List (String × Tree) → δ → δ → Prop
  | nil (found : δ) : Gathers schema [] found found
  | cons {name : String} {tree : Tree} {members : List (String × Tree)} {before between after : δ}
      (puts : schema.Puts name tree before between) (later : Gathers schema members between after) :
      Gathers schema ((name, tree) :: members) before after

/-- The fields of a record in their order; the last ones may be missing. -/
def Lists : {δ : Type} → {shape : Shape δ} → Schema shape → List Tree → δ → Prop
  | _, _, .done, trees, _ => trees = []
  | _, .field _ _ shape, .field _ _ _, [], found => found = (none, shape.start)
  | _, _, .field means _ others, tree :: trees, found =>
    (∃ a, means tree a ∧ found.1 = some a) ∧ others.Lists trees found.2

theorem put_iff {shape : Shape δ} (schema : Schema shape) {depth : Nat} {name : String}
    {text start rest later : List Char} {tree : Tree} {before after : δ}
    (marked : dropMark ':' text = .ok start) (held : Tree.reader depth start = .ok (tree, rest)) :
    shape.put .skipped name before text = .ok (after, later) ↔
      later = rest ∧ schema.Puts name tree before after := by
  induction schema with
  | done =>
    rw [Shape.put]
    dsimp only
    rw [marked, ok_bind, Tree.skip_of_reader held]
    constructor
    · intro ran
      cases ran
      exact ⟨rfl, trivial⟩
    · rintro ⟨rfl, -⟩
      rfl
  | @field α δ own read shape means decodes others ih =>
    obtain ⟨found, before⟩ := before
    show (if own = name then _ else _) = _ ↔ later = rest ∧ (if own = name then _ else _)
    split
    · cases found with
      | some a =>
        constructor
        · intro ran
          cases ran
        · rintro ⟨-, empty, -⟩
          cases empty
      | none =>
        dsimp only
        rw [marked, ok_bind]
        constructor
        · intro ran
          obtain ⟨⟨a, stop⟩, taken, ran⟩ := bind_ok ran
          obtain ⟨rfl, meant⟩ := (decodes depth start tree rest held a stop).mp taken
          cases ran
          exact ⟨rfl, rfl, a, meant, rfl⟩
        · rintro ⟨rfl, -, a, meant, rfl⟩
          rw [(decodes depth start tree later held a later).mpr ⟨rfl, meant⟩]
          rfl
    · constructor
      · intro ran
        obtain ⟨⟨between, stop⟩, put, ran⟩ := bind_ok ran
        cases ran
        obtain ⟨rfl, puts⟩ := ih.mp put
        exact ⟨rfl, rfl, puts⟩
      · obtain ⟨kept, after⟩ := after
        rintro ⟨rfl, same, puts⟩
        obtain rfl : kept = found := same
        rw [ih.mpr ⟨rfl, puts⟩]
        rfl

theorem members_iff {shape : Shape δ} (schema : Schema shape) {depth : Nat} {first : Bool}
    {bound text rest later : List Char} {members : List (String × Tree)} {before after : δ}
    (held : Tree.entries (Tree.reader depth) bound first text = .ok (members, rest)) :
    Json.members (shape.member .skipped) bound first before text = .ok (after, later) ↔
      later = rest ∧ schema.Gathers members before after := by
  induction bound generalizing first text members before with
  | nil => cases held
  | cons c bound ih =>
    rcases Tree.entries_cases held with ⟨rfl, stop, goesOn, closed⟩ |
      ⟨name, tree, others, ahead, colon, start, stop, rfl, goesOn, named, marked, taken, listed⟩
    · rw [members_closed _ goesOn closed before c bound]
      constructor
      · intro ran
        cases ran
        exact ⟨rfl, .nil _⟩
      · rintro ⟨rfl, ⟨⟩⟩
        rfl
    · have step : shape.member .skipped before ahead =
          shape.put .skipped name before colon := by
        rw [Shape.member, named]
        rfl
      constructor
      · intro ran
        rw [Json.members, goesOn, ok_bind] at ran
        obtain ⟨⟨between, after⟩, put, ran⟩ := bind_ok ran
        obtain ⟨rfl, puts⟩ := (schema.put_iff marked taken).mp (step.symm.trans put)
        obtain ⟨rfl, gathers⟩ := (ih listed).mp ran
        exact ⟨rfl, .cons puts gathers⟩
      · rintro ⟨rfl, gathers⟩
        cases gathers with
        | cons puts gathers =>
          have put := step.trans ((schema.put_iff marked taken).mpr ⟨rfl, puts⟩)
          exact (members_step goesOn put c).trans ((ih listed).mpr ⟨rfl, gathers⟩)

end Schema

theorem dropMark_of_closed {first : Bool} {text after : List Char}
    (goesOn : elementAhead first text = .ok (false, after)) :
    dropMark ']' text = dropMark ']' after := by
  obtain ⟨⟨c, tail⟩, ahead, goesOn⟩ := bind_ok goesOn
  dsimp only at goesOn
  split at goesOn
  · rename_i same
    obtain rfl := same
    cases goesOn
    rw [dropMark, ahead, dropMark, next_cons (by decide)]
  · split at goesOn
    · cases goesOn
    · split at goesOn
      · obtain ⟨⟨d, later⟩, -, goesOn⟩ := bind_ok goesOn
        dsimp only at goesOn
        split at goesOn <;> cases goesOn
      · cases goesOn

theorem dropMark_of_open {first : Bool} {text ahead later : List Char}
    (goesOn : elementAhead first text = .ok (true, ahead)) : dropMark ']' text ≠ .ok later := by
  obtain ⟨⟨c, tail⟩, found, goesOn⟩ := bind_ok goesOn
  dsimp only at goesOn
  split at goesOn
  · cases goesOn
  · rename_i notEnd
    rw [dropMark, found, ok_bind]
    dsimp only
    rw [if_neg notEnd]
    intro ended
    cases ended

namespace Schema

variable {δ ρ : Type}

theorem inOrder_iff {shape : Shape δ} (schema : Schema shape) {depth : Nat} {first : Bool}
    {bound text rest later : List Char} {trees : List Tree} {found : δ}
    (held : elements (Tree.reader depth) bound first text = .ok (trees, rest)) :
    (∃ after, shape.inOrder first text = .ok (found, after) ∧ dropMark ']' after = .ok later) ↔
      later = rest ∧ schema.Lists trees found := by
  induction schema generalizing first bound text trees with
  | done =>
    cases bound with
    | nil => cases held
    | cons c bound =>
      rcases Tree.elements_cases held with
        ⟨rfl, stop, goesOn, closed⟩ | ⟨tree, others, ahead, stop, rfl, goesOn, -, -⟩
      · rw [← dropMark_of_closed goesOn] at closed
        constructor
        · rintro ⟨after, ran, ended⟩
          cases ran
          exact ⟨Except.ok.inj (ended.symm.trans closed), rfl⟩
        · rintro ⟨rfl, -⟩
          exact ⟨text, rfl, closed⟩
      · constructor
        · rintro ⟨after, ran, ended⟩
          cases ran
          exact absurd ended (dropMark_of_open goesOn)
        · rintro ⟨-, listed⟩
          cases listed
  | @field α δ own read shape means decodes others ih =>
    cases bound with
    | nil => cases held
    | cons c bound =>
      rw [Shape.inOrder]
      rcases Tree.elements_cases held with
        ⟨rfl, stop, goesOn, closed⟩ | ⟨tree, trees, ahead, stop, rfl, goesOn, taken, listed⟩
      · rw [goesOn, ok_bind]
        constructor
        · rintro ⟨after, ran, ended⟩
          cases ran
          exact ⟨Except.ok.inj (ended.symm.trans closed), rfl⟩
        · rintro ⟨rfl, rfl⟩
          exact ⟨stop, rfl, closed⟩
      · rw [goesOn, ok_bind]
        constructor
        · rintro ⟨after, ran, ended⟩
          obtain ⟨⟨a, start⟩, decoded, ran⟩ := bind_ok ran
          obtain ⟨⟨more, start⟩, listing, ran⟩ := bind_ok ran
          obtain ⟨rfl, meant⟩ := (decodes _ _ _ _ taken a _).mp decoded
          cases ran
          obtain ⟨rfl, lists⟩ := (ih listed).mp ⟨after, listing, ended⟩
          exact ⟨rfl, ⟨a, meant, rfl⟩, lists⟩
        · obtain ⟨own, found⟩ := found
          rintro ⟨rfl, ⟨a, meant, filled⟩, lists⟩
          obtain rfl : own = some a := filled
          obtain ⟨after, listing, ended⟩ := (ih listed).mpr ⟨rfl, lists⟩
          refine ⟨after, ?_, ended⟩
          dsimp only
          rw [if_pos rfl, (decodes _ _ _ _ taken a _).mpr ⟨rfl, meant⟩, ok_bind]
          dsimp only
          rw [listing]
          rfl

inductive Finds {shape : Shape δ} (schema : Schema shape) : Tree → δ → Prop
  | object {members : List (String × Tree)} {found : δ}
      (gathers : schema.Gathers members shape.start found) : Finds schema (.object members) found
  | array {trees : List Tree} {found : δ} (lists : schema.Lists trees found) :
      Finds schema (.array trees) found

theorem finds_object_iff {shape : Shape δ} {schema : Schema shape}
    {members : List (String × Tree)} {found : δ} :
    schema.Finds (.object members) found ↔ schema.Gathers members shape.start found := by
  constructor
  · rintro ⟨gathers⟩
    exact gathers
  · exact .object

theorem finds_array_iff {shape : Shape δ} {schema : Schema shape} {trees : List Tree}
    {found : δ} : schema.Finds (.array trees) found ↔ schema.Lists trees found := by
  constructor
  · rintro ⟨⟩
    assumption
  · exact .array

theorem record_ne_ok {shape : Shape δ} {make : δ → Option ρ} {text tail later : List Char}
    {c : Char} {made : ρ} (ahead : next text = .ok (c, tail)) (notList : c ≠ '[')
    (notObject : c ≠ '{') : shape.record .skipped make text ≠ .ok (made, later) := by
  rw [Shape.record, ahead, ok_bind]
  dsimp only
  rw [if_neg notObject, if_neg notList]
  exact refuse_ne_ok

theorem record_array_iff {shape : Shape δ} (schema : Schema shape) {make : δ → Option ρ}
    {depth : Nat} {text tail rest later : List Char} {trees : List Tree} {made : ρ}
    (ahead : next text = .ok ('[', tail))
    (held : elements (Tree.reader depth) tail true tail = .ok (trees, rest)) :
    shape.record .skipped make text = .ok (made, later) ↔
      later = rest ∧ ∃ found, schema.Lists trees found ∧ make found = some made := by
  rw [Shape.record, ahead, ok_bind]
  dsimp only
  rw [if_neg (by decide), if_pos rfl]
  constructor
  · intro ran
    obtain ⟨⟨found, after⟩, listing, ran⟩ := bind_ok ran
    dsimp only at ran
    split at ran
    · rename_i makes
      obtain ⟨stop, ended, ran⟩ := bind_ok ran
      cases ran
      obtain ⟨rfl, lists⟩ := (schema.inOrder_iff held).mp ⟨after, listing, ended⟩
      exact ⟨rfl, found, lists, makes⟩
    · cases ran
  · rintro ⟨rfl, found, lists, makes⟩
    obtain ⟨after, listing, ended⟩ := (schema.inOrder_iff held).mpr ⟨rfl, lists⟩
    rw [listing, ok_bind]
    dsimp only
    rw [makes]
    dsimp only
    rw [ended]
    rfl

theorem record_object_iff {shape : Shape δ} (schema : Schema shape) {make : δ → Option ρ}
    {depth : Nat} {text tail rest later : List Char} {members : List (String × Tree)} {made : ρ}
    (ahead : next text = .ok ('{', tail))
    (held : Tree.entries (Tree.reader depth) tail true tail = .ok (members, rest)) :
    shape.record .skipped make text = .ok (made, later) ↔ later = rest ∧
      ∃ found, schema.Gathers members shape.start found ∧ make found = some made := by
  rw [Shape.record, ahead, ok_bind]
  dsimp only
  rw [if_pos rfl, objectBody]
  constructor
  · intro ran
    obtain ⟨⟨found, after⟩, gathering, ran⟩ := bind_ok ran
    dsimp only at ran
    split at ran
    · rename_i makes
      cases ran
      obtain ⟨rfl, gathers⟩ := (schema.members_iff held).mp gathering
      exact ⟨rfl, found, gathers, makes⟩
    · cases ran
  · rintro ⟨rfl, found, gathers, makes⟩
    rw [(schema.members_iff held).mpr ⟨rfl, gathers⟩, ok_bind]
    dsimp only
    rw [makes]
    rfl

/-- A record is made of what is found in the parts of its text. -/
theorem decodes_record {shape : Shape δ} (schema : Schema shape) (make : δ → Option ρ) :
    Decodes (shape.record .skipped make) fun tree made =>
      ∃ found, schema.Finds tree found ∧ make found = some made := by
  intro depth text tree rest held made later
  cases Tree.reader_cases held with
  | scalar ahead found =>
    obtain ⟨notList, notObject⟩ := found.opens
    constructor
    · exact fun ran => absurd ran (record_ne_ok ahead notList notObject)
    · rintro ⟨-, _, finds, -⟩
      cases found <;> cases finds
  | array ahead found =>
    rw [schema.record_array_iff ahead found]
    simp only [finds_array_iff]
  | object ahead found =>
    rw [schema.record_object_iff ahead found]
    simp only [finds_object_iff]

end Schema

theorem Decodes.whole {α : Type} {read : Reader α} {means : Tree → α → Prop}
    (decodes : Decodes read means) {text : String} {tree : Tree}
    (parsed : Tree.parse text = .ok tree) (a : α) :
    Reader.whole read text = .ok a ↔ means tree a := by
  obtain ⟨⟨held, rest⟩, reading, parsed⟩ := bind_ok parsed
  dsimp only at parsed
  split at parsed
  · rename_i ended
    cases parsed
    have taken := decodes _ _ _ _ reading
    constructor
    · intro ran
      obtain ⟨⟨found, later⟩, read, ran⟩ := bind_ok ran
      obtain ⟨rfl, meant⟩ := (taken found later).mp read
      dsimp only at ran
      rw [if_pos ended] at ran
      cases ran
      exact meant
    · intro meant
      rw [Reader.whole, (taken a rest).mpr ⟨rfl, meant⟩, ok_bind]
      exact if_pos ended
  · cases parsed

/-! ### Fields of an object -/

namespace Tree

def named (members : List (String × Tree)) (name : String) : List Tree :=
  (members.filter (·.1 = name)).map Prod.snd

theorem named_cons_self (name : String) (tree : Tree) (members : List (String × Tree)) :
    named ((name, tree) :: members) name = tree :: named members name := by
  simp [named]

theorem named_cons_of_ne {key name : String} (differ : key ≠ name) (tree : Tree)
    (members : List (String × Tree)) :
    named ((key, tree) :: members) name = named members name := by
  simp [named, differ]

theorem length_named (members : List (String × Tree)) (name : String) :
    (named members name).length = (members.map Prod.fst).count name := by
  induction members with
  | nil => rfl
  | cons member members ih =>
    obtain ⟨key, tree⟩ := member
    by_cases same : key = name
    · subst same
      rw [named_cons_self, List.map_cons, List.count_cons_self, List.length_cons, ih]
    · rw [named_cons_of_ne same, List.map_cons, List.count_cons_of_ne same, ih]

/-- Of several members with one key, the last one counts. -/
theorem field?_gathered (members : List (String × Tree)) (fields : List (String × Json))
    (name : String) :
    field? (gathered fields members) name =
      ((named members name).getLast?.map value).or (field? fields name) := by
  induction members generalizing fields with
  | nil => rw [gathered]; rfl
  | cons member members ih =>
    obtain ⟨key, tree⟩ := member
    rw [gathered, ih, field?, OrderedMap.lookup_put]
    by_cases same : key = name
    · subst same
      rw [named_cons_self, List.getLast?_cons, if_pos rfl]
      cases (named members key).getLast? <;> rfl
    · rw [named_cons_of_ne same, if_neg (Ne.symm same)]
      rfl

end Tree

/-- A field with at most one value, and only if it had none before. -/
inductive Fills {α : Type} (means : Tree → α → Prop) : Option α → List Tree → Option α → Prop
  | nothing (before : Option α) : Fills means before [] before
  | once {tree : Tree} {a : α} (meant : means tree a) : Fills means none [tree] (some a)

theorem fills_some_iff {α : Type} {means : Tree → α → Prop} {trees : List Tree} {a : α} :
    Fills means none trees (some a) ↔ ∃ tree, trees = [tree] ∧ means tree a := by
  constructor
  · rintro ⟨⟩
    exact ⟨_, rfl, ‹_›⟩
  · rintro ⟨tree, rfl, meant⟩
    exact .once meant

namespace Schema

variable {α δ : Type}

theorem puts_of_fresh {shape : Shape δ} (schema : Schema shape) {name : String}
    (fresh : name ∉ shape.names) (tree : Tree) {before after : δ} :
    schema.Puts name tree before after ↔ after = before := by
  induction schema with
  | done => exact ⟨fun _ => rfl, fun _ => trivial⟩
  | @field α δ own read shape means decodes others ih =>
    rw [Shape.names, List.mem_cons, not_or] at fresh
    rw [Puts, if_neg (Ne.symm fresh.1), ih fresh.2, Prod.ext_iff]

theorem gathers_done (members : List (String × Tree)) : done.Gathers members () () := by
  induction members with
  | nil => exact .nil ()
  | cons member members ih => exact .cons trivial ih

theorem gathers_cons_iff {shape : Shape δ} {schema : Schema shape} {name : String} {tree : Tree}
    {members : List (String × Tree)} {before after : δ} :
    schema.Gathers ((name, tree) :: members) before after ↔
      ∃ between, schema.Puts name tree before between ∧ schema.Gathers members between after := by
  constructor
  · rintro ⟨⟩
    exact ⟨_, ‹_›, ‹_›⟩
  · rintro ⟨between, puts, gathers⟩
    exact .cons puts gathers

/-- The members for one field and those for the other fields do not meet. -/
theorem gathers_field_iff {own : String} {read : Reader α} {shape : Shape δ}
    (fresh : own ∉ shape.names) {means : Tree → α → Prop} (decodes : Decodes read means)
    (others : Schema shape) {members : List (String × Tree)} {before after : Option α × δ} :
    (@field α δ own read shape means decodes others).Gathers members before after ↔
      Fills means before.1 (Tree.named members own) after.1 ∧
        others.Gathers members before.2 after.2 := by
  obtain ⟨filled, after⟩ := after
  induction members generalizing before with
  | nil =>
    obtain ⟨found, before⟩ := before
    constructor
    · rintro ⟨⟩
      exact ⟨.nothing _, .nil _⟩
    · rintro ⟨⟨⟩, ⟨⟩⟩
      exact .nil _
  | cons member members ih =>
    obtain ⟨found, before⟩ := before
    obtain ⟨name, tree⟩ := member
    rw [gathers_cons_iff, gathers_cons_iff]
    by_cases same : own = name
    -- The field is empty before its member and full after it, so no other member can be for it.
    · subst same
      simp only [Tree.named_cons_self, Puts, if_true, ih, puts_of_fresh others fresh]
      generalize Tree.named members own = trees
      constructor
      · rintro ⟨_, ⟨rfl, a, meant, rfl⟩, fills, gathers⟩
        cases fills
        exact ⟨.once meant, before, rfl, gathers⟩
      · rintro ⟨fills, _, rfl, gathers⟩
        cases fills with
        | once meant => exact ⟨_, ⟨rfl, _, meant, rfl⟩, .nothing _, gathers⟩
    · simp only [Tree.named_cons_of_ne (Ne.symm same), Puts, if_neg same, ih]
      constructor
      · rintro ⟨⟨_, between⟩, ⟨rfl, puts⟩, fills, gathers⟩
        exact ⟨fills, between, puts, gathers⟩
      · rintro ⟨fills, between, puts, gathers⟩
        exact ⟨(found, between), ⟨rfl, puts⟩, fills, gathers⟩

theorem lists_last_iff {name : String} {read : Reader α} {means : Tree → α → Prop}
    (decodes : Decodes read means) {trees : List Tree} {found : Option α × Unit} :
    (@field α Unit name read .done means decodes .done).Lists trees found ↔
      Fills means none trees found.1 := by
  obtain ⟨found, -⟩ := found
  rcases trees with _ | ⟨tree, trees⟩
  · constructor
    · intro lists
      cases lists
      exact .nothing none
    · rintro ⟨⟩
      rfl
  · constructor
    · rintro ⟨⟨a, meant, filled⟩, rfl⟩
      cases filled
      exact .once meant
    · rintro ⟨⟩
      exact ⟨⟨_, ‹_›, rfl⟩, rfl⟩

end Schema

end PolicyMend.Json
