import PolicyMend.Proofs.JsonFigures
import PolicyMend.Proofs.JsonRecords

/-!
JSON texts by their parts. A text is read into a tree that keeps all members of an object, with
repeated keys, and every number as it stands in the text. Main statements: the value of a text is
what is left of its tree when the last member with a key counts, and a value that can be read can be
skipped, up to the same place.
-/

namespace PolicyMend.Json

/-- The parts of a JSON text. An object keeps all of its members. -/
inductive Tree where
  | null
  | boolean (value : Bool)
  | number (figure : Figure)
  | string (value : String)
  | array (elements : List Tree)
  | object (members : List (String × Tree))

namespace Tree

mutual

/-- The value of a text with these parts: the last of the members with one key counts. -/
def value : Tree → Json
  | .null => .null
  | .boolean b => .boolean b
  | .number figure => .number figure.value
  | .string s => .string s
  | .array trees => .array (values trees)
  | .object members => .object (gathered [] members)

def values : List Tree → List Json
  | [] => []
  | tree :: trees => tree.value :: values trees

def gathered (fields : List (String × Json)) : List (String × Tree) → List (String × Json)
  | [] => fields
  | (key, tree) :: members => gathered (OrderedMap.put key tree.value fields) members

end

def parts : Builder Tree where
  null := .null
  boolean := .boolean
  number negative text := (Figure.reader negative text).map fun (f, rest) => (.number f, rest)
  string text := (stringBody text).map fun (s, rest) => (.string s, rest)
  key := stringBody
  array := .array
  object := .object

/-- Reads the members of an object up to its closing brace, all of them. The first list bounds the
steps. -/
def entries (read : Reader Tree) : List Char → Bool → Reader (List (String × Tree))
  | [], _, _ => .error .truncated
  | _ :: bound, first, text => do
    let (more, text) ← keyAhead first text
    if more then
      let (key, text) ← stringBody text
      let text ← dropMark ':' text
      let (tree, text) ← read text
      let (rest, text) ← entries read bound false text
      return ((key, tree) :: rest, text)
    else
      let text ← dropMark '}' text
      return ([], text)

def reader : Nat → Reader Tree
  | 0, text => do
    let (c, rest) ← next text
    parts.scalar c rest
  | depth + 1, text => do
    let (c, rest) ← next text
    if c = '[' then
      let (found, rest) ← listBody (reader depth) rest
      return (.array found, rest)
    else if c = '{' then
      let (found, rest) ← entries (reader depth) rest true rest
      return (.object found, rest)
    else parts.scalar c rest

def parse (text : String) : Except Fault Tree := Reader.whole (reader greatestDepth) text

/-! ### Values -/

theorem elements_map {α β : Type} {f : α → β} {read : Reader α} {other : Reader β}
    (same : ∀ text, other text = (read text).map (Prod.map f id)) (bound : List Char)
    (first : Bool) (text : List Char) :
    elements other bound first text =
      (elements read bound first text).map (Prod.map (List.map f) id) := by
  induction bound generalizing first text with
  | nil => rfl
  | cons c bound ih =>
    rw [elements, elements]
    cases elementAhead first text with
    | error fault => rfl
    | ok ahead =>
      obtain ⟨more, ahead⟩ := ahead
      cases more with
      | false =>
        simp only [ok_bind]
        cases dropMark ']' ahead <;> rfl
      | true =>
        simp only [ok_bind, if_true, same]
        cases read ahead with
        | error fault => rfl
        | ok found =>
          obtain ⟨a, later⟩ := found
          show (elements other bound false later >>= _) = _
          rw [ih]
          simp only [ok_bind]
          cases elements read bound false later <;> rfl

theorem values_eq_map (trees : List Tree) : values trees = trees.map value := by
  induction trees with
  | nil => rw [values, List.map_nil]
  | cons tree trees ih => rw [values, ih, List.map_cons]

theorem members_gathered {read : Reader Tree} {other : Reader Json}
    (same : ∀ text, other text = (read text).map (Prod.map value id)) (bound : List Char)
    (first : Bool) (fields : List (String × Json)) (text : List Char) :
    members (keeping.member other) bound first fields text =
      (entries read bound first text).map (Prod.map (gathered fields) id) := by
  induction bound generalizing first fields text with
  | nil => rfl
  | cons c bound ih =>
    rw [members, entries]
    cases keyAhead first text with
    | error fault => rfl
    | ok ahead =>
      obtain ⟨more, ahead⟩ := ahead
      cases more with
      | false =>
        simp only [ok_bind]
        cases dropMark '}' ahead with
        | error fault => rfl
        | ok rest =>
          show Except.ok (fields, rest) = .ok (gathered fields [], rest)
          rw [gathered]
      | true =>
        simp only [ok_bind, if_true, Builder.member]
        show (stringBody ahead >>= _) >>= _ = _
        cases stringBody ahead with
        | error fault => rfl
        | ok found =>
          obtain ⟨key, colon⟩ := found
          simp only [ok_bind]
          cases dropMark ':' colon with
          | error fault => rfl
          | ok start =>
            simp only [ok_bind, same]
            cases read start with
            | error fault => rfl
            | ok found =>
              obtain ⟨tree, later⟩ := found
              show members (keeping.member other) bound false
                (OrderedMap.put key tree.value fields) later = _
              rw [ih]
              simp only [ok_bind]
              cases entries read bound false later with
              | error fault => rfl
              | ok found =>
                obtain ⟨others, rest⟩ := found
                show Except.ok (gathered _ others, rest) = .ok (gathered fields _, rest)
                rw [gathered]

theorem scalar_value (c : Char) (rest : List Char) :
    keeping.scalar c rest = (parts.scalar c rest).map (Prod.map value id) := by
  have number : ∀ negative text, keeping.number negative text =
      (parts.number negative text).map (Prod.map value id) := by
    intro negative text
    show (numberBody negative text).map _ = ((Figure.reader negative text).map _).map _
    rw [Figure.numberBody_eq]
    cases Figure.reader negative text with
    | error fault => rfl
    | ok found =>
      show Except.ok _ = Except.ok _
      simp [Prod.map, value]
  have string : ∀ text, keeping.string text =
      (parts.string text).map (Prod.map value id) := by
    intro text
    show (stringBody text).map _ = ((stringBody text).map _).map _
    cases stringBody text with
    | error fault => rfl
    | ok found =>
      show Except.ok _ = Except.ok _
      simp [Prod.map, value]
  have word : ∀ (letters : List Char) (tree : Tree) (json : Json), tree.value = json →
      (dropWord letters rest).map (json, ·) =
        ((dropWord letters rest).map (tree, ·)).map (Prod.map value id) := by
    rintro letters tree json rfl
    cases dropWord letters rest <;> rfl
  unfold Builder.scalar
  split
  · exact word _ _ _ (by simp [parts, keeping, value])
  split
  · exact word _ _ _ (by simp [parts, keeping, value])
  split
  · exact word _ _ _ (by simp [parts, keeping, value])
  split
  · exact number true rest
  split
  · exact number false (c :: rest)
  split
  · exact string rest
  · rfl

/-- A value is what is left of the parts of a text if of several members with one key only the last
is kept. -/
theorem value_reader (depth : Nat) (text : List Char) :
    keeping.value depth text = (reader depth text).map (Prod.map value id) := by
  induction depth generalizing text with
  | zero =>
    rw [Builder.value, reader]
    cases next text with
    | error fault => rfl
    | ok found => exact scalar_value found.1 found.2
  | succ depth ih =>
    rw [Builder.value, reader]
    cases next text with
    | error fault => rfl
    | ok found =>
      obtain ⟨c, rest⟩ := found
      simp only [ok_bind]
      split
      · rw [listBody, listBody, elements_map ih]
        cases elements (reader depth) rest true rest with
        | error fault => rfl
        | ok found =>
          show Except.ok (Json.array _, _) = .ok (value (.array _), _)
          rw [value, values_eq_map]
          rfl
      split
      · rw [objectBody, members_gathered ih]
        cases entries (reader depth) rest true rest with
        | error fault => rfl
        | ok found =>
          show Except.ok (Json.object _, _) = .ok (value (.object _), _)
          rw [value]
          rfl
      · exact scalar_value c rest

theorem parse_eq (text : String) : Json.parse text = (parse text).map value := by
  rw [Json.parse, parse, Reader.whole, Reader.whole, Reader.value, value_reader]
  cases reader greatestDepth text.toList with
  | error fault => rfl
  | ok found =>
    obtain ⟨tree, rest⟩ := found
    show (if dropSpace rest = [] then _ else _) =
      Except.map value (if dropSpace rest = [] then _ else _)
    split <;> rfl

/-! ### Text that is left -/

theorem next_suffix {text rest : List Char} {c : Char} (read : next text = .ok (c, rest)) :
    c :: rest <:+ text := by
  unfold next at read
  have later : dropSpace text <:+ text := List.dropWhile_suffix _
  split at read
  · cases read
  · rename_i split
    cases read
    rwa [split] at later

theorem dropMark_suffix {mark : Char} {text rest : List Char}
    (read : dropMark mark text = .ok rest) : mark :: rest <:+ text := by
  obtain ⟨⟨c, after⟩, found, read⟩ := bind_ok read
  have later := next_suffix found
  dsimp only at read
  split at read
  · rename_i same
    cases read
    rwa [same] at later
  · cases read

theorem keyAhead_suffix {first more : Bool} {text ahead : List Char}
    (read : keyAhead first text = .ok (more, ahead)) : ahead <:+ text := by
  obtain ⟨⟨c, after⟩, found, read⟩ := bind_ok read
  have later := next_suffix found
  have after := (List.suffix_cons c after).trans later
  dsimp only at read
  split at read
  · cases read
    exact later
  · split at read
    · split at read
      · cases read
        exact after
      · cases read
    · split at read
      · obtain ⟨⟨d, tail⟩, found, read⟩ := bind_ok read
        have latest := (List.suffix_cons d tail).trans (next_suffix found)
        dsimp only at read
        split at read
        · cases read
          exact latest.trans after
        · cases read
      · cases read

theorem elementAhead_suffix {first more : Bool} {text ahead : List Char}
    (read : elementAhead first text = .ok (more, ahead)) : ahead <:+ text := by
  obtain ⟨⟨c, after⟩, found, read⟩ := bind_ok read
  have later := next_suffix found
  dsimp only at read
  split at read
  · cases read
    exact later
  · split at read
    · cases read
      exact later
    · split at read
      · obtain ⟨⟨d, tail⟩, found, read⟩ := bind_ok read
        have latest := next_suffix found
        dsimp only at read
        split at read
        · cases read
        · cases read
          exact latest.trans ((List.suffix_cons c after).trans later)
      · cases read

theorem dropWord_suffix {word text rest : List Char} (read : dropWord word text = .ok rest) :
    rest <:+ text := by
  induction word generalizing text with
  | nil =>
    cases read
    exact List.suffix_refl _
  | cons expected word ih =>
    cases text with
    | nil => cases read
    | cons c text =>
      rw [dropWord] at read
      split at read
      · exact (ih read).trans (List.suffix_cons c text)
      · cases read

theorem pieces_suffix {text rest : List Char} (read : (pieces text).2 = .ok rest) :
    rest <:+ text := by
  fun_induction pieces text with
  | case1 => cases read
  | case2 a b c d tail u known found finish split ih =>
    have later := ih (by rw [split]; exact read)
    exact later.trans ⟨_ :: _ :: [a, b, c, d], rfl⟩
  | case5 c tail _ _ e known found finish split ih =>
    have later := ih (by rw [split]; exact read)
    exact later.trans ⟨[_, c], rfl⟩
  | case8 tail =>
    cases read
    exact List.suffix_cons _ _
  | case10 c tail _ _ _ _ _ _ found finish split ih =>
    have later := ih (by rw [split]; exact read)
    exact later.trans (List.suffix_cons c tail)
  | case3 | case4 | case6 | case7 | case9 => cases read

/-- A string that can be read can be skipped. -/
theorem stringBody_ok {text rest : List Char} {s : String}
    (read : stringBody text = .ok (s, rest)) : skipString text = .ok rest ∧ rest <:+ text := by
  have finish : (pieces text).2 = .ok rest := by
    unfold stringBody at read
    dsimp only at read
    split at read
    · rename_i tail ended
      split at read
      · cases read
        exact ended
      · cases read
    · split at read <;> split at read <;> cases read
  exact ⟨finish, pieces_suffix finish⟩

/-! ### What a text holds -/

inductive Scalar : Char → List Char → Tree → List Char → Prop where
  | null {tail rest : List Char} (word : dropWord ['u', 'l', 'l'] tail = .ok rest) :
      Scalar 'n' tail .null rest
  | yes {tail rest : List Char} (word : dropWord ['r', 'u', 'e'] tail = .ok rest) :
      Scalar 't' tail (.boolean true) rest
  | no {tail rest : List Char} (word : dropWord ['a', 'l', 's', 'e'] tail = .ok rest) :
      Scalar 'f' tail (.boolean false) rest
  | negative {tail rest : List Char} {f : Figure} (read : Figure.reader true tail = .ok (f, rest)) :
      Scalar '-' tail (.number f) rest
  | digit {c : Char} {tail rest : List Char} {f : Figure} (isDigit : c.isDigit = true)
      (read : Figure.reader false (c :: tail) = .ok (f, rest)) : Scalar c tail (.number f) rest
  | string {tail rest : List Char} {s : String} (read : stringBody tail = .ok (s, rest)) :
      Scalar '"' tail (.string s) rest

theorem scalar_cases {c : Char} {tail rest : List Char} {tree : Tree}
    (read : parts.scalar c tail = .ok (tree, rest)) : Scalar c tail tree rest := by
  unfold Builder.scalar at read
  split at read
  · rename_i same
    obtain ⟨after, word, made⟩ := map_eq_ok read
    cases made
    exact same ▸ .null word
  · split at read
    · rename_i same
      obtain ⟨after, word, made⟩ := map_eq_ok read
      cases made
      exact same ▸ .yes word
    · split at read
      · rename_i same
        obtain ⟨after, word, made⟩ := map_eq_ok read
        cases made
        exact same ▸ .no word
      · split at read
        · rename_i same
          obtain ⟨⟨f, after⟩, found, made⟩ := map_eq_ok read
          cases made
          exact same ▸ .negative found
        · split at read
          · rename_i isDigit
            obtain ⟨⟨f, after⟩, found, made⟩ := map_eq_ok read
            cases made
            exact .digit isDigit found
          · split at read
            · rename_i same
              obtain ⟨⟨s, after⟩, found, made⟩ := map_eq_ok read
              cases made
              exact same ▸ .string found
            · cases read

/-- What stands in front of a text, with the text that follows it. -/
inductive Holds : Nat → List Char → Tree → List Char → Prop where
  | scalar {depth : Nat} {c : Char} {text tail rest : List Char} {tree : Tree}
      (ahead : next text = .ok (c, tail)) (found : Scalar c tail tree rest) :
      Holds depth text tree rest
  | array {depth : Nat} {text tail rest : List Char} {trees : List Tree}
      (ahead : next text = .ok ('[', tail))
      (found : elements (reader depth) tail true tail = .ok (trees, rest)) :
      Holds (depth + 1) text (.array trees) rest
  | object {depth : Nat} {text tail rest : List Char} {members : List (String × Tree)}
      (ahead : next text = .ok ('{', tail))
      (found : entries (reader depth) tail true tail = .ok (members, rest)) :
      Holds (depth + 1) text (.object members) rest

theorem reader_cases {depth : Nat} {text rest : List Char} {tree : Tree}
    (read : reader depth text = .ok (tree, rest)) : Holds depth text tree rest := by
  cases depth with
  | zero =>
    obtain ⟨⟨c, tail⟩, ahead, read⟩ := bind_ok read
    exact .scalar ahead (scalar_cases read)
  | succ depth =>
    obtain ⟨⟨c, tail⟩, ahead, read⟩ := bind_ok read
    dsimp only at read
    split at read
    · rename_i same
      obtain ⟨⟨found, after⟩, listed, made⟩ := bind_ok read
      cases made
      exact .array (same ▸ ahead) listed
    · split at read
      · rename_i same
        obtain ⟨⟨found, after⟩, listed, made⟩ := bind_ok read
        cases made
        exact .object (same ▸ ahead) listed
      · exact .scalar ahead (scalar_cases read)

theorem scalar_digit {α : Type} (b : Builder α) {c : Char} (isDigit : c.isDigit = true)
    (rest : List Char) : b.scalar c rest = b.number false (c :: rest) := by
  have other : ∀ mark : Char, mark.isDigit = false → c ≠ mark := by
    rintro mark noDigit rfl
    exact Bool.false_ne_true (noDigit.symm.trans isDigit)
  rw [Builder.scalar, if_neg (other 'n' rfl), if_neg (other 't' rfl), if_neg (other 'f' rfl),
    if_neg (other '-' rfl), if_pos isDigit]

theorem elements_cases {α : Type} {read : Reader α} {c : Char} {bound text rest : List Char}
    {first : Bool} {found : List α}
    (ran : elements read (c :: bound) first text = .ok (found, rest)) :
    (found = [] ∧ ∃ after, elementAhead first text = .ok (false, after) ∧
      dropMark ']' after = .ok rest) ∨
    ∃ a others ahead later, found = a :: others ∧ elementAhead first text = .ok (true, ahead) ∧
      read ahead = .ok (a, later) ∧ elements read bound false later = .ok (others, rest) := by
  obtain ⟨⟨more, ahead⟩, goesOn, ran⟩ := bind_ok ran
  cases more with
  | false =>
    obtain ⟨after, closed, ran⟩ := bind_ok ran
    cases ran
    exact .inl ⟨rfl, ahead, goesOn, closed⟩
  | true =>
    obtain ⟨⟨a, later⟩, taken, ran⟩ := bind_ok ran
    obtain ⟨⟨others, after⟩, listed, ran⟩ := bind_ok ran
    cases ran
    exact .inr ⟨a, others, ahead, later, rfl, goesOn, taken, listed⟩

theorem entries_cases {read : Reader Tree} {c : Char} {bound text rest : List Char}
    {first : Bool} {found : List (String × Tree)}
    (ran : entries read (c :: bound) first text = .ok (found, rest)) :
    (found = [] ∧ ∃ after, keyAhead first text = .ok (false, after) ∧
      dropMark '}' after = .ok rest) ∨
    ∃ key tree others ahead colon start later, found = (key, tree) :: others ∧
      keyAhead first text = .ok (true, ahead) ∧ stringBody ahead = .ok (key, colon) ∧
      dropMark ':' colon = .ok start ∧ read start = .ok (tree, later) ∧
      entries read bound false later = .ok (others, rest) := by
  obtain ⟨⟨more, ahead⟩, goesOn, ran⟩ := bind_ok ran
  cases more with
  | false =>
    obtain ⟨after, closed, ran⟩ := bind_ok ran
    cases ran
    exact .inl ⟨rfl, ahead, goesOn, closed⟩
  | true =>
    obtain ⟨⟨key, colon⟩, named, ran⟩ := bind_ok ran
    obtain ⟨start, marked, ran⟩ := bind_ok ran
    obtain ⟨⟨tree, later⟩, taken, ran⟩ := bind_ok ran
    obtain ⟨⟨others, after⟩, listed, ran⟩ := bind_ok ran
    cases ran
    exact .inr ⟨key, tree, others, ahead, colon, start, later, rfl, goesOn, named, marked, taken,
      listed⟩

/-! ### Numbers in the text -/

/-- The numbers of a tree stand in a text. -/
inductive Within (whole : List Char) : Tree → Prop
  | null : Within whole .null
  | boolean (value : Bool) : Within whole (.boolean value)
  | number {f : Figure} (stands : f.text <:+ whole) : Within whole (.number f)
  | string (value : String) : Within whole (.string value)
  | array {trees : List Tree} (all : ∀ tree ∈ trees, Within whole tree) :
      Within whole (.array trees)
  | object {members : List (String × Tree)} (all : ∀ member ∈ members, Within whole member.2) :
      Within whole (.object members)

/-- A reader that stays inside a text, and a property of all that it reads there. -/
def Reaches {α : Type} (whole : List Char) (read : Reader α) (holds : α → Prop) : Prop :=
  ∀ text a rest, text <:+ whole → read text = .ok (a, rest) → holds a ∧ rest <:+ whole

theorem Reaches.elements {α : Type} {whole : List Char} {read : Reader α} {holds : α → Prop}
    (reaches : Reaches whole read holds) (bound : List Char) (first : Bool) :
    Reaches whole (Json.elements read bound first) fun found => ∀ a ∈ found, holds a := by
  induction bound generalizing first with
  | nil => exact fun text found rest _ ran => nomatch ran
  | cons c bound ih =>
    intro text found rest inside ran
    rcases elements_cases ran with
      ⟨rfl, after, goesOn, closed⟩ | ⟨a, others, ahead, later, rfl, goesOn, taken, listed⟩
    · have left := (List.suffix_cons _ _).trans (dropMark_suffix closed)
      exact ⟨nofun, (left.trans (elementAhead_suffix goesOn)).trans inside⟩
    · obtain ⟨held, left⟩ := reaches _ _ _ ((elementAhead_suffix goesOn).trans inside) taken
      obtain ⟨all, stop⟩ := ih false _ _ _ left listed
      exact ⟨List.forall_mem_cons.mpr ⟨held, all⟩, stop⟩

theorem Reaches.entries {whole : List Char} {read : Reader Tree} {holds : Tree → Prop}
    (reaches : Reaches whole read holds) (bound : List Char) (first : Bool) :
    Reaches whole (Tree.entries read bound first) fun found =>
      ∀ member ∈ found, holds member.2 := by
  induction bound generalizing first with
  | nil => exact fun text found rest _ ran => nomatch ran
  | cons c bound ih =>
    intro text found rest inside ran
    rcases entries_cases ran with ⟨rfl, after, goesOn, closed⟩ |
      ⟨key, tree, others, ahead, colon, start, later, rfl, goesOn, named, marked, taken, listed⟩
    · have left := (List.suffix_cons _ _).trans (dropMark_suffix closed)
      exact ⟨nofun, (left.trans (keyAhead_suffix goesOn)).trans inside⟩
    · have atKey := (keyAhead_suffix goesOn).trans inside
      have atColon := (stringBody_ok named).2.trans atKey
      have atValue := ((List.suffix_cons _ _).trans (dropMark_suffix marked)).trans atColon
      obtain ⟨held, left⟩ := reaches _ _ _ atValue taken
      obtain ⟨all, stop⟩ := ih false _ _ _ left listed
      exact ⟨List.forall_mem_cons.mpr ⟨held, all⟩, stop⟩

theorem Scalar.within {whole tail rest : List Char} {c : Char} {tree : Tree}
    (scalar : Scalar c tail tree rest) (inside : c :: tail <:+ whole) :
    Within whole tree ∧ rest <:+ whole := by
  have after := (List.suffix_cons c tail).trans inside
  cases scalar with
  | null word => exact ⟨.null, (dropWord_suffix word).trans after⟩
  | yes word => exact ⟨.boolean true, (dropWord_suffix word).trans after⟩
  | no word => exact ⟨.boolean false, (dropWord_suffix word).trans after⟩
  | negative read =>
    obtain ⟨same, -⟩ := Figure.of_reader read
    exact ⟨.number (same ▸ after), (Figure.reader_ok read).2.trans after⟩
  | digit isDigit read =>
    obtain ⟨same, -⟩ := Figure.of_reader read
    exact ⟨.number (same ▸ inside), (Figure.reader_ok read).2.trans inside⟩
  | string read => exact ⟨.string _, (stringBody_ok read).2.trans after⟩

theorem reader_reaches (whole : List Char) (depth : Nat) :
    Reaches whole (reader depth) (Within whole) := by
  induction depth with
  | zero =>
    intro text tree rest inside read
    cases reader_cases read with
    | scalar ahead found => exact found.within ((next_suffix ahead).trans inside)
  | succ depth ih =>
    intro text tree rest inside read
    cases reader_cases read with
    | scalar ahead found => exact found.within ((next_suffix ahead).trans inside)
    | array ahead found =>
      have after := (List.suffix_cons _ _).trans ((next_suffix ahead).trans inside)
      obtain ⟨all, left⟩ := ih.elements _ _ _ _ _ after found
      exact ⟨.array all, left⟩
    | object ahead found =>
      have after := (List.suffix_cons _ _).trans ((next_suffix ahead).trans inside)
      obtain ⟨all, left⟩ := ih.entries _ _ _ _ _ after found
      exact ⟨.object all, left⟩

theorem parse_within {text : String} {tree : Tree} (parsed : parse text = .ok tree) :
    Within text.toList tree := by
  obtain ⟨⟨found, rest⟩, read, parsed⟩ := bind_ok parsed
  dsimp only at parsed
  split at parsed
  · cases parsed
    exact (reader_reaches _ _ _ _ _ (List.suffix_refl _) read).1
  · cases parsed

theorem reader_suffix {depth : Nat} {text rest : List Char} {tree : Tree}
    (read : reader depth text = .ok (tree, rest)) : rest <:+ text :=
  (reader_reaches text depth _ _ _ (List.suffix_refl text) read).2

/-! ### Skipping -/

/-- A reader follows another one if it gets to the same place, in texts of a bounded length. -/
def Follows {α β : Type} (other : Reader β) (read : Reader α) (n : Nat) : Prop :=
  ∀ text a rest, text.length ≤ n → read text = .ok (a, rest) → ∃ b, other text = .ok (b, rest)

theorem Follows.elements {depth n : Nat} {other : Reader Unit}
    (follows : Follows other (reader depth) n) {bound text rest : List Char} {first : Bool}
    {found : List Tree} (short : text.length ≤ n)
    (ran : Json.elements (reader depth) bound first text = .ok (found, rest)) :
    ∃ others, Json.elements other bound first text = .ok (others, rest) := by
  induction bound generalizing first text found with
  | nil => cases ran
  | cons c bound ih =>
    rcases elements_cases ran with
      ⟨-, after, goesOn, closed⟩ | ⟨a, others, ahead, later, -, goesOn, taken, listed⟩
    · exact ⟨[], elements_closed other goesOn closed c bound⟩
    · have atElement := (elementAhead_suffix goesOn).length_le
      have after := (reader_suffix taken).length_le
      obtain ⟨b, same⟩ := follows _ _ _ (by omega) taken
      obtain ⟨bs, listing⟩ := ih (by omega) listed
      exact ⟨b :: bs, elements_step goesOn same listing c⟩

theorem Follows.members {depth n : Nat} {other : Reader Unit}
    (follows : Follows other (reader depth) n) {bound text rest : List Char} {first : Bool}
    {found : List (String × Tree)} (short : text.length ≤ n)
    (ran : entries (reader depth) bound first text = .ok (found, rest))
    (gathered : List (String × Unit)) :
    ∃ more, Json.members (skipping.member other) bound first gathered text = .ok (more, rest) := by
  induction bound generalizing first text found gathered with
  | nil => cases ran
  | cons c bound ih =>
    rcases entries_cases ran with ⟨-, after, goesOn, closed⟩ |
      ⟨key, tree, others, ahead, colon, start, later, -, goesOn, named, marked, taken, listed⟩
    · exact ⟨gathered, members_closed _ goesOn closed gathered c bound⟩
    · obtain ⟨skipped, atColon⟩ := stringBody_ok named
      have atValue := (List.suffix_cons _ _).trans (dropMark_suffix marked)
      have before := ((atValue.trans atColon).trans (keyAhead_suffix goesOn)).length_le
      have after := (reader_suffix taken).length_le
      obtain ⟨u, same⟩ := follows _ _ _ (by omega) taken
      have step : skipping.member other gathered ahead =
          .ok (OrderedMap.put "" u gathered, later) := by
        show ((skipString ahead).map ("", ·) >>= _) = _
        rw [skipped]
        show (dropMark ':' colon >>= _) = _
        rw [marked, ok_bind, same]
        rfl
      obtain ⟨more, gathering⟩ := ih (by omega) listed (OrderedMap.put "" u gathered)
      exact ⟨more, (members_step goesOn step c).trans gathering⟩

theorem Scalar.skipped {c : Char} {tail rest : List Char} {tree : Tree}
    (scalar : Scalar c tail tree rest) : skipping.scalar c tail = .ok ((), rest) := by
  cases scalar with
  | null word | yes word | no word =>
    show (dropWord _ tail).map _ = _
    rw [word]
    rfl
  | negative read => exact (Figure.reader_ok read).1
  | digit isDigit read =>
    exact (scalar_digit skipping isDigit tail).trans (Figure.reader_ok read).1
  | string read =>
    show (skipString tail).map _ = _
    rw [(stringBody_ok read).1]
    rfl

theorem Scalar.opens {c : Char} {tail rest : List Char} {tree : Tree}
    (scalar : Scalar c tail tree rest) : c ≠ '[' ∧ c ≠ '{' := by
  cases scalar with
  | digit isDigit read =>
    constructor
    · rintro rfl
      cases isDigit
    · rintro rfl
      cases isDigit
  | null | yes | no | negative | string => decide

theorem Scalar.followed {text tail rest : List Char} {c : Char} {tree : Tree}
    (scalar : Scalar c tail tree rest) (ahead : next text = .ok (c, tail)) (n : Nat) :
    ∃ u, skipping.value n text = .ok (u, rest) := by
  obtain ⟨notList, notObject⟩ := scalar.opens
  refine ⟨(), Eq.trans ?_ scalar.skipped⟩
  cases n with
  | zero =>
    rw [Builder.value, ahead]
    rfl
  | succ n =>
    rw [Builder.value, ahead, ok_bind]
    dsimp only
    rw [if_neg notList, if_neg notObject]

/-- A value is skipped up to the place where it ends when it is read. A list or an object inside it
starts further on in the text, so the length of the text is depth enough. -/
theorem skipping_follows (depth n : Nat) : Follows (skipping.value n) (reader depth) n := by
  induction depth generalizing n with
  | zero =>
    intro text tree rest short read
    cases reader_cases read with
    | scalar ahead found => exact found.followed ahead n
  | succ depth ih =>
    intro text tree rest short read
    cases reader_cases read with
    | scalar ahead found => exact found.followed ahead n
    | array ahead found =>
      have shorter := (next_suffix ahead).length_le
      rw [List.length_cons] at shorter
      obtain ⟨n, rfl⟩ : ∃ m, n = m + 1 := ⟨n - 1, by omega⟩
      obtain ⟨others, listed⟩ := (ih n).elements (by omega) found
      refine ⟨(), ?_⟩
      rw [Builder.value, ahead, ok_bind]
      dsimp only
      rw [if_pos rfl, listBody, listed]
      rfl
    | object ahead found =>
      have shorter := (next_suffix ahead).length_le
      rw [List.length_cons] at shorter
      obtain ⟨n, rfl⟩ : ∃ m, n = m + 1 := ⟨n - 1, by omega⟩
      obtain ⟨more, gathered⟩ := (ih n).members (by omega) found []
      refine ⟨(), ?_⟩
      rw [Builder.value, ahead, ok_bind]
      dsimp only
      rw [if_neg (by decide), if_pos rfl, objectBody, gathered]
      rfl

theorem skip_of_reader {depth : Nat} {text rest : List Char} {tree : Tree}
    (read : reader depth text = .ok (tree, rest)) : Reader.skip text = .ok ((), rest) :=
  (skipping_follows depth text.length _ _ _ (Nat.le_refl _) read).choose_spec

end Tree

end PolicyMend.Json
