import Mathlib.Data.List.Forall2
import Mathlib.Data.List.TakeWhile
import PolicyMend.Proofs.Basic
import PolicyMend.Violation

/-!
The notation of violations. A path may hold colons and numbers of its own, so the fields that end a
path and those of a location can be taken for each other. Main statement: a violation is read back
from its notation unless two numbers at the end of its path would be taken for a location, and what
was read from a text is never such a violation.
-/

namespace PolicyMend.Violation

/-- A field that gives a number in decimal digits, with or without a plus sign. -/
def Denotes (field : List Char) (n : UInt32) : Prop :=
  ∃ digits, (field = digits ∨ field = '+' :: digits) ∧ digits ≠ [] ∧
    (∀ c ∈ digits, c.isDigit = true) ∧ Nat.ofDigitChars 10 digits 0 = n.toNat

/-- Fields of which at least three are there and the last two give numbers. -/
def EndsInNumbers (fields : List (List Char)) : Prop :=
  ∃ front a b m n, front ≠ [] ∧ fields = front ++ [a, b] ∧ Denotes a m ∧ Denotes b n

structure Notable (v : Violation) : Prop where
  fixer : v.fixer ≠ ""
  plain : '=' ∉ v.fixer.toList
  path : v.path ≠ ""
  clear : v.location.stop = none → ¬EndsInNumbers (v.path.toList.splitOn ':')

/-- A text with a fixer and at least three fields, whose last two do not both give numbers. -/
def Misplaced (text : List Char) : Prop :=
  ∃ fixer target, text = fixer ++ '=' :: target ∧ fixer ≠ [] ∧ '=' ∉ fixer ∧
    3 ≤ (target.splitOn ':').length ∧ ¬EndsInNumbers (target.splitOn ':')

/-! ### Numbers -/

theorem digitsValue?_eq_some_iff {digits : List Char} {value : Nat} :
    digitsValue? digits = some value ↔ digits ≠ [] ∧ (∀ c ∈ digits, c.isDigit = true) ∧
      Nat.ofDigitChars 10 digits 0 = value := by
  unfold digitsValue?
  split
  · next valid =>
    rw [List.all_eq_true] at valid
    constructor
    · intro read
      exact ⟨valid.1, valid.2, Option.some.inj read⟩
    · rintro ⟨-, -, rfl⟩
      rfl
  · next invalid =>
    constructor
    · intro read
      cases read
    · rintro ⟨filled, all, -⟩
      exact absurd ⟨filled, List.all_eq_true.mpr all⟩ invalid

theorem number?_plus (digits : List Char) : number? ('+' :: digits) =
    (digitsValue? digits).bind fun n =>
      if n < UInt32.size then some (UInt32.ofNat n) else none := rfl

theorem number?_unsigned {field : List Char} (unsigned : ∀ digits, field ≠ '+' :: digits) :
    number? field = (digitsValue? field).bind fun n =>
      if n < UInt32.size then some (UInt32.ofNat n) else none := by
  unfold number?
  split
  · next digits => exact absurd rfl (unsigned digits)
  · rfl

theorem word_eq_some_iff {value : Nat} {n : UInt32} :
    (if value < UInt32.size then some (UInt32.ofNat value) else none) = some n ↔
      value = n.toNat := by
  have bound := n.toNat_lt
  constructor
  · intro eq
    split at eq
    · next small =>
      rw [← Option.some.inj eq, UInt32.toNat_ofNat_of_lt' small]
    · cases eq
  · rintro rfl
    rw [if_pos bound, UInt32.ofNat_toNat]

theorem bind_word_eq_some_iff {digits : List Char} {n : UInt32} :
    ((digitsValue? digits).bind fun n =>
      if n < UInt32.size then some (UInt32.ofNat n) else none) = some n ↔
      digits ≠ [] ∧ (∀ c ∈ digits, c.isDigit = true) ∧
        Nat.ofDigitChars 10 digits 0 = n.toNat := by
  rw [Option.bind_eq_some_iff]
  constructor
  · rintro ⟨value, read, eq⟩
    rw [← word_eq_some_iff.mp eq]
    exact digitsValue?_eq_some_iff.mp read
  · intro valid
    exact ⟨n.toNat, digitsValue?_eq_some_iff.mpr valid, word_eq_some_iff.mpr rfl⟩

theorem number?_eq_some_iff {field : List Char} {n : UInt32} :
    number? field = some n ↔ Denotes field n := by
  by_cases signed : ∃ digits, field = '+' :: digits
  · obtain ⟨digits, rfl⟩ := signed
    rw [number?_plus, bind_word_eq_some_iff]
    constructor
    · intro valid
      exact ⟨digits, .inr rfl, valid⟩
    · rintro ⟨digits', same | same, valid⟩
      · have sign := valid.2.1 '+' (same ▸ List.mem_cons_self)
        cases sign
      · cases same
        exact valid
  · rw [number?_unsigned fun digits same => signed ⟨digits, same⟩, bind_word_eq_some_iff]
    constructor
    · intro valid
      exact ⟨field, .inl rfl, valid⟩
    · rintro ⟨digits, rfl | same, valid⟩
      · exact valid
      · exact absurd ⟨digits, same⟩ signed

theorem denotes_toDigits (n : UInt32) : Denotes (Nat.toDigits 10 n.toNat) n :=
  ⟨_, .inl rfl, Nat.toDigits_ne_nil,
    fun _ => Nat.isDigit_of_mem_toDigits (by decide) (by decide), Nat.ofDigitChars_ten_toDigits⟩

theorem colon_not_mem_toDigits (n : Nat) : ':' ∉ Nat.toDigits 10 n := by
  intro member
  have digit := Nat.isDigit_of_mem_toDigits (by decide) (by decide) member
  cases digit

/-! ### Fields -/

theorem mapM_number?_iff {fields : List (List Char)} {numbers : List UInt32} :
    fields.mapM number? = some numbers ↔ List.Forall₂ Denotes fields numbers := by
  induction fields generalizing numbers with
  | nil =>
    constructor
    · intro read
      obtain rfl := Option.some.inj read
      exact .nil
    · rintro ⟨⟩
      rfl
  | cons field fields ih =>
    rw [List.mapM_cons]
    constructor
    · intro read
      obtain ⟨n, first, read⟩ := Option.bind_eq_some_iff.mp read
      obtain ⟨rest, others, read⟩ := Option.bind_eq_some_iff.mp read
      obtain rfl := Option.some.inj read
      exact .cons (number?_eq_some_iff.mp first) (ih.mp others)
    · rintro ⟨⟩
      next n rest first others =>
        rw [number?_eq_some_iff.mpr first, ih.mpr others]
        rfl

theorem trailing_eq_some_iff {fields path : List (List Char)} {count : Nat}
    {numbers : List UInt32} :
    trailing fields count = some (path, numbers) ↔ path ≠ [] ∧
      ∃ last, fields = path ++ last ∧ last.length = count ∧ List.Forall₂ Denotes last numbers := by
  unfold trailing
  constructor
  · intro found
    split at found
    · cases found
    · next long =>
      obtain ⟨read, numbered, eq⟩ := Option.bind_eq_some_iff.mp found
      cases eq
      refine ⟨?_, fields.drop (fields.length - count), ?_, ?_, mapM_number?_iff.mp numbered⟩
      · intro none
        have length := congrArg List.length none
        rw [List.length_take, List.length_nil] at length
        omega
      · exact (List.take_append_drop _ fields).symm
      · rw [List.length_drop]
        omega
  · rintro ⟨filled, last, rfl, rfl, numbered⟩
    have positive := List.length_pos_iff.mpr filled
    have start : (path ++ last).length - last.length = path.length := by
      rw [List.length_append]
      omega
    rw [if_neg (by rw [List.length_append]; omega)]
    simp only [start, List.drop_left, List.take_left, mapM_number?_iff.mpr numbered]
    rfl

theorem trailing_two_iff {fields path : List (List Char)} {numbers : List UInt32} :
    trailing fields 2 = some (path, numbers) ↔ path ≠ [] ∧ ∃ a b m n,
      fields = path ++ [a, b] ∧ Denotes a m ∧ Denotes b n ∧ numbers = [m, n] := by
  rw [trailing_eq_some_iff]
  refine and_congr_right fun _ => ⟨?_, ?_⟩
  · rintro ⟨last, rfl, length, numbered⟩
    obtain ⟨a, b, rfl⟩ := List.length_eq_two.mp length
    obtain ⟨⟩ | ⟨first, ⟨⟩ | ⟨second, ⟨⟩⟩⟩ := numbered
    exact ⟨a, b, _, _, rfl, first, second, rfl⟩
  · rintro ⟨a, b, m, n, rfl, first, second, rfl⟩
    exact ⟨[a, b], rfl, rfl, .cons first (.cons second .nil)⟩

theorem trailing_four_iff {fields path : List (List Char)} {numbers : List UInt32} :
    trailing fields 4 = some (path, numbers) ↔ path ≠ [] ∧ ∃ a b c d k l m n,
      fields = path ++ [a, b] ++ [c, d] ∧ Denotes a k ∧ Denotes b l ∧ Denotes c m ∧ Denotes d n ∧
        numbers = [k, l, m, n] := by
  rw [trailing_eq_some_iff]
  refine and_congr_right fun _ => ⟨?_, ?_⟩
  · rintro ⟨last, rfl, length, numbered⟩
    obtain ⟨a, b, c, d, rfl⟩ : ∃ a b c d, last = [a, b, c, d] :=
      match last, length with
      | [a, b, c, d], _ => ⟨a, b, c, d, rfl⟩
    obtain ⟨⟩ | ⟨first, ⟨⟩ | ⟨second, ⟨⟩ | ⟨third, ⟨⟩ | ⟨fourth, ⟨⟩⟩⟩⟩⟩ := numbered
    exact ⟨a, b, c, d, _, _, _, _, by simp, first, second, third, fourth, rfl⟩
  · rintro ⟨a, b, c, d, k, l, m, n, rfl, first, second, third, fourth, rfl⟩
    exact ⟨[a, b, c, d], by simp, rfl, .cons first (.cons second (.cons third (.cons fourth .nil)))⟩

theorem endsInNumbers_iff {fields : List (List Char)} :
    EndsInNumbers fields ↔ trailing fields 2 ≠ none := by
  rw [Option.ne_none_iff_exists']
  constructor
  · rintro ⟨path, a, b, m, n, filled, parts, first, second⟩
    exact ⟨(path, [m, n]), trailing_two_iff.mpr ⟨filled, a, b, m, n, parts, first, second, rfl⟩⟩
  · rintro ⟨⟨path, numbers⟩, found⟩
    obtain ⟨filled, a, b, m, n, parts, first, second, -⟩ := trailing_two_iff.mp found
    exact ⟨path, a, b, m, n, filled, parts, first, second⟩

/-- Before two numbers stand fields that end in numbers if and only if there are four numbers. -/
theorem endsInNumbers_iff_trailing_four {path : List (List Char)} {a b : List Char}
    {m n : UInt32} (first : Denotes a m) (second : Denotes b n) :
    EndsInNumbers path ↔ trailing (path ++ [a, b]) 4 ≠ none := by
  rw [Option.ne_none_iff_exists']
  constructor
  · rintro ⟨front, c, d, k, l, filled, rfl, third, fourth⟩
    exact ⟨(front, [k, l, m, n]), trailing_four_iff.mpr
      ⟨filled, c, d, a, b, k, l, m, n, rfl, third, fourth, first, second, rfl⟩⟩
  · rintro ⟨⟨front, numbers⟩, found⟩
    obtain ⟨filled, c, d, a', b', k, l, -, -, parts, third, fourth, -⟩ := trailing_four_iff.mp found
    obtain ⟨rfl, -⟩ := List.append_inj' parts rfl
    exact ⟨front, c, d, k, l, filled, rfl, third, fourth⟩

theorem target?_of_four {fields path : List (List Char)} {k l m n : UInt32}
    (four : trailing fields 4 = some (path, [k, l, m, n])) :
    target? fields = some (path, { row := k, col := l, stop := some ⟨m, n⟩ }) := by
  simp only [target?, four]

theorem target?_of_two {fields path : List (List Char)} {m n : UInt32}
    (four : trailing fields 4 = none) (two : trailing fields 2 = some (path, [m, n])) :
    target? fields = some (path, { row := m, col := n }) := by
  simp only [target?, four, two]

theorem target?_of_none {fields : List (List Char)} (four : trailing fields 4 = none)
    (two : trailing fields 2 = none) : target? fields = none := by
  simp only [target?, four, two]

def written (l : Location) : List (List Char) :=
  [Nat.toDigits 10 l.row.toNat, Nat.toDigits 10 l.col.toNat] ++
    l.stop.toList.flatMap fun stop =>
      [Nat.toDigits 10 stop.row.toNat, Nat.toDigits 10 stop.col.toNat]

theorem target?_written {path : List (List Char)} {l : Location} (filled : path ≠ [])
    (clear : l.stop = none → ¬EndsInNumbers path) :
    target? (path ++ written l) = some (path, l) := by
  obtain ⟨row, col, stop⟩ := l
  have atRow := denotes_toDigits row
  have atCol := denotes_toDigits col
  cases stop with
  | none =>
    have four : trailing (path ++ [Nat.toDigits 10 row.toNat, Nat.toDigits 10 col.toNat]) 4 =
        none :=
      Decidable.not_not.mp fun some =>
        clear rfl ((endsInNumbers_iff_trailing_four atRow atCol).mpr some)
    exact target?_of_two four
      (trailing_two_iff.mpr ⟨filled, _, _, _, _, rfl, atRow, atCol, rfl⟩)
  | some stop =>
    refine target?_of_four (trailing_four_iff.mpr ⟨filled, _, _, _, _, _, _, _, _, ?_, atRow, atCol,
      denotes_toDigits stop.row, denotes_toDigits stop.col, rfl⟩)
    simp [written]

theorem target?_eq_some {fields path : List (List Char)} {l : Location}
    (found : target? fields = some (path, l)) :
    path ≠ [] ∧ (l.stop = none → ¬EndsInNumbers path) ∧ ∃ last, fields = path ++ last := by
  cases four : trailing fields 4 with
  | some read =>
    obtain ⟨path', numbers⟩ := read
    obtain ⟨filled, a, b, c, d, k, l, m, n, rfl, -, -, -, -, rfl⟩ := trailing_four_iff.mp four
    rw [target?_of_four four] at found
    cases found
    refine ⟨filled, fun none => ?_, [a, b, c, d], by simp⟩
    cases none
  | none =>
    cases two : trailing fields 2 with
    | some read =>
      obtain ⟨path', numbers⟩ := read
      obtain ⟨filled, a, b, m, n, rfl, first, second, rfl⟩ := trailing_two_iff.mp two
      rw [target?_of_two four two] at found
      cases found
      refine ⟨filled, fun _ ends => ?_, [a, b], rfl⟩
      exact (endsInNumbers_iff_trailing_four first second).mp ends four
    | none =>
      rw [target?_of_none four two] at found
      cases found

theorem target?_eq_none_iff {fields : List (List Char)} :
    target? fields = none ↔ ¬EndsInNumbers fields := by
  rw [endsInNumbers_iff]
  cases four : trailing fields 4 with
  | some read =>
    obtain ⟨path, numbers⟩ := read
    obtain ⟨filled, a, b, c, d, k, l, m, n, rfl, -, -, third, fourth, rfl⟩ :=
      trailing_four_iff.mp four
    have two := trailing_two_iff.mpr
      ⟨List.append_ne_nil_of_left_ne_nil filled [a, b], c, d, m, n, rfl, third, fourth, rfl⟩
    rw [target?_of_four four, two]
    simp
  | none =>
    cases two : trailing fields 2 with
    | some read =>
      obtain ⟨path, numbers⟩ := read
      obtain ⟨-, -, -, m, n, -, -, -, rfl⟩ := trailing_two_iff.mp two
      rw [target?_of_two four two]
      simp
    | none => simp [target?_of_none four two]

/-! ### Texts -/

theorem splitOn_append_flatMap {cs : List Char} {pieces : List (List Char)}
    (whole : ∀ piece ∈ pieces, ':' ∉ piece) :
    (cs ++ pieces.flatMap (':' :: ·)).splitOn ':' = cs.splitOn ':' ++ pieces := by
  induction pieces generalizing cs with
  | nil => simp
  | cons piece pieces ih =>
    have first := whole piece List.mem_cons_self
    have rest := @ih (cs ++ ':' :: piece) fun other member =>
      whole other (List.mem_cons_of_mem piece member)
    rw [List.flatMap_cons, ← List.append_assoc, rest, List.splitOn_append_cons_self,
      List.splitOn_eq_singleton first, List.append_assoc, List.singleton_append]

theorem colon_not_mem_written {l : Location} : ∀ field ∈ written l, ':' ∉ field := by
  intro field member
  simp only [written, List.mem_append, List.mem_cons, List.not_mem_nil, or_false,
    List.mem_flatMap] at member
  rcases member with (rfl | rfl) | ⟨stop, -, rfl | rfl⟩ <;> exact colon_not_mem_toDigits _

theorem toList_render (v : Violation) :
    v.render.toList = v.fixer.toList ++ '=' ::
      (v.path.toList ++ (written v.location).flatMap (':' :: ·)) := by
  obtain ⟨fixer, path, row, col, stop⟩ := v
  cases stop <;> simp [render, written]

section Input

variable {input : String} {fixer target : List Char}
  (text : input.toList = fixer ++ '=' :: target) (plain : '=' ∉ fixer) (filled : fixer ≠ [])

include text plain filled

theorem parse_of_target {path : List (List Char)} {l : Location}
    (found : target? (target.splitOn ':') = some (path, l)) :
    parse input = if ([':'].intercalate path).isEmpty then .error (.malformed input)
      else .ok ⟨String.ofList fixer, String.ofList ([':'].intercalate path), l⟩ := by
  have front := Text.takeWhile_ne_append plain target
  have rest := Text.dropWhile_ne_append plain target
  have some : ¬fixer.isEmpty = true := fun empty => filled (List.isEmpty_iff.mp empty)
  simp only [parse, text, front, rest, found, if_neg some]

theorem parse_of_no_target (missing : target? (target.splitOn ':') = none) :
    parse input = if (target.splitOn ':').length > 2 then .error (.badLocation input)
      else .error (.malformed input) := by
  have front := Text.takeWhile_ne_append plain target
  have rest := Text.dropWhile_ne_append plain target
  have some : ¬fixer.isEmpty = true := fun empty => filled (List.isEmpty_iff.mp empty)
  simp only [parse, text, front, rest, missing, if_neg some]

end Input

theorem parse_cases (input : String) :
    (∃ fixer target, input.toList = fixer ++ '=' :: target ∧ fixer ≠ [] ∧ '=' ∉ fixer) ∨
      parse input = .error (.malformed input) := by
  by_cases there : '=' ∈ input.toList
  · obtain ⟨fixer, target, text, plain⟩ := List.eq_append_cons_of_mem there
    by_cases filled : fixer = []
    · subst filled
      refine .inr ?_
      simp only [parse, text]
      rfl
    · exact .inl ⟨fixer, target, text, filled, plain⟩
  · have rest : input.toList.dropWhile (· ≠ '=') = [] := by
      rw [List.dropWhile_eq_nil_iff]
      exact Text.decide_ne_of_mem there
    refine .inr ?_
    simp only [parse, rest]

theorem Notable.parse_render {v : Violation} (notable : v.Notable) : parse v.render = .ok v := by
  have fixer : v.fixer.toList ≠ [] := fun none => notable.fixer (String.toList_eq_nil_iff.mp none)
  have path : v.path.toList ≠ [] := fun none => notable.path (String.toList_eq_nil_iff.mp none)
  have found : target?
      ((v.path.toList ++ (written v.location).flatMap (':' :: ·)).splitOn ':') =
      some (v.path.toList.splitOn ':', v.location) := by
    rw [splitOn_append_flatMap colon_not_mem_written]
    exact target?_written (List.splitOn_ne_nil _ _) notable.clear
  rw [parse_of_target (toList_render v) notable.plain fixer found, List.intercalate_splitOn,
    if_neg fun empty => path (List.isEmpty_iff.mp empty), String.ofList_toList,
    String.ofList_toList]

theorem notable_of_parse {input : String} {v : Violation} (read : parse input = .ok v) :
    v.Notable := by
  rcases parse_cases input with ⟨fixer, target, text, filled, plain⟩ | malformed
  · cases found : target? (target.splitOn ':') with
    | some place =>
      obtain ⟨path, location⟩ := place
      obtain ⟨some, clear, last, parts⟩ := target?_eq_some found
      rw [parse_of_target text plain filled found] at read
      split at read
      · cases read
      · next named =>
        obtain rfl := Except.ok.inj read
        have pieces : ([':'].intercalate path).splitOn ':' = path := by
          refine List.splitOn_intercalate _ (fun piece member => ?_) some
          exact Text.not_mem_of_mem_splitOn (parts ▸ List.mem_append_left last member)
        refine ⟨?_, ?_, ?_, ?_⟩
        · simpa using filled
        · simpa using plain
        · simpa using named
        · rw [String.toList_ofList, pieces]
          exact clear
    | none =>
      rw [parse_of_no_target text plain filled found] at read
      split at read <;> cases read
  · rw [malformed] at read
    cases read

theorem parse_eq_badLocation_iff {input text : String} :
    parse input = .error (.badLocation text) ↔ text = input ∧ Misplaced input.toList := by
  constructor
  · intro read
    rcases parse_cases input with ⟨fixer, target, parts, filled, plain⟩ | malformed
    · cases found : target? (target.splitOn ':') with
      | some place =>
        obtain ⟨path, location⟩ := place
        rw [parse_of_target parts plain filled found] at read
        split at read <;> cases read
      | none =>
        rw [parse_of_no_target parts plain filled found] at read
        split at read
        · next long =>
          cases read
          exact ⟨rfl, fixer, target, parts, filled, plain, long, target?_eq_none_iff.mp found⟩
        · cases read
    · rw [malformed] at read
      cases read
  · rintro ⟨rfl, fixer, target, parts, filled, plain, long, unplaced⟩
    rw [parse_of_no_target parts plain filled (target?_eq_none_iff.mpr unplaced)]
    exact if_pos long

/-- Reading inverts the notation. -/
theorem parse_inverts_render :
    (∀ v : Violation, v.Notable → parse v.render = .ok v) ∧
      (∀ input v, parse input = .ok v → v.Notable ∧ parse v.render = .ok v) ∧
      ∀ input text, parse input = .error (.badLocation text) ↔
        text = input ∧ Misplaced input.toList := by
  refine ⟨fun v notable => notable.parse_render, fun input v read => ?_, ?_⟩
  · have notable := notable_of_parse read
    exact ⟨notable, notable.parse_render⟩
  · intro input text
    exact parse_eq_badLocation_iff

/-- A path of two numbers, which are too few to be taken for a location. -/
def numericPath : Violation := ⟨"f", "1:2", { row := 3, col := 4 }⟩

theorem numericPath_notable : numericPath.Notable := by
  refine ⟨by decide, by decide, by decide, ?_⟩
  rintro - ⟨front, a, b, -, -, filled, parts, -⟩
  have length := congrArg List.length parts
  have positive := List.length_pos_iff.mpr filled
  have two : (numericPath.path.toList.splitOn ':').length = 2 := by decide
  rw [two, List.length_append] at length
  simp only [List.length_cons, List.length_nil] at length
  omega

theorem parse_inverts_render_numericPath :
    numericPath.Notable ∧ parse numericPath.render = .ok numericPath :=
  ⟨numericPath_notable, parse_inverts_render.1 numericPath numericPath_notable⟩

end PolicyMend.Violation
