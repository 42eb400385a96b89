import PolicyMend.Proofs.JsonTokens

/-!
Numbers as they stand in a JSON text. A figure keeps the text from its first digit on, the form that
was scanned there and the text after it. Main statement: a figure whose value is a natural number is
the decimal notation of that number, without sign, fraction or exponent.
-/

namespace PolicyMend.Json

structure Figure where
  negative : Bool
  text : List Char
  form : Numeral
  rest : List Char
  scanned : numeral .truncated text = .ok (form, rest)
  value : Number
  valued : form.value negative = .ok value

namespace Figure

def reader (negative : Bool) : Reader Figure := fun text =>
  match scanned : numeral .truncated text with
  | .error fault => .error fault
  | .ok (form, rest) =>
    match valued : form.value negative with
    | .error fault => .error fault
    | .ok value => .ok (⟨negative, text, form, rest, scanned, value, valued⟩, rest)

theorem numberBody_eq (negative : Bool) (text : List Char) :
    numberBody negative text = (reader negative text).map (Prod.map value id) := by
  unfold reader
  split
  · rename_i fault scanned
    rw [numberBody, scanned]
    rfl
  · rename_i form rest scanned
    have body : numberBody negative text = (form.value negative).map (·, rest) := by
      rw [numberBody, scanned, ok_bind]
      dsimp only
      cases form.value negative <;> rfl
    rw [body]
    split
    · rename_i fault valued
      rw [valued]
      rfl
    · rename_i value valued
      show _ = Except.ok (value, rest)
      rw [valued]
      rfl

theorem of_reader {negative : Bool} {text rest : List Char} {f : Figure}
    (read : reader negative text = .ok (f, rest)) : f.text = text ∧ f.rest = rest := by
  unfold reader at read
  split at read
  · cases read
  · split at read
    · cases read
    · cases read
      exact ⟨rfl, rfl⟩

/-! ### Natural numbers -/

/-- A text that stands for a natural number and for nothing longer. -/
structure Writes (f : Figure) (n : Nat) : Prop where
  unsigned : f.negative = false
  digits : f.text = Nat.toDigits 10 n ++ f.rest
  ends : ∀ c ∈ f.rest.head?, c.isDigit = false ∧ c ≠ '.' ∧ c ≠ 'e' ∧ c ≠ 'E'

theorem floatOf_ne_integer {negative : Bool} {significand : Nat} {exponent n : Int} :
    floatOf negative significand exponent ≠ .ok (.integer n) := by
  unfold floatOf
  split <;> simp

theorem absorb_exact {digits : List Nat} {start significand : Nat}
    (absorbed : absorb start digits = (significand, 0)) :
    significand = digits.foldl (fun n digit => 10 * n + digit) start := by
  induction digits generalizing start with
  | nil => exact (congrArg Prod.fst absorbed).symm
  | cons digit digits ih =>
    rw [absorb] at absorbed
    split at absorbed
    · exact ih absorbed
    · exact absurd (congrArg Prod.snd absorbed) (Nat.succ_ne_zero _)

theorem form_of_natural (f : Figure) {n : Nat} (natural : f.value = .integer n) :
    f.negative = false ∧ f.form.fraction = none ∧ f.form.exponent = none ∧
      digitsValue f.form.whole = n := by
  obtain ⟨negative, text, ⟨whole, fraction, exponent⟩, rest, scanned, value, valued⟩ := f
  obtain rfl : value = .integer n := natural
  unfold Numeral.value at valued
  dsimp only at valued ⊢
  split at valued
  · split at valued
    · exact absurd valued floatOf_ne_integer
    · rename_i noneLeft
      have all : absorb 0 whole = ((absorb 0 whole).1, 0) := Prod.ext rfl (by dsimp only; omega)
      have summed := absorb_exact all
      split at valued
      · rename_i positive
        have same := Number.integer.inj (Except.ok.inj valued)
        rw [digitsValue, ← summed]
        exact ⟨by simpa using positive, rfl, rfl, by omega⟩
      · split at valued
        · exact absurd valued floatOf_ne_integer
        · rename_i inRange
          have same := Number.integer.inj (Except.ok.inj valued)
          omega
  · exact absurd valued floatOf_ne_integer

theorem digitChar_digitValue {c : Char} (isDigit : c.isDigit = true) :
    digitValue c < 10 ∧ Nat.digitChar (digitValue c) = c := by
  have bounds : 48 ≤ c.toNat ∧ c.toNat ≤ 57 := by
    simpa [Char.isDigit, UInt32.le_iff_toNat_le] using isDigit
  have small : c.toNat - 48 < 10 := by omega
  refine ⟨small, Char.toNat_inj.mp ?_⟩
  rw [digitValue, Nat.toNat_digitChar_of_lt_ten small]
  omega

/-- Digits after the notation of a positive number continue it. -/
theorem toDigits_append_digits {digits : List Char} (all : ∀ c ∈ digits, c.isDigit = true)
    {start : Nat} (positive : 0 < start) :
    Nat.toDigits 10 start ++ digits =
      Nat.toDigits 10 ((digits.map digitValue).foldl (fun n digit => 10 * n + digit) start) := by
  induction digits generalizing start with
  | nil => exact List.append_nil _
  | cons c digits ih =>
    obtain ⟨small, same⟩ := digitChar_digitValue (all c List.mem_cons_self)
    have others := fun d member => all d (List.mem_cons_of_mem c member)
    have next : Nat.toDigits 10 start ++ [c] = Nat.toDigits 10 (10 * start + digitValue c) := by
      rw [← Nat.toDigits_append_toDigits (by decide) positive small,
        Nat.toDigits_of_lt_base small, same]
    rw [List.map_cons, List.foldl_cons, ← ih others (by omega), ← next, List.append_assoc]
    rfl

theorem toDigits_of_digits {c : Char} {digits : List Char}
    (all : ∀ d ∈ c :: digits, d.isDigit = true) (nonzero : c ≠ '0') :
    c :: digits = Nat.toDigits 10 (digitsValue ((c :: digits).map digitValue)) := by
  obtain ⟨small, same⟩ := digitChar_digitValue (all c List.mem_cons_self)
  have positive : 0 < digitValue c := by
    refine Nat.pos_of_ne_zero fun zero => nonzero ?_
    rw [← same, zero]
    rfl
  have others := fun d member => all d (List.mem_cons_of_mem c member)
  rw [digitsValue, List.map_cons, List.foldl_cons, Nat.mul_zero, Nat.zero_add,
    ← toDigits_append_digits others positive, Nat.toDigits_of_lt_base small, same]
  rfl

section Parts

variable {atEnd : Fault} {text rest : List Char}

theorem wholePart_spelled {digits : List Nat} (read : wholePart atEnd text = .ok (digits, rest)) :
    text = Nat.toDigits 10 (digitsValue digits) ++ rest ∧
      ∀ c ∈ rest.head?, c.isDigit = false := by
  unfold wholePart at read
  split at read
  · split at read
    · split at read
      · cases read
      · rename_i notDigit
        cases read
        exact ⟨rfl, by simpa using notDigit⟩
    · cases read
      exact ⟨rfl, nofun⟩
  · rename_i noZero
    have split := @List.takeWhile_append_dropWhile _ Char.isDigit text
    have all := List.all_eq_true.mp (@List.all_takeWhile _ Char.isDigit text)
    have stops := List.head?_dropWhile_not Char.isDigit text
    rw [someDigits, takeDigits] at read
    cases filled : text.takeWhile Char.isDigit with
    | nil =>
      rw [filled, List.map_nil] at read
      split at read
      · cases read
      · cases read
      · rename_i noEnd noOther
        cases left : text.dropWhile Char.isDigit with
        | nil => exact absurd (congrArg _ left) noEnd
        | cons c tail => exact absurd (congrArg _ left) (noOther c tail)
    | cons c others =>
      rw [filled] at read split all
      cases read
      have notZero : c ≠ '0' := by
        rintro rfl
        exact noZero _ split.symm
      rw [← toDigits_of_digits all notZero]
      refine ⟨split.symm, fun d first => ?_⟩
      rw [Option.mem_def.mp first] at stops
      exact stops

theorem fractionPart_none (read : fractionPart atEnd text = .ok (none, rest)) :
    rest = text ∧ ∀ c ∈ rest.head?, c ≠ '.' := by
  unfold fractionPart at read
  split at read
  · obtain ⟨found, -, made⟩ := map_eq_ok read
    cases made
  · rename_i noPoint
    cases read
    refine ⟨rfl, ?_⟩
    rintro c found rfl
    obtain ⟨tail, rfl⟩ := List.head?_eq_some_iff.mp found
    exact noPoint tail rfl

theorem exponentPart_none (read : exponentPart atEnd text = .ok (none, rest)) :
    rest = text ∧ ∀ c ∈ rest.head?, c ≠ 'e' ∧ c ≠ 'E' := by
  unfold exponentPart at read
  dsimp only at read
  split at read
  · split at read
    · split at read <;>
      · obtain ⟨found, -, made⟩ := map_eq_ok read
        cases made
    · rename_i unmarked
      cases read
      refine ⟨rfl, ?_⟩
      rintro c found
      obtain rfl := Option.some.inj found
      exact not_or.mp unmarked
  · cases read
    exact ⟨rfl, nofun⟩

end Parts

theorem writes (f : Figure) {n : Nat} (natural : f.value = .integer n) : f.Writes n := by
  obtain ⟨unsigned, noFraction, noExponent, digits⟩ := f.form_of_natural natural
  obtain ⟨⟨whole, afterWhole⟩, scanned, read⟩ := bind_ok f.scanned
  obtain ⟨⟨fraction, afterFraction⟩, scanned', read⟩ := bind_ok read
  obtain ⟨⟨exponent, afterExponent⟩, scanned'', read⟩ := bind_ok read
  obtain ⟨form, same⟩ := Prod.mk.inj (Except.ok.inj read)
  rw [← form] at noFraction noExponent digits
  dsimp only at noFraction noExponent digits
  obtain ⟨spelled, noDigit⟩ := wholePart_spelled scanned
  obtain ⟨rfl, noPoint⟩ := fractionPart_none (noFraction ▸ scanned')
  obtain ⟨rfl, noMark⟩ := exponentPart_none (noExponent ▸ scanned'')
  refine ⟨unsigned, ?_, fun c first => ?_⟩
  · rw [spelled, digits, same]
  · rw [← same] at first
    exact ⟨noDigit c first, noPoint c first, noMark c first⟩

/-! ### Skipping -/

section Skipping

variable {atEnd : Fault} {text rest : List Char}

theorem someDigits_ok {digits : List Nat} (read : someDigits atEnd text = .ok (digits, rest))
    (other : Fault) : someDigits other text = .ok (digits, rest) ∧ rest <:+ text := by
  have later : (takeDigits text).2 <:+ text := List.dropWhile_suffix Char.isDigit
  unfold someDigits at read ⊢
  split at read
  · cases read
  · cases read
  · cases read
    exact ⟨rfl, later⟩

theorem wholePart_ok {digits : List Nat} (read : wholePart atEnd text = .ok (digits, rest))
    (other : Fault) : wholePart other text = .ok (digits, rest) ∧ rest <:+ text := by
  unfold wholePart at read ⊢
  split at read
  · refine ⟨read, ?_⟩
    split at read
    · split at read
      · cases read
      · cases read
        exact List.suffix_cons _ _
    · cases read
      exact List.suffix_cons _ _
  · exact someDigits_ok read other

theorem fractionPart_ok {digits : Option (List Nat)}
    (read : fractionPart atEnd text = .ok (digits, rest)) (other : Fault) :
    fractionPart other text = .ok (digits, rest) ∧ rest <:+ text := by
  unfold fractionPart at read ⊢
  split at read
  · obtain ⟨⟨found, after⟩, scanned, made⟩ := map_eq_ok read
    obtain ⟨again, later⟩ := someDigits_ok scanned other
    cases made
    rw [again]
    exact ⟨rfl, later.trans (List.suffix_cons _ _)⟩
  · cases read
    exact ⟨rfl, List.suffix_refl _⟩

theorem signedDigits_ok {sign : Int} {exponent : Option Int}
    (read : ((someDigits atEnd text).map fun found =>
      (some (sign * (digitsValue found.1 : Int)), found.2)) = .ok (exponent, rest))
    (other : Fault) :
    ((someDigits other text).map fun found =>
      (some (sign * (digitsValue found.1 : Int)), found.2)) = .ok (exponent, rest) ∧
      rest <:+ text := by
  obtain ⟨⟨digits, after⟩, scanned, made⟩ := map_eq_ok read
  obtain ⟨again, later⟩ := someDigits_ok scanned other
  cases made
  rw [again]
  exact ⟨rfl, later⟩

theorem exponentPart_ok {exponent : Option Int}
    (read : exponentPart atEnd text = .ok (exponent, rest)) (other : Fault) :
    exponentPart other text = .ok (exponent, rest) ∧ rest <:+ text := by
  unfold exponentPart at read ⊢
  dsimp only at read ⊢
  split at read
  · split at read
    · rename_i marked
      rw [if_pos marked]
      split at read
      · obtain ⟨again, later⟩ := signedDigits_ok read other
        exact ⟨again, later.trans ((List.suffix_cons _ _).trans (List.suffix_cons _ _))⟩
      · obtain ⟨again, later⟩ := signedDigits_ok read other
        exact ⟨again, later.trans ((List.suffix_cons _ _).trans (List.suffix_cons _ _))⟩
      · obtain ⟨again, later⟩ := signedDigits_ok read other
        exact ⟨again, later.trans (List.suffix_cons _ _)⟩
    · rename_i unmarked
      rw [if_neg unmarked]
      cases read
      exact ⟨rfl, List.suffix_refl _⟩
  · cases read
    exact ⟨rfl, List.suffix_refl _⟩

theorem numeral_ok {form : Numeral} (read : numeral atEnd text = .ok (form, rest))
    (other : Fault) : numeral other text = .ok (form, rest) ∧ rest <:+ text := by
  obtain ⟨⟨whole, afterWhole⟩, scanned, read⟩ := bind_ok read
  obtain ⟨⟨fraction, afterFraction⟩, scanned', read⟩ := bind_ok read
  obtain ⟨⟨exponent, afterExponent⟩, scanned'', read⟩ := bind_ok read
  cases read
  obtain ⟨again, later⟩ := wholePart_ok scanned other
  obtain ⟨again', later'⟩ := fractionPart_ok scanned' other
  obtain ⟨again'', later''⟩ := exponentPart_ok scanned'' other
  refine ⟨?_, (later''.trans later').trans later⟩
  rw [numeral, again, ok_bind]
  dsimp only
  rw [again', ok_bind]
  dsimp only
  rw [again'']
  rfl

/-- A number that can be read can be skipped. -/
theorem reader_ok {negative : Bool} {f : Figure} (read : reader negative text = .ok (f, rest)) :
    skipping.number negative text = .ok ((), rest) ∧ rest <:+ text := by
  obtain ⟨rfl, rfl⟩ := of_reader read
  obtain ⟨again, later⟩ := numeral_ok f.scanned .malformed
  refine ⟨?_, later⟩
  show (numeral .malformed f.text).map _ = _
  rw [again]
  rfl

end Skipping

end Figure

end PolicyMend.Json
