import PolicyMend.Json.Printer
import PolicyMend.Json.Reader
import PolicyMend.Proofs.Basic

/-!
Strings and numbers of JSON text, read back. A value is written so that its first character shows
what it is, and it is followed by a mark that cannot go on with it. Main statements: the escaped
form of every text is read as that text, and the digits of a number of 64 bits as that number.
-/

namespace PolicyMend.Json

variable {α : Type}

theorem next_cons {c : Char} (mark : isSpace c = false) (rest : List Char) :
    next (c :: rest) = .ok (c, rest) := by
  rw [next, dropSpace, List.dropWhile_cons_of_neg (by simp [mark])]

theorem dropMark_cons {mark : Char} (visible : isSpace mark = false) (rest : List Char) :
    dropMark mark (mark :: rest) = .ok rest := by
  rw [dropMark, next_cons visible]
  exact if_pos rfl

/-- A rest of a text that ends the value before it. -/
def Ended (rest : List Char) : Prop := ∀ c ∈ rest.head?, c = ',' ∨ c = ']' ∨ c = '}'

theorem ended_nil : Ended [] := by
  intro c found
  cases found

/-- A text that shows from its first character that it is a value, and not null. -/
def Opens (text : List Char) : Prop :=
  ∃ c tail, text = c :: tail ∧ isSpace c = false ∧ c ≠ ']' ∧ c ≠ 'n'

/-- A reader that finds a value in a text, and leaves what follows it. -/
structure Reads (read : Reader α) (text : List Char) (a : α) : Prop where
  opens : Opens text
  takes : ∀ rest, Ended rest → read (text ++ rest) = .ok (a, rest)

theorem Reads.whole {read : Reader α} {text : List Char} {a : α} (reads : Reads read text a) :
    Reader.whole read (String.ofList text) = .ok a := by
  have taken := reads.takes [] ended_nil
  rw [List.append_nil] at taken
  rw [Reader.whole, String.toList_ofList, taken]
  rfl

/-! ### Strings -/

def shortEscapes : List (Char × Char) :=
  [('"', '"'), ('\\', '\\'), ('\x08', 'b'), ('\x0c', 'f'), ('\n', 'n'), ('\r', 'r'), ('\t', 't')]

theorem shortEscapes_spec : ∀ pair ∈ shortEscapes,
    escape pair.1 = ['\\', pair.2] ∧ escapedChar pair.2 = some pair.1 := by
  decide

def pieceOf (c : Char) : Piece :=
  if c.toNat < 0x20 ∧ c ∉ shortEscapes.map Prod.fst then .unit c.toNat else .char c

theorem codeUnit_hexDigits : ∀ n < 32,
    codeUnit '0' '0' (Text.hexDigit (n / 16)) (Text.hexDigit (n % 16)) = some n := by
  decide

theorem pieces_letter {c e : Char} (known : escapedChar c = some e) (text : List Char) :
    pieces ('\\' :: c :: text) = (.char e :: (pieces text).1, (pieces text).2) := by
  have notUnit : c ≠ 'u' := by
    rintro rfl
    cases known
  rw [pieces.eq_def]
  simp [notUnit, known]

theorem pieces_plain {c : Char} (notQuote : c ≠ '"') (notSlash : c ≠ '\\')
    (visible : ¬c.toNat < 0x20) (text : List Char) :
    pieces (c :: text) = (.char c :: (pieces text).1, (pieces text).2) := by
  rw [pieces.eq_def]
  simp [notQuote, notSlash, visible]

theorem pieces_escape (c : Char) (text : List Char) :
    pieces (escape c ++ text) = (pieceOf c :: (pieces text).1, (pieces text).2) := by
  by_cases short : c ∈ shortEscapes.map Prod.fst
  · obtain ⟨⟨_, letter⟩, member, rfl⟩ := List.mem_map.mp short
    obtain ⟨written, known⟩ := shortEscapes_spec _ member
    rw [written, pieceOf, if_neg fun control => control.2 short]
    exact pieces_letter known text
  · have others : c ≠ '"' ∧ c ≠ '\\' ∧ c ≠ '\x08' ∧ c ≠ '\x0c' ∧ c ≠ '\n' ∧ c ≠ '\r' ∧
        c ≠ '\t' := by
      simpa [shortEscapes] using short
    have written : escape c = if c.toNat < 0x20 then
        ['\\', 'u', '0', '0', Text.hexDigit (c.toNat / 16), Text.hexDigit (c.toNat % 16)]
      else [c] := by
      simp only [escape, others, if_false]
    rw [written]
    split
    · next control =>
      have piece : pieceOf c = .unit c.toNat := if_pos ⟨control, short⟩
      simp [pieces, piece, codeUnit_hexDigits c.toNat control]
    · next visible =>
      have piece : pieceOf c = .char c := if_neg fun control => visible control.1
      rw [piece]
      exact pieces_plain others.1 others.2.1 visible text

theorem pieces_quoted (s rest : List Char) :
    pieces (s.flatMap escape ++ '"' :: rest) = (s.map pieceOf, .ok rest) := by
  induction s with
  | nil => simp [pieces]
  | cons c s ih => rw [List.flatMap_cons, List.append_assoc, pieces_escape, ih, List.map_cons]

theorem unitsToChars_unit {u : Nat} (small : u < 0x20) (found : List Piece) :
    unitsToChars (.unit u :: found) = some (Char.ofNat u) :: unitsToChars found := by
  have alone : ¬(isLead u = true ∨ isTrail u = true) := by
    simp only [isLead, isTrail, Bool.and_eq_true, decide_eq_true_eq]
    omega
  obtain ⟨notLead, notTrail⟩ := not_or.mp alone
  cases found with
  | nil => simp [unitsToChars, notLead, notTrail]
  | cons piece found => cases piece <;> simp [unitsToChars, notLead, notTrail]

theorem unitsToChars_pieceOf (s : List Char) : unitsToChars (s.map pieceOf) = s.map some := by
  induction s with
  | nil => rfl
  | cons c s ih =>
    rw [List.map_cons, List.map_cons, pieceOf]
    split
    · next control => rw [unitsToChars_unit control.1, Char.ofNat_toNat, ih]
    · rw [unitsToChars, ih]

theorem stringBody_quoted (s : String) (rest : List Char) :
    stringBody (s.toList.flatMap escape ++ '"' :: rest) = .ok (s, rest) := by
  simp only [stringBody, pieces_quoted, unitsToChars_pieceOf]
  have whole : ((s.toList.map some).all Option.isSome) = true := by simp
  rw [if_pos whole, List.filterMap_map]
  simp [String.ofList_toList]

theorem reads_string (s : String) : Reads Reader.string (quoted s) s where
  opens := ⟨'"', _, rfl, by decide, by decide, by decide⟩
  takes rest _ := by
    rw [Reader.string, quoted, List.cons_append, next_cons (by decide), List.append_assoc]
    exact stringBody_quoted s rest

/-! ### Numbers -/

theorem Ended.not_digit {rest : List Char} (ended : Ended rest) :
    rest.takeWhile Char.isDigit = [] ∧ rest.dropWhile Char.isDigit = rest := by
  cases rest with
  | nil => exact ⟨rfl, rfl⟩
  | cons c rest =>
    have other : c.isDigit = false := by
      rcases ended c rfl with rfl | rfl | rfl <;> decide
    have stops : ¬c.isDigit = true := by simp [other]
    exact ⟨List.takeWhile_cons_of_neg stops, List.dropWhile_cons_of_neg stops⟩

theorem takeDigits_append {digits rest : List Char} (all : ∀ c ∈ digits, c.isDigit = true)
    (ended : Ended rest) : takeDigits (digits ++ rest) = (digits.map digitValue, rest) := by
  obtain ⟨none, stays⟩ := ended.not_digit
  rw [takeDigits, List.takeWhile_append_of_pos all, List.dropWhile_append_of_pos all, none, stays,
    List.append_nil]

theorem toDigits_isDigit {n : Nat} : ∀ c ∈ Nat.toDigits 10 n, c.isDigit = true := fun _ =>
  Nat.isDigit_of_mem_toDigits (by decide) (by decide)

/-- Only zero is written with a zero in front. -/
theorem head?_toDigits {n : Nat} (positive : 0 < n) : (Nat.toDigits 10 n).head? ≠ some '0' := by
  induction n using Nat.strongRecOn with
  | ind n ih =>
    by_cases small : n < 10
    · have first : ∀ d < 10, 0 < d → (Nat.toDigits 10 d).head? ≠ some '0' := by decide
      exact first n small positive
    · have split := Nat.toDigits_of_base_le (by decide : 1 < 10) (Nat.le_of_not_lt small)
      have front := ih (n / 10) (by omega) (by omega)
      obtain ⟨digit, others, filled⟩ :=
        List.exists_cons_of_ne_nil (@Nat.toDigits_ne_nil (n / 10) 10)
      rw [filled] at split front
      rw [split]
      exact front

theorem wholePart_toDigits (n : Nat) {rest : List Char} (ended : Ended rest) (atEnd : Fault) :
    wholePart atEnd (Nat.toDigits 10 n ++ rest) =
      .ok ((Nat.toDigits 10 n).map digitValue, rest) := by
  by_cases zero : n = 0
  · subst zero
    show wholePart atEnd ('0' :: rest) = .ok ([0], rest)
    cases rest with
    | nil => rfl
    | cons c rest =>
      have other : c.isDigit = false := by
        rcases ended c rfl with rfl | rfl | rfl <;> decide
      simp [wholePart, other]
  · obtain ⟨digit, others, filled⟩ := List.exists_cons_of_ne_nil (@Nat.toDigits_ne_nil n 10)
    have notZero := head?_toDigits (Nat.pos_of_ne_zero zero)
    have taken := takeDigits_append (@toDigits_isDigit n) ended
    rw [filled] at notZero taken ⊢
    rw [List.cons_append] at taken ⊢
    have scanned : wholePart atEnd (digit :: (others ++ rest)) =
        someDigits atEnd (digit :: (others ++ rest)) := by
      unfold wholePart
      split
      · next same => exact absurd (congrArg List.head? same) notZero
      · rfl
    rw [scanned, someDigits, taken]
    rfl

theorem numeral_toDigits (n : Nat) {rest : List Char} (ended : Ended rest) (atEnd : Fault) :
    numeral atEnd (Nat.toDigits 10 n ++ rest) =
      .ok (⟨(Nat.toDigits 10 n).map digitValue, none, none⟩, rest) := by
  have fraction : fractionPart atEnd rest = .ok (none, rest) := by
    unfold fractionPart
    split
    · rcases ended '.' rfl with same | same | same <;> cases same
    · rfl
  have exponent : exponentPart atEnd rest = .ok (none, rest) := by
    unfold exponentPart
    dsimp only
    split
    · next c rest =>
      have none : ¬(c = 'e' ∨ c = 'E') := by
        rcases ended c rfl with rfl | rfl | rfl <;> decide
      exact if_neg none
    · rfl
  simp only [numeral, wholePart_toDigits n ended atEnd, ok_bind, fraction, exponent]
  rfl

theorem le_foldl_digits (digits : List Nat) (n : Nat) :
    n ≤ digits.foldl (fun n digit => 10 * n + digit) n := by
  induction digits generalizing n with
  | nil => exact Nat.le_refl n
  | cons digit digits ih =>
    have step := ih (10 * n + digit)
    rw [List.foldl_cons]
    omega

theorem absorb_eq {digits : List Nat} {n : Nat}
    (fits : digits.foldl (fun n digit => 10 * n + digit) n ≤ greatestSignificand) :
    absorb n digits = (digits.foldl (fun n digit => 10 * n + digit) n, 0) := by
  induction digits generalizing n with
  | nil => rfl
  | cons digit digits ih =>
    have grows := le_foldl_digits digits (10 * n + digit)
    rw [List.foldl_cons] at fits ⊢
    rw [absorb, if_pos (Nat.le_trans grows fits), ih fits]

theorem foldl_toDigits (n : Nat) :
    ((Nat.toDigits 10 n).map digitValue).foldl (fun n digit => 10 * n + digit) 0 = n := by
  rw [List.foldl_map]
  exact Nat.ofDigitChars_ten_toDigits

theorem numberBody_toDigits {n : Nat} (fits : n ≤ greatestSignificand) {rest : List Char}
    (ended : Ended rest) :
    numberBody false (Nat.toDigits 10 n ++ rest) = .ok (.integer n, rest) := by
  have absorbed := @absorb_eq ((Nat.toDigits 10 n).map digitValue) 0
  rw [foldl_toDigits] at absorbed
  simp only [numberBody, numeral_toDigits n ended, ok_bind, Numeral.value, absorbed fits]
  rfl

/-- The first digit of a number shows what it is. -/
theorem exists_digit (n : Nat) : ∃ digit others, Nat.toDigits 10 n = digit :: others ∧
    digit.isDigit = true ∧ isSpace digit = false ∧ digit ≠ ']' ∧ digit ≠ 'n' := by
  obtain ⟨digit, others, filled⟩ := List.exists_cons_of_ne_nil (@Nat.toDigits_ne_nil n 10)
  have isDigit : digit.isDigit = true :=
    toDigits_isDigit digit (by rw [filled]; exact List.mem_cons_self)
  refine ⟨digit, others, filled, isDigit, Bool.eq_false_iff.mpr fun blank => ?_, ?_, ?_⟩
  · simp only [isSpace, Bool.or_eq_true, decide_eq_true_eq] at blank
    rcases blank with ((rfl | rfl) | rfl) | rfl <;> cases isDigit
  · rintro rfl
    cases isDigit
  · rintro rfl
    cases isDigit

theorem reads_word (n : UInt32) : Reads Reader.word32 (Nat.toDigits 10 n.toNat) n := by
  obtain ⟨digit, others, filled, isDigit, visible, notEnd, notNull⟩ := exists_digit n.toNat
  refine ⟨⟨digit, others, filled, visible, notEnd, notNull⟩, fun rest ended => ?_⟩
  have unsigned : digit ≠ '-' := by
    rintro rfl
    cases isDigit
  have bounded := n.toNat_lt
  have number := @numberBody_toDigits n.toNat (by rw [greatestSignificand]; omega) rest ended
  have inRange : (0 : Int) ≤ n.toNat ∧ (n.toNat : Int).toNat < UInt32.size := by
    rw [UInt32.size]
    omega
  have back : UInt32.ofNat ((n.toNat : Int).toNat) = n := by
    rw [Int.toNat_natCast, UInt32.ofNat_toNat]
  rw [filled, List.cons_append] at number
  rw [filled, List.cons_append, Reader.word32, next_cons visible, ok_bind]
  dsimp only
  rw [if_pos (.inr isDigit), if_neg unsigned, number, ok_bind]
  dsimp only
  rw [if_pos inRange, back]
  rfl

end PolicyMend.Json
