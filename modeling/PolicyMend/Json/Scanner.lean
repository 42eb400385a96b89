import PolicyMend.Json.Value
import PolicyMend.Text.Characters
import PolicyMend.Text.Rows

/-!
The smallest parts of JSON text: blanks, literal words, numbers and strings. Each is scanned from
the front of a list of characters and returns what follows it. The first fault met decides how a
text is refused: it ends too early, it is malformed, or it is sound but of the wrong kind.

Numbers and strings are scanned once and then valued, because a part that is only skipped is held
to its form and not to its value.
-/

namespace PolicyMend.Json

inductive Fault where
  | truncated
  | malformed
  | mismatched
  deriving DecidableEq, Inhabited

/-- What is read from the front of a text, with the rest of it. -/
abbrev Reader (α : Type) := List Char → Except Fault (α × List Char)

def isSpace (c : Char) : Bool :=
  c = ' ' || c = '\n' || c = '\t' || c = '\r'

def dropSpace (text : List Char) : List Char :=
  text.dropWhile isSpace

def dropWord : List Char → List Char → Except Fault (List Char)
  | [], text => .ok text
  | _ :: _, [] => .error .truncated
  | expected :: word, c :: text => if c = expected then dropWord word text else .error .malformed

/-! ### Numbers -/

structure Numeral where
  whole : List Nat
  fraction : Option (List Nat)
  exponent : Option Int

def digitValue (c : Char) : Nat := c.toNat - 48

def takeDigits (text : List Char) : List Nat × List Char :=
  ((text.takeWhile Char.isDigit).map digitValue, text.dropWhile Char.isDigit)

def digitsValue (digits : List Nat) : Nat :=
  digits.foldl (fun n digit => 10 * n + digit) 0

/-- Scans a run of at least one digit; `atEnd` is the fault of a text that stops before it. -/
def someDigits (atEnd : Fault) (text : List Char) : Except Fault (List Nat × List Char) :=
  match takeDigits text with
  | ([], []) => .error atEnd
  | ([], _ :: _) => .error .malformed
  | found => .ok found

/-- Scans the digits before the point: a leading zero stands alone. -/
def wholePart (atEnd : Fault) (text : List Char) : Except Fault (List Nat × List Char) :=
  match text with
  | '0' :: rest =>
    match rest with
    | c :: _ => if c.isDigit then .error .malformed else .ok ([0], rest)
    | [] => .ok ([0], rest)
  | _ => someDigits atEnd text

def fractionPart (atEnd : Fault) (text : List Char) :
    Except Fault (Option (List Nat) × List Char) :=
  match text with
  | '.' :: rest => (someDigits atEnd rest).map fun (digits, rest) => (some digits, rest)
  | _ => .ok (none, text)

def exponentPart (atEnd : Fault) (text : List Char) : Except Fault (Option Int × List Char) :=
  let signed (sign : Int) (rest : List Char) :=
    (someDigits atEnd rest).map fun (digits, rest) => (some (sign * digitsValue digits), rest)
  match text with
  | c :: rest =>
    if c = 'e' ∨ c = 'E' then
      match rest with
      | '+' :: rest => signed 1 rest
      | '-' :: rest => signed (-1) rest
      | _ => signed 1 rest
    else .ok (none, text)
  | [] => .ok (none, text)

def numeral (atEnd : Fault) : Reader Numeral := fun text => do
  let (whole, text) ← wholePart atEnd text
  let (fraction, text) ← fractionPart atEnd text
  let (exponent, text) ← exponentPart atEnd text
  return (⟨whole, fraction, exponent⟩, text)

/-- The greatest significand that is kept exactly, the greatest number of 64 bits. -/
def greatestSignificand : Nat := 18446744073709551615

def greatestNegative : Nat := 9223372036854775808

/-- Appends digits to a significand as long as it stays exact, and counts the digits left out. -/
def absorb : Nat → List Nat → Nat × Nat
  | significand, [] => (significand, 0)
  | significand, digit :: digits =>
    if 10 * significand + digit ≤ greatestSignificand then
      absorb (10 * significand + digit) digits
    else (significand, digits.length + 1)

def floatOf (negative : Bool) (significand : Nat) (exponent : Int) : Except Fault Number :=
  match Magnitude.ofDecimal significand exponent with
  | some magnitude => .ok (.float ⟨negative, magnitude⟩)
  | none => .error .malformed

/-- The value of a number. Integers of 64 bits are exact; all other numbers, minus zero among them,
are binary64 numbers. -/
def Numeral.value (negative : Bool) (n : Numeral) : Except Fault Number :=
  let (whole, left) := absorb 0 n.whole
  match n.fraction, n.exponent with
  | none, none =>
    if left ≠ 0 then floatOf negative whole left
    else if ¬negative then .ok (.integer whole)
    else if whole = 0 ∨ greatestNegative < whole then floatOf true whole 0
    else .ok (.integer (-whole))
  | fraction, exponent =>
    let digits := fraction.getD []
    let (significand, leftOut) := absorb whole digits
    let shift : Int := left - (digits.length - leftOut : Int)
    floatOf negative significand (shift + exponent.getD 0)

def numberBody (negative : Bool) : Reader Number := fun text => do
  let (n, text) ← numeral .truncated text
  let value ← n.value negative
  return (value, text)

/-! ### Strings -/

/-- A part of a string: a character, or a code unit given in hexadecimal. -/
inductive Piece where
  | char (c : Char)
  | unit (u : Nat)

def escapedChar (c : Char) : Option Char :=
  if c = '"' then some '"'
  else if c = '\\' then some '\\'
  else if c = '/' then some '/'
  else if c = 'b' then some '\x08'
  else if c = 'f' then some '\x0c'
  else if c = 'n' then some '\n'
  else if c = 'r' then some '\r'
  else if c = 't' then some '\t'
  else none

def codeUnit (a b c d : Char) : Option Nat := do
  return 4096 * (← Text.hexValue a) + 256 * (← Text.hexValue b) + 16 * (← Text.hexValue c) +
    (← Text.hexValue d)

/-- Scans a string after its opening quote: the pieces before the first fault or the closing
quote, and how the scan ended. -/
def pieces : List Char → List Piece × Except Fault (List Char)
  | [] => ([], .error .truncated)
  | '\\' :: 'u' :: a :: b :: c :: d :: rest =>
    match codeUnit a b c d with
    | some u => let (found, finish) := pieces rest; (.unit u :: found, finish)
    | none => ([], .error .malformed)
  | '\\' :: 'u' :: rest =>
    -- Four bytes that are not four digits are an escape that is wrong, not one that is cut off.
    ([], .error (if Text.byteLength rest < 4 then .truncated else .malformed))
  | '\\' :: c :: rest =>
    match escapedChar c with
    | some e => let (found, finish) := pieces rest; (.char e :: found, finish)
    | none => ([], .error .malformed)
  | ['\\'] => ([], .error .truncated)
  | c :: rest =>
    if c = '"' then ([], .ok rest)
    else if c.toNat < 0x20 then ([], .error .malformed)
    else let (found, finish) := pieces rest; (.char c :: found, finish)

def isLead (u : Nat) : Bool := 0xD800 ≤ u && u ≤ 0xDBFF

def isTrail (u : Nat) : Bool := 0xDC00 ≤ u && u ≤ 0xDFFF

/-- The characters of some pieces, or `none` in the place of a surrogate without its partner. -/
def unitsToChars : List Piece → List (Option Char)
  | [] => []
  | .char c :: rest => some c :: unitsToChars rest
  | .unit u :: .unit v :: rest =>
    if isLead u ∧ isTrail v then
      some (Char.ofNat (0x10000 + 0x400 * (u - 0xD800) + (v - 0xDC00))) :: unitsToChars rest
    else if isLead u ∨ isTrail u then none :: unitsToChars (.unit v :: rest)
    else some (Char.ofNat u) :: unitsToChars (.unit v :: rest)
  | .unit u :: rest =>
    if isLead u ∨ isTrail u then none :: unitsToChars rest
    else some (Char.ofNat u) :: unitsToChars rest

/-- Whether the last piece may still wait for its partner. -/
def endsInLead (found : List Piece) : Bool :=
  match found.getLast? with
  | some (.unit u) => isLead u
  | _ => false

/-- Reads a string after its opening quote. A surrogate without its partner is malformed, and it is
met before whatever ends the scan, unless the text stops where the partner would stand. -/
def stringBody : Reader String := fun text =>
  let (found, finish) := pieces text
  let chars := unitsToChars found
  match finish with
  | .ok rest =>
    if chars.all Option.isSome then .ok (String.ofList (chars.filterMap id), rest)
    else .error .malformed
  | .error fault =>
    let settled := if endsInLead found then chars.dropLast else chars
    if settled.all Option.isSome then .error fault else .error .malformed

def skipString (text : List Char) : Except Fault (List Char) :=
  (pieces text).2

end PolicyMend.Json
