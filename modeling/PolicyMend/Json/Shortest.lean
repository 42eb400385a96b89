import PolicyMend.Json.Binary64

/-!
The shortest decimal text of a binary64 number: the fewest digits that read back as the number,
and among those the nearest. Numbers from `10 ^ -5` up to `10 ^ 16` are written with a point, all
others with an exponent and its sign.
-/

namespace PolicyMend.Json

/-- A positive decimal: digits with a point after the first one, times a power of ten. -/
structure Decimal where
  digits : List Char
  exponent : Int
  deriving DecidableEq

namespace Magnitude

/-- The numerator and denominator of `2 ^ two * 10 ^ ten`. -/
def factor (two ten : Int) : Nat × Nat :=
  (Nat.pow 10 ten.toNat <<< two.toNat, Nat.pow 10 (-ten).toNat <<< (-two).toNat)

/-- The first exponent from `start` downwards whose power of ten is at most `num / den`. -/
def leadingDigit (num den : Nat) : Nat → Int → Int
  | 0, start => start
  | fuel + 1, start =>
    let (n, d) := factor 0 start
    if n * den ≤ num * d then start else leadingDigit num den fuel (start - 1)

def decimalExponent (m : Magnitude) : Int :=
  let (n, d) := factor m.exponent 0
  leadingDigit (m.mantissa * n) d 640 308

/-- The lower half of the gap around a magnitude, in quarters of its unit: the gap below a power of
two is half as wide. -/
def lowerGap (m : Magnitude) : Nat :=
  if m.mantissa = leastNormal ∧ leastExponent < m.exponent then 1 else 2

/-- The nearest number of `count` digits that reads back as the magnitude, if there is one. -/
def digitsOf? (m : Magnitude) (leading : Int) (count : Nat) : Option Nat :=
  let (n, d) := factor (m.exponent - 2) (-(leading - count + 1))
  let exact := 4 * m.mantissa * n
  let low := (4 * m.mantissa - m.lowerGap) * n
  let high := (4 * m.mantissa + 2) * n
  let closed := m.mantissa % 2 = 0
  let below := exact / d
  let above := below + 1
  let belowFits := if closed then low ≤ below * d else low < below * d
  let aboveFits := if closed then above * d ≤ high else above * d < high
  let belowNearer := 2 * exact < (below + above) * d ∨
    (2 * exact = (below + above) * d ∧ below % 2 = 0)
  if belowFits ∧ (belowNearer ∨ ¬aboveFits) then some below
  else if aboveFits then some above
  else none

def firstFit (m : Magnitude) (leading : Int) : List Nat → Nat × Nat
  | [] => (0, 1)
  | count :: counts =>
    match m.digitsOf? leading count with
    | some digits => (digits, count)
    | none => firstFit m leading counts

def shortest (m : Magnitude) : Decimal :=
  let leading := m.decimalExponent
  let (digits, count) := m.firstFit leading (List.range' 1 17)
  let written := Nat.toDigits 10 digits
  let kept := (written.reverse.dropWhile (· = '0')).reverse
  ⟨kept, leading + (written.length - count : Int)⟩

end Magnitude

namespace Decimal

/-- The first exponent that is written without a point moved to the left of it. -/
def leastPositional : Int := -5

def greatestPositional : Int := 15

def exponentText (exponent : Int) : List Char :=
  'e' :: (if exponent < 0 then '-' else '+') :: Nat.toDigits 10 exponent.natAbs

/-- A decimal as text, always with a point or an exponent. -/
def text (d : Decimal) : List Char :=
  if d.exponent < leastPositional ∨ greatestPositional < d.exponent then
    match d.digits with
    | [] => []
    | first :: [] => first :: exponentText d.exponent
    | first :: rest => first :: '.' :: (rest ++ exponentText d.exponent)
  else if d.exponent < 0 then
    '0' :: '.' :: (List.replicate (-d.exponent - 1).toNat '0' ++ d.digits)
  else
    let whole := d.exponent.toNat + 1
    if d.digits.length ≤ whole then
      d.digits ++ List.replicate (whole - d.digits.length) '0' ++ ['.', '0']
    else
      d.digits.take whole ++ '.' :: d.digits.drop whole

end Decimal

def Binary64.text (x : Binary64) : List Char :=
  let body := if x.magnitude.mantissa = 0 then ['0', '.', '0'] else x.magnitude.shortest.text
  if x.negative then '-' :: body else body

end PolicyMend.Json
