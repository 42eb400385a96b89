/-!
Finite binary64 numbers as exact integers: a magnitude is `mantissa * 2 ^ exponent`, and every
operation rounds the exact result to the nearest magnitude, ties to the even mantissa. A decimal
is read by scaling its significand with the nearest magnitude to a power of ten, so the result can
differ from the nearest magnitude to the decimal itself in the last place.
-/

namespace PolicyMend.Json

/-- A finite magnitude. The mantissa has 53 bits unless the exponent is the least one. -/
structure Magnitude where
  mantissa : Nat
  exponent : Int
  deriving DecidableEq, Inhabited

/-- A finite binary64 number; zero has a sign too. -/
structure Binary64 where
  negative : Bool
  magnitude : Magnitude
  deriving DecidableEq, Inhabited

namespace Magnitude

def leastExponent : Int := -1074

def greatestExponent : Int := 971

def leastNormal : Nat := 1 <<< 52

def zero : Magnitude := ⟨0, leastExponent⟩

/-- A quotient rounded to the nearest integer, a tie to the even one. -/
def roundQuotient (num den : Nat) : Nat :=
  let q := num / den
  let r := num % den
  if 2 * r < den then q
  else if den < 2 * r then q + 1
  else if q % 2 = 0 then q else q + 1

/-- `num / den * 2 ^ shift` as a quotient of integers. -/
def scaled (num den : Nat) (shift : Int) : Nat × Nat :=
  if 0 ≤ shift then (num <<< shift.toNat, den) else (num, den <<< (-shift).toNat)

/-- The exponent of the leading bit of a positive quotient. -/
def leadingBit (num den : Nat) : Int :=
  let guess : Int := num.log2 - den.log2
  let (n, d) := scaled num den (-guess)
  if n < d then guess - 1 else guess

/-- The magnitude nearest to a quotient, unless it is too large to be finite. -/
def ofQuotient (num den : Nat) : Option Magnitude :=
  if num = 0 then some zero
  else
    let exponent := max leastExponent (leadingBit num den - 52)
    let (n, d) := scaled num den (-exponent)
    let mantissa := roundQuotient n d
    let rounded : Magnitude :=
      if mantissa = 2 * leastNormal then ⟨leastNormal, exponent + 1⟩ else ⟨mantissa, exponent⟩
    if rounded.exponent ≤ greatestExponent then some rounded else none

def mul (a b : Magnitude) : Option Magnitude :=
  let (n, d) := scaled (a.mantissa * b.mantissa) 1 (a.exponent + b.exponent)
  ofQuotient n d

def div (a b : Magnitude) : Option Magnitude :=
  let (n, d) := scaled a.mantissa b.mantissa (a.exponent - b.exponent)
  ofQuotient n d

/-- The magnitude nearest to a power of ten; powers beyond the greatest one are not asked for. -/
def powerOfTen (n : Nat) : Magnitude :=
  (ofQuotient (Nat.pow 10 n) 1).getD zero

def greatestPower : Nat := 308

/-- Divides by a power of ten, in steps that each stay within the finite powers. -/
def scaleDown (m : Magnitude) (power : Nat) : Magnitude :=
  if power ≤ greatestPower then (m.div (powerOfTen power)).getD zero
  else if m.mantissa = 0 then m
  else scaleDown ((m.div (powerOfTen greatestPower)).getD zero) (power - greatestPower)
termination_by power
decreasing_by simp only [greatestPower] at *; omega

/-- The magnitude of `significand * 10 ^ exponent`, unless it is too large to be finite. -/
def ofDecimal (significand : Nat) (exponent : Int) : Option Magnitude := do
  let m ← ofQuotient significand 1
  if exponent < 0 then
    return m.scaleDown (-exponent).toNat
  else if exponent ≤ greatestPower then
    m.mul (powerOfTen exponent.toNat)
  else if significand = 0 then
    return m
  else
    none

end Magnitude

end PolicyMend.Json
