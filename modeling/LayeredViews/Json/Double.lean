/-!
# Doubles — binary numbers of 53 bits, rounded to nearest

A `Double` is an exact dyadic number in the form its format stores: a mantissa below `2 ^ 53` and an
exponent between `-1074` and `971`.  All arithmetic is exact on naturals and rounds once, to the
nearest double and to the even one of two.  `none` stands for a value past the greatest double.
-/

namespace LayeredViews.Json

/-- A finite double: `± mantissa * 2 ^ exponent`. -/
structure Double where
  negative : Bool
  mantissa : Nat
  exponent : Int
deriving DecidableEq, Repr

/-- A power of two. -/
def twoTo (n : Nat) : Nat := Nat.pow 2 n

/-- A quotient rounded to the nearest natural number, and to the even one of two. -/
def roundDiv (num den : Nat) : Nat :=
  let q := num / den
  let r := num % den
  if 2 * r < den then q
  else if den < 2 * r then q + 1
  else if q % 2 = 0 then q
  else q + 1

/-- `num / den` divided by `2 ^ e`, as a quotient again. -/
def shiftRatio (num den : Nat) (e : Int) : Nat × Nat :=
  if 0 ≤ e then (num, den * twoTo e.toNat) else (num * twoTo (-e).toNat, den)

namespace Double

/-- Bits of a full mantissa less one. -/
def mantissaBits : Nat := 52

def leastExponent : Int := -1074

def greatestExponent : Int := 971

def zero : Double := ⟨false, 0, leastExponent⟩

def isZero (d : Double) : Bool := d.mantissa == 0

def negate (d : Double) : Double := { d with negative := !d.negative }

/-- The exponent at which `num / den` has a full mantissa, or the least exponent if that is
greater. -/
def exponentFor (num den : Nat) : Int :=
  let guess : Int := (Nat.log2 num : Int) - (Nat.log2 den : Int) - mantissaBits
  let full := let r := shiftRatio num den guess; decide (twoTo mantissaBits ≤ r.1 / r.2)
  max (if full then guess else guess - 1) leastExponent

/-- The double nearest to `num / den`. -/
def ofRatio? (num den : Nat) : Option Double :=
  if num = 0 then some zero
  else
    let e := exponentFor num den
    let r := shiftRatio num den e
    let m := roundDiv r.1 r.2
    let m' := if m = twoTo (mantissaBits + 1) then twoTo mantissaBits else m
    let e' := if m = twoTo (mantissaBits + 1) then e + 1 else e
    if greatestExponent < e' then none else some ⟨false, m', e'⟩

/-- The size of a double as a quotient. -/
def toRatio (d : Double) : Nat × Nat :=
  if 0 ≤ d.exponent then (d.mantissa * twoTo d.exponent.toNat, 1)
  else (d.mantissa, twoTo (-d.exponent).toNat)

/-- The double nearest to the product of two sizes. -/
def mul? (a b : Double) : Option Double :=
  ofRatio? (a.toRatio.1 * b.toRatio.1) (a.toRatio.2 * b.toRatio.2)

/-- The double nearest to the quotient of two sizes. -/
def div? (a b : Double) : Option Double :=
  ofRatio? (a.toRatio.1 * b.toRatio.2) (a.toRatio.2 * b.toRatio.1)

end Double

end LayeredViews.Json
