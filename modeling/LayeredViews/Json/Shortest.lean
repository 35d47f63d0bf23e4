import LayeredViews.Json.Double

/-!
# Shortest decimals — the fewest digits that read back as the same double

For one digit, two digits and so on up to seventeen, the two neighbours of the value with that many
digits are tried; the first count at which one of them rounds to the value wins, and of two hits the
nearer one, or the even one of two.
-/

namespace LayeredViews.Json

/-- A decimal number `digits * 10 ^ exponent`. -/
structure Decimal where
  digits : Nat
  exponent : Int
deriving DecidableEq, Repr

/-- A power of ten. -/
def tenTo (n : Nat) : Nat := Nat.pow 10 n

namespace Decimal

/-- Compares `10 ^ p` with `d`: strictly greater. -/
def exceeds (p : Int) (d : Double) : Bool :=
  decide (d.mantissa * twoTo d.exponent.toNat * tenTo (-p).toNat <
    tenTo p.toNat * twoTo (-d.exponent).toNat)

/-- The exponent `x` with `10 ^ x ≤ d < 10 ^ (x + 1)`, for a size other than zero. -/
def leadingExponent (d : Double) : Int :=
  let guess := Int.fdiv (((Nat.log2 d.mantissa : Int) + d.exponent) * 30103) 100000
  if !exceeds (guess + 1) d then guess + 1
  else if !exceeds guess d then guess
  else guess - 1

/-- What one step of the mantissa of `d` is in units of `10 ^ p`, as a quotient. -/
def stepInUnits (d : Double) (p : Int) : Nat × Nat :=
  (twoTo d.exponent.toNat * tenTo (-p).toNat, twoTo (-d.exponent).toNat * tenTo p.toNat)

/-- Whether `digits` units round to the size of `d`, where a step is `num / den` units.  The ends of
the interval count if the mantissa is even, and below a power of two it is half as wide. -/
def readsBack (d : Double) (num den digits : Nat) : Bool :=
  let narrow := d.mantissa == twoTo Double.mantissaBits && Double.leastExponent < d.exponent
  let low := (4 * d.mantissa - (if narrow then 1 else 2)) * num
  let high := (4 * d.mantissa + 2) * num
  let x := 4 * digits * den
  if d.mantissa % 2 == 0 then decide (low ≤ x ∧ x ≤ high) else decide (low < x ∧ x < high)

/-- The best number of units that reads back as `d`, if one of the two neighbours of the value
does; a step is `num / den` units. -/
def digitsAt? (d : Double) (num den : Nat) : Option Nat :=
  let lo := d.mantissa * num / den
  let rest := d.mantissa * num % den
  let nearer := if 2 * rest < den ∨ (2 * rest = den ∧ lo % 2 = 0) then lo else lo + 1
  let farther := if nearer = lo then lo + 1 else lo
  if nearer ≠ 0 && readsBack d num den nearer then some nearer
  else if farther ≠ 0 && readsBack d num den farther then some farther
  else none

/-- Tries finer and finer units, `count` of them, of which the first is `10 ^ p`; a step of the
mantissa is `num / den` of that. -/
def search (d : Double) (p : Int) (num den : Nat) : Nat → Decimal
  | 0 => ⟨d.mantissa * num / den, p⟩
  | count + 1 =>
    match digitsAt? d num den with
    | some digits => ⟨digits, p⟩
    | none => search d (p - 1) (num * 10) den count

/-- The shortest decimal that reads back as the size of `d`. -/
def shortest (d : Double) : Decimal :=
  if d.mantissa = 0 then ⟨0, 0⟩
  else
    let p := leadingExponent d
    let step := stepInUnits d p
    search d p step.1 step.2 17

end Decimal

end LayeredViews.Json
