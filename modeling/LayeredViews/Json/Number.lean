import LayeredViews.Json.Shortest
import LayeredViews.Text.Decimal

/-!
# Numbers — integers kept exact, everything else a double

A numeral without fraction and exponent that fits 64 bits is an integer; `-0` and every other
numeral is a double.  The digits of a double are gathered into a significand of 64 bits, which is
rounded and then scaled by one power of ten, so that a numeral of many digits may differ from the
nearest double in its last place.
-/

namespace LayeredViews.Json

inductive Number where
  | int (value : Int)
  | float (value : Double)
deriving DecidableEq, Repr

/-- The parts of a numeral as written. -/
structure Numeral where
  negative : Bool
  whole : List Nat
  fraction : List Nat
  /-- Written without fraction and exponent. -/
  plain : Bool
  exponent : Int
deriving DecidableEq, Repr

namespace Numeral

/-! ### Reading -/

/-- The digits at the front of a text, and the rest. -/
def digits : List Char → List Nat × List Char
  | [] => ([], [])
  | c :: cs =>
    match Text.digit? c with
    | none => ([], c :: cs)
    | some d => (d :: (digits cs).1, (digits cs).2)

/-- The value of a list of digits. -/
def valueOf (ds : List Nat) : Nat :=
  ds.foldl (fun n d => n * 10 + d) 0

/-- The whole part: a lone zero, or digits that do not start with one. -/
def wellFormedWhole : List Nat → Bool
  | [] => false
  | [_] => true
  | d :: _ :: _ => d != 0

/-- An exponent after its letter: an optional sign and at least one digit, up to the end. -/
def exponent? (cs : List Char) : Option Int :=
  let signed := match cs with
    | '-' :: rest => (true, rest)
    | '+' :: rest => (false, rest)
    | _ => (false, cs)
  match digits signed.2 with
  | (d :: ds, []) => some (if signed.1 then -(valueOf (d :: ds) : Int) else valueOf (d :: ds))
  | _ => none

/-- What may follow the whole part and the fraction. -/
def tail? (cs : List Char) : Option (Option Int) :=
  match cs with
  | [] => some none
  | c :: rest => if c = 'e' ∨ c = 'E' then (exponent? rest).map some else none

/-- Reads a whole text as a numeral. -/
def ofChars? (cs : List Char) : Option Numeral :=
  let signed := match cs with
    | '-' :: rest => (true, rest)
    | _ => (false, cs)
  let whole := digits signed.2
  if !wellFormedWhole whole.1 then none
  else
    match whole.2 with
    | '.' :: rest =>
      match digits rest with
      | ([], _) => none
      | (fraction, more) =>
        (tail? more).map fun e => ⟨signed.1, whole.1, fraction, false, e.getD 0⟩
    | more => (tail? more).map fun e => ⟨signed.1, whole.1, [], e.isNone, e.getD 0⟩

/-! ### Value -/

/-- A significand with the power of ten it stands at. -/
structure Scaled where
  significand : Nat
  exponent : Int

/-- Takes up whole digits while the significand fits; the others only raise the exponent. -/
def takeWhole (s : Scaled) : List Nat → Scaled
  | [] => s
  | d :: ds =>
    if Text.sizeMax < s.significand * 10 + d then
      { s with exponent := s.exponent + (ds.length + 1 : Nat) }
    else takeWhole { s with significand := s.significand * 10 + d } ds

/-- Takes up digits of the fraction while the significand fits; the others are dropped. -/
def takeFraction (s : Scaled) : List Nat → Scaled
  | [] => s
  | d :: ds =>
    if Text.sizeMax < s.significand * 10 + d then s
    else takeFraction ⟨s.significand * 10 + d, s.exponent - 1⟩ ds

/-- The greatest power of ten that a double is scaled by at once. -/
def greatestPower : Nat := 308

/-- A power of ten as a double. -/
def powerOfTen? (n : Nat) : Option Double :=
  Double.ofRatio? (tenTo n) 1

/-- Divides by a power of ten, at most `10 ^ 308` at a time; zero stays zero. -/
def scaleDown (d : Double) (n : Nat) : Nat → Option Double
  | 0 => some Double.zero
  | steps + 1 =>
    if n ≤ greatestPower then (powerOfTen? n).bind d.div?
    else if d.isZero then some d
    else
      match (powerOfTen? greatestPower).bind d.div? with
      | none => none
      | some d' => scaleDown d' (n - greatestPower) steps

/-- Scales by a power of ten; `none` is a value past the greatest double.  Four divisions by
`10 ^ 308` leave nothing of any significand. -/
def scale (d : Double) (e : Int) : Option Double :=
  if e < 0 then scaleDown d (-e).toNat 4
  else if e.toNat ≤ greatestPower then (powerOfTen? e.toNat).bind d.mul?
  else if d.isZero then some d
  else none

/-- The double a numeral stands for. -/
def toDouble? (n : Numeral) : Option Double :=
  let s := takeFraction (takeWhole ⟨0, 0⟩ n.whole) n.fraction
  match (Double.ofRatio? s.significand 1).bind fun d => scale d (s.exponent + n.exponent) with
  | none => none
  | some d => some (if n.negative then d.negate else d)

/-- The number a numeral stands for. -/
def toNumber? (n : Numeral) : Option Number :=
  let v := valueOf n.whole
  if n.plain && !n.negative && decide (v ≤ Text.sizeMax) then some (.int v)
  else if n.plain && n.negative && decide (0 < v ∧ v ≤ twoTo 63) then some (.int (-(v : Int)))
  else (toDouble? n).map Number.float

end Numeral

namespace Number

/-- Reads a whole text as a number. -/
def ofChars? (cs : List Char) : Option Number :=
  (Numeral.ofChars? cs).bind Numeral.toNumber?

def isZero : Number → Bool
  | .int i => i == 0
  | .float d => d.isZero

/-! ### Text -/

/-- The digits of a decimal without the zeros at their end. -/
def significantDigits (n : Nat) : List Char :=
  Text.trimEnd (· == '0') (Nat.toDigits 10 n)

/-- A decimal written out: digits `ds` of which the first stands at `10 ^ e`. -/
def plainText (ds : List Char) (e : Int) : List Char :=
  if e < 0 then '0' :: '.' :: List.replicate ((-e).toNat - 1) '0' ++ ds
  else
    let whole := ds.take (e.toNat + 1)
    let fraction := ds.drop (e.toNat + 1)
    whole ++ List.replicate (e.toNat + 1 - whole.length) '0' ++ '.' ::
      (if fraction.isEmpty then ['0'] else fraction)

/-- A decimal with an exponent, which always has a sign. -/
def scientificText (ds : List Char) (e : Int) : List Char :=
  ds.take 1 ++ (if (ds.drop 1).isEmpty then [] else '.' :: ds.drop 1) ++
    'e' :: (if e < 0 then '-' else '+') :: Nat.toDigits 10 e.natAbs

/-- A double in the fewest digits that read back: written out from `10 ^ -5` to below `10 ^ 16`,
and with an exponent beyond. -/
def doubleText (d : Double) : List Char :=
  let sign := if d.negative then ['-'] else []
  if d.isZero then sign ++ ['0', '.', '0']
  else
    let x := Decimal.shortest d
    let all := Nat.toDigits 10 x.digits
    let e := x.exponent + (all.length - 1 : Nat)
    let ds := significantDigits x.digits
    sign ++ (if -5 ≤ e ∧ e < 16 then plainText ds e else scientificText ds e)

def text : Number → String
  | .int i => if i < 0 then "-" ++ i.natAbs.repr else i.natAbs.repr
  | .float d => String.ofList (doubleText d)

end Number

end LayeredViews.Json
