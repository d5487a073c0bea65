import MatchLang.Number.Parts

/-! The fewest decimal digits that read back as a given double. For one digit, then two, and so on,
the two neighbours of the double on that decimal grid are tested against the interval of reals that
round to it. -/

namespace MatchLang

/-- The number `digits * 10 ^ exponent`. -/
structure Decimal where
  digits : Nat
  exponent : Int
  deriving DecidableEq, Repr

/-- The reals that round to one double, over a common denominator; the ends belong to it when the
mantissa is even. -/
structure RoundingInterval where
  low : Nat
  mid : Nat
  high : Nat
  den : Nat
  closed : Bool

/-- Below a power of two the doubles lie twice as dense as above it. -/
def roundingInterval (mantissa : Nat) (exponent : Int) : RoundingInterval :=
  let gap := if mantissa = Nat.pow 2 52 ∧ exponent ≠ -1074 then 1 else 2
  let up := Nat.pow 2 (exponent - 2).toNat
  { low := (4 * mantissa - gap) * up
    mid := 4 * mantissa * up
    high := (4 * mantissa + 2) * up
    den := Nat.pow 2 (2 - exponent).toNat
    closed := mantissa % 2 == 0 }

/-- The number of decimal places before the point: `10 ^ (k - 1) ≤ num / den < 10 ^ k`. -/
def decimalMagnitude (num den : Nat) : Int :=
  if den ≤ num then (Nat.toDigits 10 (num / den)).length
  else
    let t := (Nat.toDigits 10 (den / num)).length
    if den ≤ num * Nat.pow 10 (t - 1) then 2 - (t : Int) else 1 - (t : Int)

/-- The multiple of `10 ^ place` in the interval that is nearest to the double, if there is one; of
two as near the larger. -/
def RoundingInterval.nearest? (r : RoundingInterval) (place : Int) : Option Nat :=
  let down := Nat.pow 10 (-place).toNat
  let unit := r.den * Nat.pow 10 place.toNat
  let x := r.mid * down
  let inside := fun d =>
    if r.closed then r.low * down ≤ d * unit && d * unit ≤ r.high * down
    else r.low * down < d * unit && d * unit < r.high * down
  let below := x / unit
  match inside below, inside (below + 1) with
  | true, true => some (if 2 * (x % unit) < unit then below else below + 1)
  | true, false => some below
  | false, true => some (below + 1)
  | false, false => none

/-- Zeros at the end of the digits move into the exponent. -/
def Decimal.strip : Nat → Decimal → Decimal
  | 0, d => d
  | n + 1, d =>
    if d.digits % 10 = 0 ∧ d.digits ≠ 0 then Decimal.strip n ⟨d.digits / 10, d.exponent + 1⟩ else d

/-- The shortest decimal of a positive double. Seventeen digits always suffice. -/
def shortestDecimal (mantissa : Nat) (exponent : Int) : Decimal :=
  let r := roundingInterval mantissa exponent
  let k := decimalMagnitude r.mid r.den
  let found := (List.range 17).findSome? fun (n : Nat) =>
    (r.nearest? (k - (n + 1))).map (Decimal.mk · (k - (n + 1)))
  Decimal.strip 17 (found.getD ⟨0, 0⟩)

/-- Positional notation, whatever the exponent. -/
def Decimal.text (d : Decimal) : String :=
  let s := Nat.toDigits 10 d.digits
  if 0 ≤ d.exponent then String.ofList (s ++ List.replicate d.exponent.toNat '0')
  else
    let places := (-d.exponent).toNat
    if places < s.length then
      String.ofList (s.take (s.length - places) ++ '.' :: s.drop (s.length - places))
    else String.ofList ('0' :: '.' :: (List.replicate (places - s.length) '0' ++ s))

def signText (negative : Bool) : String :=
  if negative then "-" else ""

/-- The text of a number: a whole number has no point, and nothing has an exponent. -/
def numberText (x : Float) : String :=
  match floatForm x with
  | .nan => "NaN"
  | .infinite negative => signText negative ++ "inf"
  | .finite negative mantissa exponent =>
    signText negative ++
      if mantissa = 0 then "0" else (shortestDecimal mantissa exponent).text

example : (Decimal.mk 125 (-2)).text = "1.25" := by decide

example : (Decimal.mk 5 (-3)).text = "0.005" := by decide

example : (Decimal.mk 12 2).text = "1200" := by decide

end MatchLang
