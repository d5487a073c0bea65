/-! A double taken apart into sign, mantissa and power of two, and put together again by rounding an
exact quotient to the nearest double. -/

namespace MatchLang

/-- What a double stands for. A finite one is `mantissa * 2 ^ exponent` with the sign in front, so
that zero keeps its sign. -/
inductive FloatForm where
  | nan
  | infinite (negative : Bool)
  | finite (negative : Bool) (mantissa : Nat) (exponent : Int)

def floatForm (x : Float) : FloatForm :=
  let bits := x.toBits.toNat
  let negative := bits / Nat.pow 2 63 == 1
  let field : Nat := bits / Nat.pow 2 52 % Nat.pow 2 11
  let fraction := bits % Nat.pow 2 52
  if field = 2047 then
    if fraction = 0 then .infinite negative else .nan
  else if field = 0 then .finite negative fraction (-1074)
  else .finite negative (Nat.pow 2 52 + fraction) ((field : Int) - 1075)

def infinityBits : Nat := 2047 * Nat.pow 2 52

/-- The power of two of the last place kept of `num / den`: 53 places in all, but never below the
last place a double has. -/
def lastPlace (num den : Nat) : Int :=
  let guess : Int := (num.log2 : Int) - den.log2 - 52
  let tooHigh := num * Nat.pow 2 (-guess).toNat < den * Nat.pow 2 guess.toNat * Nat.pow 2 52
  max (if tooHigh then guess - 1 else guess) (-1074)

/-- The quotient `num / den` to the nearest whole number, a half to the even neighbour. -/
def divideToEven (num den : Nat) : Nat :=
  let q := num / den
  let r := num % den
  if 2 * r < den then q else if 2 * r = den ∧ q % 2 = 0 then q else q + 1

/-- The bits of the double nearest to `num / den`, for a positive denominator; what is too large
becomes infinity. -/
def nearestBits (num den : Nat) : Nat :=
  if num = 0 then 0
  else
    let e := lastPlace num den
    let m := divideToEven (num * Nat.pow 2 (-e).toNat) (den * Nat.pow 2 e.toNat)
    min ((e + 1074).toNat * Nat.pow 2 52 + m) infinityBits

/-- The double nearest to `num / den`, with a sign. -/
def nearestFloat (negative : Bool) (num den : Nat) : Float :=
  Float.ofBits (UInt64.ofNat (nearestBits num den + if negative then Nat.pow 2 63 else 0))

theorem divideToEven_exact {num den : Nat} (h : 0 < den) : divideToEven (num * den) den = num := by
  simp [divideToEven, Nat.mul_div_cancel _ h, h]

end MatchLang
