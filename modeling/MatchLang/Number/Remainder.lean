import MatchLang.Number.Parts

/-! The remainder of a division truncated toward zero. It is exact: both numbers are brought to one
power of two and the mantissas divided as whole numbers. -/

namespace MatchLang

def notANumber : Float := 0.0 / 0.0

/-- The remainder has the sign of the dividend, a zero remainder too. -/
def floatRemainder (x y : Float) : Float :=
  match floatForm x, floatForm y with
  | .nan, _ => notANumber
  | _, .nan => notANumber
  | .infinite _, _ => notANumber
  | _, .infinite _ => x
  | .finite negative m q, .finite _ n p =>
    if n = 0 then notANumber
    else
      let e := min q p
      let r := (m * Nat.pow 2 (q - e).toNat) % (n * Nat.pow 2 (p - e).toNat)
      nearestFloat negative (r * Nat.pow 2 e.toNat) (Nat.pow 2 (-e).toNat)

end MatchLang
