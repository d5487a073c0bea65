import MatchLang.Number.Parts

/-! Reading a number from its decimal text: a sign, digits with an optional point, an optional power
of ten, or one of the names of infinity and of not-a-number. -/

namespace MatchLang

def digitsValue (ds : List Char) : Nat :=
  ds.foldl (fun n c => 10 * n + (c.toNat - '0'.toNat)) 0

/-- A number with more places than this before its point is infinite as a double, and one with as
many zeros behind it is zero. -/
def placesBound : Int := 400

/-- The double nearest to `digits * 10 ^ exponent`. A power of ten far out of range is cut, since
the answer no longer depends on it. -/
def decimalFloat (negative : Bool) (digits : Nat) (exponent : Int) : Float :=
  let places : Int := (Nat.toDigits 10 digits).length
  if placesBound < exponent + places then
    if digits = 0 then nearestFloat negative 0 1
    else nearestFloat negative (Nat.pow 10 placesBound.toNat) 1
  else if exponent + places < -placesBound then nearestFloat negative 0 1
  else nearestFloat negative (digits * Nat.pow 10 exponent.toNat) (Nat.pow 10 (-exponent).toNat)

/-- A power of ten, read after its `e`. -/
def readExponent? (s : List Char) : Option Int :=
  let (negative, ds) : Bool × List Char := match s with
    | '-' :: r => (true, r)
    | '+' :: r => (false, r)
    | r => (false, r)
  if ds.isEmpty || !ds.all Char.isDigit then none
  else if negative then some (-(digitsValue ds : Int)) else some (digitsValue ds)

/-- What follows the digits of a number: nothing, or a power of ten. -/
def readScale? : List Char → Option Int
  | [] => some 0
  | c :: s => if c = 'e' || c = 'E' then readExponent? s else none

def readUnsigned? (negative : Bool) (s : List Char) : Option Float :=
  let whole := s.takeWhile Char.isDigit
  let afterWhole := s.dropWhile Char.isDigit
  let (fraction, rest) : List Char × List Char := match afterWhole with
    | '.' :: r => (r.takeWhile Char.isDigit, r.dropWhile Char.isDigit)
    | r => ([], r)
  if whole.isEmpty && fraction.isEmpty then none
  else
    (readScale? rest).map fun e =>
      decimalFloat negative (digitsValue (whole ++ fraction)) (e - fraction.length)

/-- The names of the values that have no digits, in lower case. -/
def readName? (negative : Bool) (s : List Char) : Option Float :=
  let s := String.ofList (s.map Char.toLower)
  if s = "inf" || s = "infinity" then
    some (Float.ofBits (UInt64.ofNat (infinityBits + if negative then Nat.pow 2 63 else 0)))
  else if s = "nan" then some (0.0 / 0.0)
  else none

def readMagnitude? (negative : Bool) (s : List Char) : Option Float :=
  (readName? negative s).or (readUnsigned? negative s)

/-- The number a text denotes, if the whole text is one. -/
def readNumber? : List Char → Option Float
  | '-' :: s => readMagnitude? true s
  | '+' :: s => readMagnitude? false s
  | s => readMagnitude? false s

end MatchLang
