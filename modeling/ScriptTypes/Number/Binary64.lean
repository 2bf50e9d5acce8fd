/-! A finite 64-bit word stands for `m · 2^q` with a sign. Arithmetic on it is exact arithmetic on
`m` and `q`, rounded once to the nearest word, a half to the word whose last bit is zero. -/

namespace ScriptTypes

def pow2 (n : Nat) : Nat := Nat.pow 2 n

def pow10 (n : Nat) : Nat := Nat.pow 10 n

structure Binary64 where
  bits : UInt64
  deriving DecidableEq, Repr

namespace Binary64

def isNegative (x : Binary64) : Bool := x.bits ≥ 0x8000000000000000

def magnitude (x : Binary64) : Nat := x.bits.toNat % pow2 63

def exponentField (x : Binary64) : Nat := x.magnitude / pow2 52

/-- The magnitude of an infinite word; larger ones stand for no number. -/
def infiniteMagnitude : Nat := 2047 * pow2 52

def isFinite (x : Binary64) : Bool := x.magnitude < infiniteMagnitude

def isInfinite (x : Binary64) : Bool := x.magnitude == infiniteMagnitude

def isZero (x : Binary64) : Bool := x.magnitude == 0

/-- The `m` of `m · 2^q`. -/
def significand (x : Binary64) : Nat :=
  if x.exponentField = 0 then x.magnitude else x.magnitude % pow2 52 + pow2 52

/-- The `q` of `m · 2^q`. -/
def scale (x : Binary64) : Int := (max x.exponentField 1 : Nat) - 1075

def ofMagnitude (negative : Bool) (magnitude : Nat) : Binary64 :=
  ⟨UInt64.ofNat (if negative then magnitude + pow2 63 else magnitude)⟩

def isIntegral (x : Binary64) : Bool :=
  x.isFinite && (0 ≤ x.scale || x.significand % pow2 (-x.scale).toNat == 0)

def toInt? (x : Binary64) : Option Int :=
  if x.isIntegral then
    let size : Nat := x.significand * pow2 x.scale.toNat / pow2 (-x.scale).toNat
    some (if x.isNegative then -(size : Int) else size)
  else none

/-- `num / den` to the nearest natural number, a half to the even one. -/
def roundDiv (num den : Nat) : Nat :=
  let down := num / den
  let rest := num % den
  if 2 * rest < den then down
  else if den < 2 * rest then down + 1
  else down + down % 2

/-- The word nearest to `num / den`; too large a quotient is infinite. -/
def ofRatio (negative : Bool) (num den : Nat) : Binary64 :=
  if num = 0 then ofMagnitude negative 0
  else
    let guess : Int := (num.log2 : Int) - den.log2 - 53
    let fits := num * pow2 (-(guess + 53)).toNat < den * pow2 (guess + 53).toNat
    let scale := max (if fits then guess else guess + 1) (-1074)
    let m := roundDiv (num * pow2 (-scale).toNat) (den * pow2 scale.toNat)
    ofMagnitude negative (min ((scale + 1074).toNat * pow2 52 + m) infiniteMagnitude)

/-- The word nearest to `digits · 10^exponent`. Exponents that no digits can bring back into
range are settled without computing the power. -/
def ofDecimal (negative : Bool) (digits : Nat) (exponent : Int) : Binary64 :=
  if digits = 0 then ofMagnitude negative 0
  else if 400 < exponent then ofMagnitude negative infiniteMagnitude
  else if exponent + digits.log2 / 3 + 1 < -400 then ofMagnitude negative 0
  else ofRatio negative (digits * pow10 exponent.toNat) (pow10 (-exponent).toNat)

def succ (x : Binary64) : Binary64 :=
  if x.isFinite then
    let den := pow2 (-x.scale).toNat
    let num : Int := x.significand * pow2 x.scale.toNat
    let sum := (if x.isNegative then -num else num) + den
    ofRatio (sum < 0) sum.natAbs den
  else x

end Binary64

end ScriptTypes
