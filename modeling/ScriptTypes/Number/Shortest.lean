import ScriptTypes.Number.Binary64

/-! `Binary64.shortest` gives the fewest digits that read back as the same word, and of those the
ones nearest to the value. `Binary64.decimal` lays them out: positional for exponents from -4 to 15,
with a point always shown, and otherwise with an exponent of at least two digits. -/

namespace ScriptTypes

def digitCount (n : Nat) : Nat := if n = 0 then 0 else (Nat.toDigits 10 n).length

def stripZeros : Nat → Nat → Int → Nat × Int
  | 0, digits, exponent => (digits, exponent)
  | fuel + 1, digits, exponent =>
    if digits % 10 = 0 then stripZeros fuel (digits / 10) (exponent + 1) else (digits, exponent)

namespace Binary64

structure Interval where
  low : Nat
  value : Nat
  high : Nat
  den : Nat
  closed : Bool

/-- Neighbours lie half a unit away, a quarter unit below a power of two. -/
def interval (x : Binary64) : Interval :=
  let m := x.significand
  let unit := x.scale - 2
  let up := pow2 unit.toNat
  let gap := if m = pow2 52 ∧ -1074 < x.scale then 1 else 2
  ⟨(4 * m - gap) * up, 4 * m * up, (4 * m + 2) * up, pow2 (-unit).toNat, m % 2 == 0⟩

namespace Interval

/-- The `k` with `10^(k-1) ≤ value < 10^k`. -/
def magnitude (i : Interval) : Int :=
  if i.den ≤ i.value then digitCount (i.value / i.den)
  else 1 - (digitCount ((i.den + i.value - 1) / i.value - 1) : Int)

/-- The value's neighbour on the grid of multiples of `10^exponent` that lies in the interval,
the nearer of two. -/
def onGrid (i : Interval) (exponent : Int) : Option Nat :=
  let num := pow10 (-exponent).toNat
  let den := i.den * pow10 exponent.toNat
  let inside (d : Nat) : Bool :=
    if i.closed then i.low * num ≤ d * den && d * den ≤ i.high * num
    else i.low * num < d * den && d * den < i.high * num
  let down := i.value * num / den
  match inside down, inside (down + 1) with
  | true, false => some down
  | false, true => some (down + 1)
  | true, true => some (roundDiv (i.value * num) den)
  | false, false => none

end Interval

/-- Digits and exponent of the shortest decimal of a positive finite word. Seventeen digits
always suffice. -/
def shortest (x : Binary64) : Nat × Int :=
  let i := x.interval
  let k := i.magnitude
  let found := (List.range 17).findSome? fun n =>
    let exponent := k - (n + 1 : Nat)
    (i.onGrid exponent).map fun d => (d, exponent)
  match found with
  | some (d, exponent) => stripZeros (digitCount d) d exponent
  | none => (0, 0)

def pad (width : Nat) (s : String) : String :=
  String.ofList (List.replicate (width - s.length) '0') ++ s

def layout (digits : Nat) (exponent : Int) : String :=
  let ds := Nat.toDigits 10 digits
  let leading := exponent + ds.length - 1
  let text := String.ofList
  if leading < -4 ∨ 16 ≤ leading then
    let fraction := if ds.length = 1 then "" else "." ++ text (ds.drop 1)
    let sign := if leading < 0 then "-" else "+"
    text (ds.take 1) ++ fraction ++ "e" ++ sign ++ pad 2 (toString leading.natAbs)
  else if 0 ≤ exponent then text (ds ++ List.replicate exponent.toNat '0') ++ ".0"
  else if 0 ≤ leading then
    text (ds.take (leading.toNat + 1)) ++ "." ++ text (ds.drop (leading.toNat + 1))
  else "0." ++ text (List.replicate (-leading - 1).toNat '0' ++ ds)

def decimal (infinity undefined : String) (x : Binary64) : String :=
  let sign := if x.isNegative then "-" else ""
  if x.isFinite then
    if x.isZero then sign ++ "0.0"
    else sign ++ layout x.shortest.1 x.shortest.2
  else if x.isInfinite then sign ++ infinity
  else undefined

end Binary64

end ScriptTypes
