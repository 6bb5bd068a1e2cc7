/-!
# Decimal text of numbers

`decimal` writes a double with the fewest digits that read back as the same double, always in
positional notation: no exponent, no fraction part for a whole number, `-0` for negative zero, and
`NaN`, `inf`, `-inf` for the rest. Everything is decided in exact arithmetic on natural numbers:
`roundingInterval` gives the reals that round to the double, `shortestIn` looks for the coarsest
decimal grid with a point in that interval and takes the nearer of its two candidates, the upper one
when both are equally near.
-/

namespace ObjectMapping.Text

/-- Two to the power `n`. -/
def twoPow (n : Nat) : Nat :=
  Nat.pow 2 n

/-- Ten to the power `n`. -/
def tenPow (n : Nat) : Nat :=
  Nat.pow 10 n

/-! ## The reals that round to a double -/

/-- A positive real `value / scale` with the interval of the reals that round to it, from
`low / scale` to `high / scale`; the ends belong to it when `closed` is set. -/
structure RoundingInterval where
  low : Nat
  value : Nat
  high : Nat
  scale : Nat
  closed : Bool

/-- The fraction field of a double. -/
def fractionBits (bits : UInt64) : Nat :=
  bits.toNat % twoPow 52

/-- The biased exponent field of a double. -/
def exponentBits (bits : UInt64) : Nat :=
  bits.toNat / twoPow 52 % twoPow 11

/-- The sign bit of a double. -/
def isNegative (bits : UInt64) : Bool :=
  bits.toNat / twoPow 63 == 1

/-- The reals that round to the magnitude of a finite double. Half of the gap to each neighbour
belongs to it, in quarters of the unit in the last place; below a power of two the gap is half as
wide. The ends round to it when its significand is even. -/
def roundingInterval (bits : UInt64) : RoundingInterval :=
  let fraction := fractionBits bits
  let exponent := exponentBits bits
  let significand := if exponent = 0 then fraction else twoPow 52 + fraction
  let below := if fraction = 0 ∧ 1 < exponent then 1 else 2
  let unit := twoPow (exponent - 1)
  { low := (4 * significand - below) * unit
    value := 4 * significand * unit
    high := (4 * significand + 2) * unit
    scale := twoPow 1076
    closed := significand % 2 == 0 }

/-! ## The shortest decimal in an interval -/

/-- Whether the multiple `c` of `10 ^ exponent` lies in the interval. -/
def RoundingInterval.holds (i : RoundingInterval) (c : Nat) (exponent : Int) : Bool :=
  let point := c * (i.scale * tenPow exponent.toNat)
  let low := i.low * tenPow (-exponent).toNat
  let high := i.high * tenPow (-exponent).toNat
  if i.closed then low ≤ point && point ≤ high else low < point && point < high

/-- The point of the grid of multiples of `10 ^ exponent` that lies in the interval and is nearest
to its value, the upper one of two equally near. -/
def RoundingInterval.nearest? (i : RoundingInterval) (exponent : Int) : Option Nat :=
  let step := i.scale * tenPow exponent.toNat
  let value := i.value * tenPow (-exponent).toNat
  let c := value / step
  match i.holds c exponent, i.holds (c + 1) exponent with
  | true, true => some (if 2 * (value % step) < step then c else c + 1)
  | true, false => some c
  | false, true => some (c + 1)
  | false, false => none

/-- The first grid with a point in the interval, going down from `10 ^ exponent` for at most
`steps` grids: the point and the exponent of its grid. -/
def RoundingInterval.shortestFrom (i : RoundingInterval) : Nat → Int → Nat × Int
  | 0, exponent => (i.value * tenPow (-exponent).toNat / i.scale, exponent)
  | steps + 1, exponent =>
    match i.nearest? exponent with
    | some c => (c, exponent)
    | none => i.shortestFrom steps (exponent - 1)

/-- The digits and the exponent of the shortest decimal in the interval. The value itself lies on
the grid of `10 ^ (-1076)`, so the search ends there at the latest. -/
def RoundingInterval.shortest (i : RoundingInterval) : Nat × Int :=
  let top := (Nat.toDigits 10 (i.high / i.scale)).length
  i.shortestFrom (top + 1077) top

/-! ## Positional notation -/

/-- The decimal digits of a natural number. -/
def digits (n : Nat) : List Char :=
  Nat.toDigits 10 n

/-- `n` times ten to the power `exponent`, without an exponent. -/
def positional (n : Nat) (exponent : Int) : String :=
  if 0 ≤ exponent then
    String.ofList (digits n ++ List.replicate exponent.toNat '0')
  else
    let places := (-exponent).toNat
    let padded := List.replicate (places + 1 - (digits n).length) '0' ++ digits n
    let whole := padded.length - places
    String.ofList (padded.take whole ++ '.' :: padded.drop whole)

/-- The text of a double given by its bits. -/
def decimalOfBits (bits : UInt64) : String :=
  if exponentBits bits = 2047 then
    if fractionBits bits ≠ 0 then "NaN" else if isNegative bits then "-inf" else "inf"
  else
    let magnitude :=
      if exponentBits bits = 0 ∧ fractionBits bits = 0 then
        "0"
      else
        let (n, exponent) := (roundingInterval bits).shortest
        positional n exponent
    if isNegative bits then "-" ++ magnitude else magnitude

/-- The text of a double. -/
def decimal (x : Float) : String :=
  decimalOfBits x.toBits

/-- The text of an integer. -/
def integer (i : Int) : String :=
  if i < 0 then String.ofList ('-' :: digits i.natAbs) else String.ofList (digits i.natAbs)

end ObjectMapping.Text
