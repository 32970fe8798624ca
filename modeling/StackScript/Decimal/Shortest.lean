import StackScript.Decimal.Basic

/-!
# The shortest decimal that reads back

`significand * 2 ^ exponent` is what every real number of an interval around it rounds to. Among
the decimals in that interval, `shortest` takes one on the coarsest grid `10 ^ k` that has any,
and of two such neighbours the nearer one. `positional` writes a decimal without an exponent.
-/

namespace StackScript.Decimal

/-- The numbers that round to `significand * 2 ^ exponent`, in units of a quarter of
`2 ^ exponent`. The gap below a power of two is half as wide, except among the least numbers. The
ends belong to the interval when the significand is even. -/
structure Interval where
  low : Nat
  value : Nat
  high : Nat
  closed : Bool
deriving DecidableEq

/-- The interval around `significand * 2 ^ exponent`. -/
def Interval.around (significand : Nat) (exponent : Int) : Interval where
  low := 4 * significand -
    if significand = twoPow 52 ∧ leastExponent < exponent then 1 else 2
  value := 4 * significand
  high := 4 * significand + 2
  closed := significand % 2 = 0

/-- The point of the grid `10 ^ k` that stands for an interval in units of `2 ^ unit`: the value's
neighbour below or above, whichever lies inside; the nearer one if both do, and the upper one if
both are equally near. -/
def Interval.gridPoint? (i : Interval) (unit k : Int) : Option Nat :=
  let num := twoPow unit.toNat * tenPow (-k).toNat
  let den := twoPow (-unit).toNat * tenPow k.toNat
  let inside (point : Nat) : Bool :=
    if i.closed then i.low * num ≤ point * den && point * den ≤ i.high * num
    else i.low * num < point * den && point * den < i.high * num
  let below := i.value * num / den
  let above := below + 1
  let belowIsNearer : Bool := 2 * (i.value * num) < (below + above) * den
  if inside below && (belowIsNearer || !inside above) then some below
  else if inside above then some above
  else none

/-- Tries the grids `10 ^ k`, `10 ^ (k - 1)`, and so on. -/
def Interval.coarsest (i : Interval) (unit : Int) : Nat → Int → Decimal
  | 0, k => ⟨0, k⟩
  | steps + 1, k =>
    match i.gridPoint? unit k with
    | some point => ⟨point, k⟩
    | none => i.coarsest unit steps (k - 1)

/-- The shortest decimal that reads back as `significand * 2 ^ exponent`, for a positive
significand. The first grid is coarser than the whole interval, and seventeen digits always
suffice, so the search ends within its steps. -/
def shortest (significand : Nat) (exponent : Int) : Decimal :=
  let firstGrid := ((significand.log2 : Int) + exponent + 2) * 30103 / 100000 + 1
  (Interval.around significand exponent).coarsest (exponent - 2) 24 firstGrid

/-- The digits of a decimal with its point in place and no exponent. -/
def positional (d : Decimal) : String :=
  let digits := Nat.toDigits 10 d.coefficient
  if 0 ≤ d.exponent then
    String.ofList (digits ++ List.replicate d.exponent.toNat '0')
  else
    let places := (-d.exponent).toNat
    if places < digits.length then
      let whole := digits.length - places
      String.ofList (digits.take whole ++ '.' :: digits.drop whole)
    else
      String.ofList ('0' :: '.' :: List.replicate (places - digits.length) '0' ++ digits)

end StackScript.Decimal
