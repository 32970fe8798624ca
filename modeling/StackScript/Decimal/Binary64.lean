/-!
# Binary64 numbers as exact rationals

A binary64 pattern without its sign is `significand * 2 ^ exponent`, an infinity or no number at
all. `Magnitude.ofBits` takes a pattern apart; `nearestBits` goes the other way and finds the
pattern nearest to a quotient of natural numbers. Both use whole numbers only, so neither rounds
more than once.
-/

namespace StackScript.Decimal

/-- What a binary64 pattern stands for once its sign is set aside. -/
inductive Magnitude where
  /-- The number `significand * 2 ^ exponent`. -/
  | finite (significand : Nat) (exponent : Int)
  | infinite
  | notANumber
deriving DecidableEq

/-- A power of two. -/
def twoPow (n : Nat) : Nat :=
  Nat.pow 2 n

/-- A power of ten. -/
def tenPow (n : Nat) : Nat :=
  Nat.pow 10 n

/-- The exponent of the least positive number. -/
def leastExponent : Int := -1074

/-- The pattern of infinity. -/
def infinityBits : UInt64 := 0x7ff0000000000000

/-- The bit that holds the sign. -/
def signBit : UInt64 := 0x8000000000000000

/-- Splits a pattern into its exponent field and fraction. An empty field holds the numbers too
small for a leading one, a full field holds infinity and the patterns that are no number. -/
def Magnitude.ofBits (bits : UInt64) : Magnitude :=
  let fraction := bits.toNat % twoPow 52
  let field := bits.toNat / twoPow 52 % twoPow 11
  if field = 2047 then
    if fraction = 0 then .infinite else .notANumber
  else if field = 0 then .finite fraction leastExponent
  else .finite (twoPow 52 + fraction) (leastExponent + (field - 1 : Nat))

/-- The whole number nearest to `num / den`; a half goes to the even neighbour. -/
def roundHalfEven (num den : Nat) : Nat :=
  let floor := num / den
  let rest := num % den
  if 2 * rest < den ∨ 2 * rest = den ∧ floor % 2 = 0 then floor else floor + 1

/-- The greatest `e` with `2 ^ e ≤ num / den`, for positive `num` and `den`. -/
def log2Ratio (num den : Nat) : Int :=
  let guess : Int := (num.log2 : Int) - den.log2
  if den * twoPow guess.toNat ≤ num * twoPow (-guess).toNat then guess else guess - 1

/-- The pattern nearest to `num / den`; a half goes to the even neighbour, and what is too large
goes to infinity. A significand that rounds up to a power of two carries into the exponent
field, which is the right pattern. -/
def nearestBits (num den : Nat) : UInt64 :=
  if num = 0 then 0
  else
    let exponent := max (log2Ratio num den - 52) leastExponent
    let significand := roundHalfEven (num * twoPow (-exponent).toNat) (den * twoPow exponent.toNat)
    let bits := significand + (exponent - leastExponent).toNat * twoPow 52
    UInt64.ofNat (min bits infinityBits.toNat)

end StackScript.Decimal
