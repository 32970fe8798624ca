import StackScript.Decimal.Binary64

/-!
# Decimals and the numerals that denote them

A decimal is `coefficient * 10 ^ exponent`. `Decimal.bits` rounds one to binary64, and `readNumber?`
reads the general form of a numeral: a sign, digits with at most one point, a decimal exponent, or
one of the names of infinity and of the undefined result.
-/

namespace StackScript

/-- The number `coefficient * 10 ^ exponent`. -/
structure Decimal where
  coefficient : Nat
  exponent : Int
deriving DecidableEq

namespace Decimal

/-- The binary64 pattern nearest to a decimal. Exponents far outside the range are answered
without computing the power of ten: a coefficient `c` has fewer than `c.log2 / 3 + 2` digits. -/
def bits (d : Decimal) : UInt64 :=
  if d.coefficient = 0 then 0
  else if d.exponent > 400 then infinityBits
  else if d.exponent + (d.coefficient.log2 / 3 + 2 : Nat) < -400 then 0
  else nearestBits (d.coefficient * tenPow d.exponent.toNat) (tenPow (-d.exponent).toNat)

/-- The number that a digit denotes. -/
def digitValue (digit : Char) : Nat :=
  digit.toNat - '0'.toNat

/-- The number that a run of digits denotes. The run is halved `depth` times before its digits are
taken one by one; the depth makes no difference to the number, but spares long runs most of the
work with large numbers. -/
def digitsValue : (depth : Nat) → List Char → Nat
  | 0, digits => digits.foldl (fun value digit => 10 * value + digitValue digit) 0
  | depth + 1, digits =>
    let low := digits.length / 2
    let high := digits.length - low
    digitsValue depth (digits.take high) * tenPow low + digitsValue depth (digits.drop high)

/-- Digits that follow a number shift it by their count. -/
theorem foldl_digits (digits : List Char) (start : Nat) :
    digits.foldl (fun value digit => 10 * value + digitValue digit) start =
      start * tenPow digits.length + digitsValue 0 digits := by
  simp only [digitsValue]
  induction digits generalizing start with
  | nil => simp [tenPow]
  | cons digit rest ih =>
    simp only [List.foldl_cons, List.length_cons]
    rw [ih, ih (10 * 0 + _)]
    simp only [tenPow, Nat.pow_eq, Nat.pow_succ, Nat.add_mul]
    grind

theorem digitsValue_depth (depth : Nat) (digits : List Char) :
    digitsValue depth digits = digitsValue 0 digits := by
  induction depth generalizing digits with
  | zero => rfl
  | succ depth ih =>
    have hlow : digits.length - (digits.length - digits.length / 2) = digits.length / 2 := by
      omega
    have hsplit := foldl_digits (digits.drop (digits.length - digits.length / 2))
      (digitsValue 0 (digits.take (digits.length - digits.length / 2)))
    rw [List.length_drop, hlow, digitsValue, ← List.foldl_append, List.take_append_drop] at hsplit
    simp only [digitsValue, ih] at hsplit ⊢
    exact hsplit.symm

/-- The number that the digits of a numeral denote, read in pieces of about a hundred digits. -/
def coefficientValue (digits : List Char) : Nat :=
  digitsValue (digits.length.log2 - 6) digits

/-- An exponent that has reached this value takes in no further digits. -/
def exponentCap : Nat := 65536

/-- The number that the digits of an exponent denote, up to the cap. -/
def exponentValue (digits : List Char) : Nat :=
  digits.foldl
    (fun value digit => if value < exponentCap then 10 * value + digitValue digit else value) 0

/-- A leading sign, read as "negative or not", and what follows it. -/
def splitSign : List Char → Bool × List Char
  | '+' :: rest => (false, rest)
  | '-' :: rest => (true, rest)
  | rest => (false, rest)

/-- The exponent part of a numeral, which may be absent. -/
def readExponent? : List Char → Option Int
  | [] => some 0
  | mark :: rest =>
    let (negative, digits) := splitSign rest
    if (mark = 'e' ∨ mark = 'E') ∧ digits ≠ [] ∧ digits.all Char.isDigit then
      some (if negative then -(exponentValue digits) else exponentValue digits)
    else none

/-- The digits after a point, if there is one, and what follows them. -/
def splitFraction : List Char → List Char × List Char
  | '.' :: rest => (rest.takeWhile Char.isDigit, rest.dropWhile Char.isDigit)
  | rest => ([], rest)

/-- An unsigned numeral: at least one digit before or after the point, then an exponent. -/
def readUnsigned? (text : List Char) : Option Decimal :=
  let whole := text.takeWhile Char.isDigit
  let (fraction, rest) := splitFraction (text.dropWhile Char.isDigit)
  let digits := whole ++ fraction
  if digits = [] then none
  else (readExponent? rest).map fun e => ⟨coefficientValue digits, e - fraction.length⟩

/-- The pattern of an unsigned numeral or of one of the three names, in letters of either case. -/
def readBits? (text : List Char) : Option UInt64 :=
  match text.map Char.toLower with
  | ['i', 'n', 'f'] => some infinityBits
  | ['i', 'n', 'f', 'i', 'n', 'i', 't', 'y'] => some infinityBits
  | ['n', 'a', 'n'] => some (infinityBits ||| 0x0008000000000000)
  | _ => (readUnsigned? text).map bits

/-- The number nearest to what a numeral denotes, or `none` if the text is no numeral. -/
def readNumber? (text : String) : Option Float :=
  let (negative, rest) := splitSign text.toList
  (readBits? rest).map fun bits => Float.ofBits (if negative then bits ||| signBit else bits)

end Decimal

end StackScript
