/-!
# Decimal text of binary floats

A finite float is exactly `mantissa * 2 ^ exponent`. This module takes a float apart into that form
and writes it with a fixed number of decimal places, rounding the exact value once: to the nearest
decimal, and a value halfway between two decimals to the even one.
-/

namespace Scriptlet.Decimal

/-- A power of two. -/
def twoTo (n : Nat) : Nat :=
  Nat.pow 2 n

/-- A power of ten. -/
def tenTo (n : Nat) : Nat :=
  Nat.pow 10 n

/-- A finite float: `mantissa * 2 ^ exponent`, negated if `negative` is set. Zero has a sign. -/
structure Binary where
  negative : Bool
  mantissa : Nat
  exponent : Int
deriving DecidableEq, Repr

/-- What the bits of a float stand for. -/
inductive Reading where
  | nan
  | infinite (negative : Bool)
  | finite (value : Binary)
deriving DecidableEq, Repr

/-- Reads the 64 bits of a float: a sign, eleven bits of exponent and 52 bits of fraction. -/
def Reading.ofBits (bits : UInt64) : Reading :=
  let word := bits.toNat
  let negative : Bool := twoTo 63 ≤ word
  let biased : Nat := word / twoTo 52 % twoTo 11
  let fraction : Nat := word % twoTo 52
  if biased = 2047 then
    if fraction = 0 then .infinite negative else .nan
  else if biased = 0 then
    .finite ⟨negative, fraction, -1074⟩
  else
    .finite ⟨negative, twoTo 52 + fraction, Int.ofNat biased - 1075⟩

namespace Binary

/-- The numerator of the value as a quotient of natural numbers, its sign aside. -/
def num (x : Binary) : Nat :=
  x.mantissa * twoTo x.exponent.toNat

/-- The denominator of the value as a quotient of natural numbers. -/
def den (x : Binary) : Nat :=
  twoTo (-x.exponent).toNat

end Binary

/-- The natural number nearest to `num / den`; of two equally near ones, the even one. -/
def roundDiv (num den : Nat) : Nat :=
  let quotient := num / den
  let twice := 2 * (num % den)
  if twice < den then quotient
  else if den < twice then quotient + 1
  else quotient + quotient % 2

/-- The digits of `n`, filled up with zeros on the left to at least `width` digits. -/
def padded (width n : Nat) : String :=
  let digits := (Nat.toDigits 10 n)
  String.ofList (List.replicate (width - digits.length) '0' ++ digits)

/-- The sign in front of a number. -/
def signText (negative : Bool) : String :=
  if negative then "-" else ""

/-- The decimal text of a float with exactly `places` digits after the point. -/
def fixed (places : Nat) (x : Float) : String :=
  match Reading.ofBits x.toBits with
  | .nan => "NaN"
  | .infinite negative => signText negative ++ "inf"
  | .finite x =>
    let scaled := roundDiv (x.num * tenTo places) x.den
    let whole := scaled / tenTo places
    let fraction := scaled % tenTo places
    signText x.negative ++ toString whole ++ "." ++ padded places fraction

end Scriptlet.Decimal
