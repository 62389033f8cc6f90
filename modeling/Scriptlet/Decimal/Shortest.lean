import Scriptlet.Decimal

/-!
# The shortest decimal that reads back

Among the decimals that round to a given float, `shortest` picks one with the fewest digits, and of
those the nearest to the float's exact value. It tries the grids of one digit, two digits and so on
up to seventeen; on each grid only the two neighbours of the value can lie among the decimals that
round to it, so the first grid with a hit has the fewest digits. All arithmetic is on natural
numbers.
-/

namespace Scriptlet.Decimal

/-- A decimal number `digits * 10 ^ exponent`. -/
structure Scaled where
  digits : Nat
  exponent : Int
deriving DecidableEq, Repr

/-- The decimals that round to a float, over one denominator: they lie between `low` and `high`
around the exact value `mid`, and the ends belong to them if `closed` is set. -/
structure Neighbourhood where
  low : Nat
  mid : Nat
  high : Nat
  den : Nat
  closed : Bool

/-- The neighbourhood of a float that is not zero. The gap below a power of two is half the gap
above it, except at the bottom of the range, where all gaps are equal. A tie between two floats goes
to the one with the even mantissa. -/
def Binary.neighbourhood (x : Binary) : Neighbourhood :=
  let scale := twoTo x.exponent.toNat
  let below := if x.mantissa = twoTo 52 ∧ x.exponent ≠ -1074 then 1 else 2
  { low := (4 * x.mantissa - below) * scale
    mid := 4 * x.mantissa * scale
    high := (4 * x.mantissa + 2) * scale
    den := 4 * twoTo (-x.exponent).toNat
    closed := x.mantissa % 2 == 0 }

/-- Whether the decimal `num / den` rounds to the float; `num` is over the denominator of the
neighbourhood. -/
def Neighbourhood.contains (n : Neighbourhood) (num : Nat) : Bool :=
  if n.closed then n.low ≤ num && num ≤ n.high else n.low < num && num < n.high

/-- The position of the leading digit of `num / den`, which is at least one: the largest `k` with
`10 ^ k ≤ num / den`. -/
def leading (num den : Nat) : Nat :=
  (Nat.toDigits 10 (num / den)).length - 1

/-- The exponent of the leading decimal digit of the positive value `num / den`. -/
def magnitude (num den : Nat) : Int :=
  if den ≤ num then leading num den
  else
    let inverse := leading den num
    if den = num * tenTo inverse then -(inverse : Int) else -(inverse : Int) - 1

/-- The neighbour of the value on the grid of multiples of `10 ^ exponent` that rounds to the float,
if there is one: the nearer of two, and the larger of two equally near ones. -/
def Neighbourhood.onGrid? (n : Neighbourhood) (exponent : Int) : Option Scaled :=
  let step := tenTo exponent.toNat
  let unit := tenTo (-exponent).toNat
  let scaled : Neighbourhood :=
    { n with low := n.low * unit, mid := n.mid * unit, high := n.high * unit }
  let gap := n.den * step
  let lower := scaled.mid / gap
  let fromLower := scaled.mid - lower * gap
  let lowerHits := scaled.contains (lower * gap)
  let upperHits := scaled.contains ((lower + 1) * gap)
  if upperHits && (!lowerHits || gap ≤ 2 * fromLower) then some ⟨lower + 1, exponent⟩
  else if lowerHits then some ⟨lower, exponent⟩
  else none

/-- The first hit on the grids of `count` digits and more, given the exponent of the leading digit.
Seventeen digits always suffice. -/
def Neighbourhood.firstHit (n : Neighbourhood) (top : Int) : (tries : Nat) → (count : Nat) → Scaled
  | 0, _ => ⟨n.mid / n.den, 0⟩
  | tries + 1, count =>
    match n.onGrid? (top - (count : Int) + 1) with
    | some hit => hit
    | none => firstHit n top tries (count + 1)

/-- The shortest decimal that reads back as the float, its sign aside. A value just below a power of
ten meets it on the coarsest grid as ten units, which is one unit of the grid above. -/
def shortest (x : Binary) : Scaled :=
  if x.mantissa = 0 then ⟨0, 0⟩
  else
    let n := x.neighbourhood
    match n.firstHit (magnitude n.mid n.den) 17 1 with
    | ⟨10, exponent⟩ => ⟨1, exponent + 1⟩
    | hit => hit

/-- A decimal in positional notation, always with a point and a digit on each side of it. -/
def Scaled.positional (d : Scaled) : String :=
  match d.exponent with
  | .ofNat zeros => toString (d.digits * tenTo zeros) ++ ".0"
  | .negSucc n =>
    let places := n + 1
    toString (d.digits / tenTo places) ++ "." ++ padded places (d.digits % tenTo places)

/-- The text of a float in a program: the shortest decimal that reads back, in positional notation
and with at least one digit after the point. -/
def literal (x : Float) : String :=
  match Reading.ofBits x.toBits with
  | .nan => "NaN.0"
  | .infinite negative => signText negative ++ "inf.0"
  | .finite x => signText x.negative ++ (shortest x).positional

/-- The value of a decimal written as digits, a point and digits. -/
def read (text : String) : Float :=
  let whole := text.toList.takeWhile Char.isDigit
  let places := (text.toList.dropWhile Char.isDigit).filter Char.isDigit
  Float.ofScientific ((whole ++ places).foldl (fun n c => 10 * n + (c.toNat - '0'.toNat)) 0) true
    places.length

end Scriptlet.Decimal
