import FocusRules.Binary64.Basic

/-! The decimal text of a binary floating-point number. The digits are the fewest that read back as
the number, and of those the nearest to it, a tie going to the even last digit. A layout says which
numbers are written with an exponent. -/

namespace FocusRules

/-- The value is the digits after a point, times ten to `point`. -/
structure Decimal where
  digits : List Char
  point : Int
deriving DecidableEq

namespace Binary64

/-- The position of the first digit: the greatest power of ten that is no more than a quotient. -/
def leadingPower (num den : Nat) : Int :=
  if den ≤ num then ((Nat.toDigits 10 (num / den)).length : Int) - 1
  else -((Nat.toDigits 10 ((den - 1) / num)).length : Int)

/-- The multiple of ten to `power` that reads back as the number: the nearer of its two neighbours,
if that one lies where numbers round to it. -/
def multipleAt? (x : Binary64) (power : Int) : Option Nat :=
  -- everything is counted in quarters of the last place of the mantissa
  let shift := x.exponent - 2
  let unit := Nat.pow 2 shift.toNat * Nat.pow 10 (-power).toNat
  let step := Nat.pow 2 (-shift).toNat * Nat.pow 10 power.toNat
  let value := 4 * x.mantissa * unit
  let below :=
    if x.mantissa = Nat.pow 2 (precision - 1) ∧ minExponent < x.exponent then unit else 2 * unit
  let least := value - below
  let greatest := value + 2 * unit
  let readsBack (d : Nat) : Bool :=
    if x.mantissa % 2 = 0 then least ≤ d * step ∧ d * step ≤ greatest
    else least < d * step ∧ d * step < greatest
  let nearest := roundDiv value step
  let other := if nearest * step ≤ value then nearest + 1 else nearest - 1
  if readsBack nearest then some nearest else if readsBack other then some other else none

/-- The shortest digits of a number that is not zero. Seventeen always read back. -/
def shortest (x : Binary64) : Decimal :=
  let lead := leadingPower x.num x.den
  let places := (List.range 17).findSome? fun (n : Nat) =>
    (x.multipleAt? (lead - n)).map fun d => (d, lead - n)
  let (multiple, power) := places.getD (x.num / x.den, 0)
  let digits := Nat.toDigits 10 multiple
  ⟨(digits.reverse.dropWhile (· = '0')).reverse, digits.length + power⟩

end Binary64

/-- A number is written without an exponent if it has at most so many digits before the point and,
below one, at most so many zeros behind it. -/
structure DecimalLayout where
  whole : Nat
  zeros : Nat

namespace DecimalLayout

def magnitude (layout : DecimalLayout) (d : Decimal) : List Char :=
  if 0 < d.point ∧ d.point ≤ layout.whole then
    let whole := d.digits.take d.point.toNat
    let fraction := d.digits.drop d.point.toNat
    whole ++ List.replicate (d.point.toNat - whole.length) '0' ++ '.' ::
      (if fraction = [] then ['0'] else fraction)
  else if d.point ≤ 0 ∧ -d.point ≤ layout.zeros then
    '0' :: '.' :: List.replicate (-d.point).toNat '0' ++ d.digits
  else
    let exponent := d.point - 1
    let rest := d.digits.drop 1
    d.digits.take 1 ++ (if rest = [] then [] else '.' :: rest) ++
      'e' :: (if exponent < 0 then '-' else '+') :: Nat.toDigits 10 exponent.natAbs

/-- Zero is written `0.0`, with its sign. -/
def render (layout : DecimalLayout) (x : Binary64) : String :=
  let text := if x.isZero then ['0', '.', '0'] else layout.magnitude x.shortest
  String.ofList (if x.negative then '-' :: text else text)

end DecimalLayout

end FocusRules
