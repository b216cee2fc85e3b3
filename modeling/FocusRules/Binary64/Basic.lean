/-! Finite binary floating-point numbers of 64 bits as exact values: a sign, a mantissa and a power
of two. Rounding goes to the nearest number whose mantissa has 53 bits, a tie to the even mantissa,
and what rounds beyond the greatest of them has no value here. -/

namespace FocusRules

/-- The nearest whole number to a quotient, the even one of two. -/
def roundDiv (num den : Nat) : Nat :=
  let q := num / den
  let twice := 2 * (num % den)
  if twice < den ∨ (twice = den ∧ q % 2 = 0) then q else q + 1

/-- The value is the mantissa times two to the exponent, with the sign. -/
structure Binary64 where
  negative : Bool := false
  mantissa : Nat
  exponent : Int
deriving DecidableEq, Inhabited

namespace Binary64

def precision : Nat := 53
def minExponent : Int := -1074
def maxExponent : Int := 971

def zero : Binary64 := ⟨false, 0, minExponent⟩

def isZero (x : Binary64) : Bool := x.mantissa = 0

def withSign (x : Binary64) (negative : Bool) : Binary64 := { x with negative }

/-- The value without its sign is the quotient of `num` and `den`. -/
def num (x : Binary64) : Nat := x.mantissa * Nat.pow 2 x.exponent.toNat

def den (x : Binary64) : Nat := Nat.pow 2 (-x.exponent).toNat

def truncate (x : Binary64) : Int :=
  let whole : Int := (x.num / x.den : Nat)
  if x.negative then -whole else whole

/-- The exponent at which a quotient has a mantissa of 53 bits, or the least exponent there is. -/
def exponentFor (num den : Nat) : Int :=
  let low : Int := (num.log2 : Int) - den.log2 - precision
  let exponent :=
    if num * Nat.pow 2 (-low).toNat < den * Nat.pow 2 low.toNat * Nat.pow 2 precision then low
    else low + 1
  max exponent minExponent

/-- The number nearest to a quotient, unless it is out of range. -/
def ofRatio? (num den : Nat) : Option Binary64 :=
  if num = 0 then some zero
  else
    let exponent := exponentFor num den
    let mantissa :=
      roundDiv (num * Nat.pow 2 (-exponent).toNat) (den * Nat.pow 2 exponent.toNat)
    let x : Binary64 :=
      if mantissa = Nat.pow 2 precision then ⟨false, Nat.pow 2 (precision - 1), exponent + 1⟩
      else ⟨false, mantissa, exponent⟩
    if x.exponent ≤ maxExponent then some x else none

/-- The rounded product of two magnitudes. -/
def mul? (x y : Binary64) : Option Binary64 := ofRatio? (x.num * y.num) (x.den * y.den)

/-- The rounded quotient of two magnitudes. -/
def div? (x y : Binary64) : Option Binary64 := ofRatio? (x.num * y.den) (x.den * y.num)

end Binary64

end FocusRules
