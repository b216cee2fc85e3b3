import FocusRules.Binary64.Shortest

/-! JSON numbers. A whole number that fits 64 bits, signed or unsigned, is kept exactly; every other
number is a binary floating-point number, and so is negative zero. -/

namespace FocusRules.Json

inductive Number where
  | integer (n : Int)
  | real (x : Binary64)
deriving DecidableEq, Inhabited

namespace Number

def truncate : Number → Int
  | integer n => n
  | real x => x.truncate

/-- The number as a whole number of 64 bits with a sign, if it is kept as one. -/
def int64? : Number → Option Int64
  | integer n =>
    if Int64.minValue.toInt ≤ n ∧ n ≤ Int64.maxValue.toInt then some (Int64.ofInt n) else none
  | real _ => none

def binary64? : Number → Option Binary64
  | integer n => (Binary64.ofRatio? n.natAbs 1).map (·.withSign (n < 0))
  | real x => some x

/-- A whole number of 64 bits is taken as it is. Any other number is taken as a floating-point
number, which loses its fraction. -/
def whole? (n : Number) : Option Int :=
  match n.int64? with
  | some i => some i.toInt
  | none => n.binary64?.map Binary64.truncate

/-- Sixteen digits may stand before the point, and four zeros behind it. -/
def layout : DecimalLayout := ⟨16, 4⟩

def render : Number → String
  | integer n => toString n
  | real x => layout.render x

end Number

/-- The parts of a number's text. Without a point there are no fraction digits. -/
structure Literal where
  negative : Bool
  whole : List Nat
  fraction : List Nat
  exponent : Option Int
deriving DecidableEq

namespace Literal

def digitOf (c : Char) : Nat := c.toNat - '0'.toNat

def digits (cs : List Char) : List Nat × List Char :=
  ((cs.takeWhile Char.isDigit).map digitOf, cs.dropWhile Char.isDigit)

def ofDigits (ds : List Nat) : Nat := ds.foldl (fun n d => n * 10 + d) 0

def exponent? : List Char → Option (Option Int)
  | [] => some none
  | e :: cs =>
    let (negative, cs) := match cs with
      | '-' :: rest => (true, rest)
      | '+' :: rest => (false, rest)
      | cs => (false, cs)
    let (ds, rest) := digits cs
    if (e = 'e' ∨ e = 'E') ∧ ds ≠ [] ∧ rest = [] then
      some (some (if negative then -(ofDigits ds : Int) else ofDigits ds))
    else none

/-- A minus sign at most, whole digits without a leading zero, and then a fraction and an exponent
or one of them or neither. -/
def ofChars? (cs : List Char) : Option Literal := do
  let (negative, cs) := match cs with
    | '-' :: rest => (true, rest)
    | cs => (false, cs)
  let (whole, cs) := digits cs
  if whole = [] ∨ (whole.head? = some 0 ∧ whole.length ≠ 1) then none
  match cs with
  | '.' :: rest =>
    let (fraction, rest) := digits rest
    if fraction = [] then none
    return { negative, whole, fraction, exponent := ← exponent? rest }
  | cs => return { negative, whole, fraction := [], exponent := ← exponent? cs }

/-- Appends digits to a significand while it fits 64 bits, and gives back the digits left over. -/
def absorb (significand : Nat) : List Nat → Nat × List Nat
  | [] => (significand, [])
  | d :: ds =>
    if significand * 10 + d < UInt64.size then absorb (significand * 10 + d) ds
    else (significand, d :: ds)

/-- The greatest power of ten by which a number is scaled at once. -/
def scaleLimit : Nat := 308

def powerOfTen? (n : Nat) : Option Binary64 := Binary64.ofRatio? (Nat.pow 10 n) 1

/-- Divides by a power of ten, rounding after each step of at most `scaleLimit` powers. -/
def scaleDown? (x : Binary64) (n : Nat) : Option Binary64 :=
  if x.isZero then some x
  else if n ≤ scaleLimit then do x.div? (← powerOfTen? n)
  else do scaleDown? (← x.div? (← powerOfTen? scaleLimit)) (n - scaleLimit)
termination_by n
decreasing_by simp only [scaleLimit] at *; omega

/-- Multiplies by a power of ten. What is not zero has no value beyond `scaleLimit` powers. -/
def scaleUp? (x : Binary64) (n : Nat) : Option Binary64 :=
  if x.isZero then some x
  else if n ≤ scaleLimit then do x.mul? (← powerOfTen? n)
  else none

/-- The significand is rounded first and then scaled, so that a long text may miss the nearest
number by a little. Digits for which the significand has no room count by their place only. -/
def real? (l : Literal) : Option Binary64 := do
  let (significand, excess) := absorb 0 l.whole
  let (significand, ignored) := absorb significand l.fraction
  let places : Int := excess.length - (l.fraction.length - ignored.length : Nat)
  let power := places + l.exponent.getD 0
  let x ← Binary64.ofRatio? significand 1
  let x ← if 0 ≤ power then scaleUp? x power.toNat else scaleDown? x power.natAbs
  return x.withSign l.negative

/-- The whole number that a text without fraction and exponent stands for, if it is kept exactly. -/
def integer? (l : Literal) : Option Int :=
  let n := ofDigits l.whole
  if l.fraction ≠ [] ∨ l.exponent.isSome then none
  else if l.negative then (if 0 < n ∧ Int64.minValue.toInt ≤ -n then some (-n) else none)
  else if n < UInt64.size then some n else none

def number? (l : Literal) : Option Number :=
  match l.integer? with
  | some n => some (.integer n)
  | none => l.real?.map .real

end Literal

end FocusRules.Json
