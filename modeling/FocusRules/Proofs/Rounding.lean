import FocusRules.Document.Loader
import Mathlib.Algebra.Order.Ring.Nat

/-! Whole numbers beyond 64 bits as floating-point numbers. Rounding loses less than half of a
number, so what has no room in 64 bits has none in 32 bits after it was rounded, and a number is
read as if its fraction was dropped from the exact value. -/

namespace FocusRules

theorem div_le_roundDiv (num den : ℕ) : num / den ≤ roundDiv num den := by
  simp only [roundDiv]
  split <;> omega

namespace Binary64

variable {num : ℕ} {x : Binary64}

/-- The place of the last digit of the mantissa, for a number of more digits than that has. -/
theorem exists_exponentFor_eq (h : 2 ^ 53 ≤ num) :
    ∃ t : ℕ, exponentFor num 1 = t ∧ 2 * 2 ^ t ≤ num := by
  have hlog : 53 ≤ num.log2 := (Nat.le_log2 (by omega)).2 h
  have hplace : ∀ t : ℕ, t + 52 ≤ num.log2 → 2 * 2 ^ t ≤ num := by
    intro t ht
    calc 2 * 2 ^ t
      _ = 2 ^ (t + 1) := by rw [Nat.pow_succ, Nat.mul_comm]
      _ ≤ 2 ^ num.log2 := Nat.pow_le_pow_right (by omega) (by omega)
      _ ≤ num := Nat.log2_self_le (by omega)
  have hone : (1 : ℕ).log2 = 0 := by decide
  have hcases : exponentFor num 1 = num.log2 - 53 ∨ exponentFor num 1 = num.log2 - 52 := by
    rw [exponentFor, hone]
    dsimp only [precision, minExponent]
    split_ifs <;> omega
  obtain hexp | hexp := hcases
  · exact ⟨num.log2 - 53, by omega, hplace _ (by omega)⟩
  · exact ⟨num.log2 - 52, by omega, hplace _ (by omega)⟩

theorem num_div_den_mk (negative : Bool) (mantissa t : ℕ) :
    (⟨negative, mantissa, t⟩ : Binary64).num / (⟨negative, mantissa, t⟩ : Binary64).den =
      mantissa * 2 ^ t := by
  have hneg : (-(t : ℤ)).toNat = 0 := by omega
  simp [num, den, hneg]

theorem le_two_mul_of_ofRatio? (h : 2 ^ 53 ≤ num) (hx : ofRatio? num 1 = some x) :
    num ≤ 2 * (x.num / x.den) := by
  obtain ⟨t, ht, hle⟩ := exists_exponentFor_eq h
  have hneg : (-(t : ℤ)).toNat = 0 := by omega
  -- the mantissa may be one that a carry makes too long, which moves into the exponent
  have hvalue : x.num / x.den = roundDiv num (2 ^ t) * 2 ^ t := by
    rw [ofRatio?, if_neg (by omega)] at hx
    simp only [ht, hneg, Int.toNat_natCast, Nat.pow_eq, Nat.pow_zero, Nat.mul_one, Nat.one_mul,
      Option.ite_none_right_eq_some, Option.some.injEq] at hx
    obtain ⟨-, rfl⟩ := hx
    split
    next hcarry =>
      refine (num_div_den_mk false (2 ^ 52) (t + 1)).trans ?_
      rw [hcarry, precision, Nat.pow_succ]
      omega
    next => exact num_div_den_mk false _ t
  have hround : 2 ^ t * (num / 2 ^ t) ≤ roundDiv num (2 ^ t) * 2 ^ t := by
    rw [Nat.mul_comm]
    exact Nat.mul_le_mul_right _ (div_le_roundDiv num (2 ^ t))
  have hdiv := Nat.div_add_mod num (2 ^ t)
  have hmod : num % 2 ^ t < 2 ^ t := Nat.mod_lt _ (Nat.two_pow_pos t)
  omega

theorem natAbs_truncate (x : Binary64) : x.truncate.natAbs = x.num / x.den := by
  rw [truncate]
  split
  · rw [Int.natAbs_neg, Int.natAbs_natCast]
  · rw [Int.natAbs_natCast]

end Binary64

namespace Value

/-- What has no room in 64 bits has none in 32 bits, rounded or not. -/
theorem ofInt?_eq_none {n : ℤ} (h : 2 ^ 62 ≤ n.natAbs) : ofInt? n = none := by
  have hmin : Int32.minValue.toInt = -2147483648 := rfl
  have hmax : Int32.maxValue.toInt = 2147483647 := rfl
  rw [ofInt?, if_neg (by omega)]

theorem ofInt?_binary64?_integer {n : ℤ} (h : 2 ^ 63 ≤ n.natAbs) :
    ((Json.Number.integer n).binary64?.map Binary64.truncate).bind ofInt? = none := by
  rw [Json.Number.binary64?]
  cases hx : Binary64.ofRatio? n.natAbs 1 with
  | none => rfl
  | some x =>
    have hle := Binary64.le_two_mul_of_ofRatio? (by omega) hx
    have habs : (x.withSign (n < 0)).truncate.natAbs = x.num / x.den :=
      Binary64.natAbs_truncate _
    exact ofInt?_eq_none (habs ▸ by omega)

/-- However a number is kept, what is left of it is what dropping its fraction leaves, as far as 32
bits have room for that. -/
theorem whole?_bind_ofInt? (n : Json.Number) : n.whole?.bind ofInt? = ofInt? n.truncate := by
  cases n with
  | real x => rfl
  | integer n =>
    have hmin : Int64.minValue.toInt = -9223372036854775808 := rfl
    have hmax : Int64.maxValue.toInt = 9223372036854775807 := rfl
    rw [Json.Number.truncate, Json.Number.whole?, Json.Number.int64?]
    split_ifs with h
    · have hn : (Int64.ofInt n).toInt = n := Int64.toInt_ofInt_of_le h.1 (by omega)
      exact congrArg ofInt? hn
    · rw [ofInt?_eq_none (n := n) (by omega)]
      exact ofInt?_binary64?_integer (by omega)

theorem numberOfJson_eq (n : Json.Number) : numberOfJson n =
    if Int32.minValue.toInt ≤ n.truncate ∧ n.truncate ≤ Int32.maxValue.toInt then
      .ok (.number (Int32.ofInt n.truncate))
    else .fail (.outOfRange n) := by
  rw [numberOfJson, whole?_bind_ofInt?, ofInt?]
  split_ifs <;> rfl

end Value

end FocusRules
