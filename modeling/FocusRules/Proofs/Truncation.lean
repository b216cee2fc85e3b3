import FocusRules.Proofs.LoadCondition
import Mathlib.Data.Rat.Floor
import Mathlib.Tactic.Linarith
import Mathlib.Tactic.Positivity

/-! Numbers as values of rules, in terms of the rational number that they stand for. A value is the
number rounded toward zero, and there is one if the number lies strictly between the two whole
numbers next beyond 32 bits. -/

namespace FocusRules

def towardZero (q : ℚ) : ℤ := if 0 ≤ q then ⌊q⌋ else ⌈q⌉

section

variable {q : ℚ} {k : ℤ}

theorem towardZero_of_nonneg (h : 0 ≤ q) : towardZero q = ⌊q⌋ := if_pos h

theorem towardZero_of_neg (h : q < 0) : towardZero q = ⌈q⌉ := if_neg (not_le.2 h)

theorem towardZero_intCast (k : ℤ) : towardZero k = k := by
  rw [towardZero, Int.floor_intCast, Int.ceil_intCast, ite_self]

theorem towardZero_neg (q : ℚ) : towardZero (-q) = -towardZero q := by
  obtain h | rfl | h := lt_trichotomy q 0
  · rw [towardZero_of_nonneg (by linarith), towardZero_of_neg h, Int.floor_neg]
  · rw [neg_zero, towardZero_of_nonneg le_rfl, Int.floor_zero, neg_zero]
  · rw [towardZero_of_neg (by linarith), towardZero_of_nonneg h.le, Int.ceil_neg]

/-- Below zero the fraction may fall on either side of a limit, and it is dropped upward. -/
theorem lt_towardZero_iff (hk : k < 0) : k < towardZero q ↔ (k : ℚ) < q := by
  obtain h | h := le_or_gt 0 q
  · have hfloor : 0 ≤ ⌊q⌋ := Int.floor_nonneg.2 h
    have hcast : (k : ℚ) < 0 := Int.cast_lt_zero.2 hk
    rw [towardZero_of_nonneg h]
    exact iff_of_true (by omega) (by linarith)
  · rw [towardZero_of_neg h, Int.lt_ceil]

theorem towardZero_lt_iff (hk : 0 < k) : towardZero q < k ↔ q < (k : ℚ) := by
  have hneg := lt_towardZero_iff (q := -q) (k := -k) (by omega)
  rwa [towardZero_neg, Int.neg_lt_neg_iff, Int.cast_neg, neg_lt_neg_iff] at hneg

end

def Binary64.value (x : Binary64) : ℚ :=
  (if x.negative then -1 else 1) * x.mantissa * 2 ^ x.exponent

def Json.Number.value : Json.Number → ℚ
  | .integer n => n
  | .real x => x.value

theorem Binary64.num_div_den (x : Binary64) :
    (x.num : ℚ) / x.den = x.mantissa * 2 ^ x.exponent := by
  obtain ⟨t, ht | ht⟩ := Int.eq_nat_or_neg x.exponent
  · simp [num, den, ht]
  · simp [num, den, ht, div_eq_mul_inv]

theorem Binary64.truncate_eq (x : Binary64) : x.truncate = towardZero x.value := by
  have hquotient : towardZero ((x.num : ℚ) / x.den) = (x.num / x.den : ℕ) := by
    rw [towardZero_of_nonneg (by positivity), Rat.floor_natCast_div_natCast, Int.natCast_ediv]
  rw [truncate, value, mul_assoc, ← num_div_den]
  split
  · rw [neg_one_mul, towardZero_neg, hquotient]
  · rw [one_mul, hquotient]

theorem Json.Number.truncate_eq (n : Json.Number) : n.truncate = towardZero n.value := by
  cases n with
  | integer n => exact (towardZero_intCast n).symm
  | real x => exact x.truncate_eq

namespace Value

def HasRoom (k : ℤ) : Prop := -2 ^ 31 ≤ k ∧ k ≤ 2 ^ 31 - 1

theorem hasRoom_iff {k : ℤ} : HasRoom k ↔ ∃ stored : Int32, stored.toInt = k := by
  have hmin : Int32.minValue.toInt = -2 ^ 31 := rfl
  have hmax : Int32.maxValue.toInt = 2 ^ 31 - 1 := rfl
  rw [HasRoom, ← hmin, ← hmax]
  constructor
  · exact fun h => ⟨Int32.ofInt k, Int32.toInt_ofInt_of_le h.1 (by omega)⟩
  · rintro ⟨stored, rfl⟩
    exact ⟨stored.minValue_le_toInt, stored.toInt_le⟩

theorem hasRoom_towardZero_iff {q : ℚ} : HasRoom (towardZero q) ↔ -2 ^ 31 - 1 < q ∧ q < 2 ^ 31 := by
  have hlow := lt_towardZero_iff (q := q) (k := (-2 ^ 31 - 1 : ℤ)) (by norm_num)
  have hhigh := towardZero_lt_iff (q := q) (k := (2 ^ 31 : ℤ)) (by norm_num)
  rw [Int.cast_sub, Int.cast_neg, Int.cast_pow, Int.cast_ofNat, Int.cast_one] at hlow
  rw [Int.cast_pow, Int.cast_ofNat] at hhigh
  rw [← hlow, ← hhigh, HasRoom]
  omega

theorem exists_stored_iff {n : Json.Number} {k : ℤ} :
    (∃ stored : Int32, stored.toInt = k ∧ numberOfJson n = .ok (.number stored)) ↔
      k = towardZero n.value ∧ HasRoom k := by
  simp only [numberOfJson_eq_ok, n.truncate_eq, hasRoom_iff]
  constructor
  · rintro ⟨stored, rfl, stored', hv, he⟩
    obtain rfl := Value.number.inj hv
    exact ⟨he, stored, rfl⟩
  · rintro ⟨he, stored, rfl⟩
    exact ⟨stored, rfl, stored, rfl, he⟩

theorem exists_numberOfJson_eq_ok_iff {n : Json.Number} :
    (∃ value, numberOfJson n = .ok value) ↔ HasRoom (towardZero n.value) := by
  simp only [numberOfJson_eq_ok, n.truncate_eq, hasRoom_iff]
  constructor
  · rintro ⟨-, stored, -, he⟩
    exact ⟨stored, he⟩
  · rintro ⟨stored, he⟩
    exact ⟨_, stored, rfl, he⟩

theorem numberOfJson_eq_error {n : Json.Number} {f : Fault} : numberOfJson n = .error f ↔
    f = ⟨[], .outOfRange n⟩ ∧ ¬HasRoom (towardZero n.value) := by
  rw [← exists_numberOfJson_eq_ok_iff, numberOfJson_eq]
  split
  next => simp
  next => simp [Load.fail, eq_comm]

/-- A number is read as what is left when it is rounded toward zero, if 32 bits have room for that,
and otherwise it is out of range, at the path where it stands. So what counts is whether the number
lies strictly between the whole numbers next beyond 32 bits, and what is stored is never another
number. -/
theorem numbers_truncate_or_fail (n : Json.Number) (path : List Segment) :
    let read := path.foldr Load.within (numberOfJson n)
    (∀ k : ℤ, (∃ stored : Int32, stored.toInt = k ∧ read = .ok (.number stored)) ↔
      k = towardZero n.value ∧ -2 ^ 31 ≤ k ∧ k ≤ 2 ^ 31 - 1) ∧
    (∀ f, read = .error f ↔ f = ⟨path, .outOfRange n⟩ ∧
      ¬(-2 ^ 31 ≤ towardZero n.value ∧ towardZero n.value ≤ 2 ^ 31 - 1)) ∧
    ((∃ value, read = .ok value) ↔ -2 ^ 31 - 1 < n.value ∧ n.value < 2 ^ 31) ∧
    ∀ value, read = .ok value ↔
      ∃ stored : Int32, value = .number stored ∧ stored.toInt = towardZero n.value := by
  intro read
  have hread : ∀ value, read = .ok value ↔ numberOfJson n = .ok value :=
    fun _ => Load.foldr_within_eq_ok
  simp only [hread]
  refine ⟨fun k => exists_stored_iff, fun f => ?_, ?_, fun value => ?_⟩
  · rw [Load.foldr_within_eq_error]
    simp only [numberOfJson_eq_error]
    constructor
    · rintro ⟨g, ⟨rfl, hroom⟩, rfl⟩
      exact ⟨by rw [List.append_nil], hroom⟩
    · rintro ⟨rfl, hroom⟩
      exact ⟨_, ⟨rfl, hroom⟩, by rw [List.append_nil]⟩
  · exact exists_numberOfJson_eq_ok_iff.trans hasRoom_towardZero_iff
  · rw [numberOfJson_eq_ok, n.truncate_eq]

/-- The floating-point number next above `-2 ^ 31 - 1` is still read, and that number is not. -/
example :
    let lowest : Binary64 := ⟨true, 2147483649 * 2 ^ 21, -21⟩
    numberOfJson (.real { lowest with mantissa := lowest.mantissa - 1 }) =
        .ok (.number Int32.minValue) ∧
      numberOfJson (.real lowest) = Load.fail (.outOfRange (.real lowest)) :=
  ⟨rfl, rfl⟩

end Value

end FocusRules
