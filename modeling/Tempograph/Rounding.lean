import Mathlib.Data.Int.Log
import Mathlib.Data.Rat.Floor
import Mathlib.Tactic

/-!
Rounding to the nearest, ties to even.

Rational numbers are rounded to a grid: the multiples of a unit. A decimal format has one
unit for all numbers. A binary format of precision `p` has the unit that leaves `p` binary
digits; it has no largest and no smallest exponent here.
-/

namespace Tempograph.Rounding

variable {x y u : ℚ} {z k m e : ℤ} {p : ℕ}

/-- The nearest integer, and the even one of two. -/
def roundEven (x : ℚ) : ℤ :=
  if x - ⌊x⌋ < 1 / 2 then ⌊x⌋
  else if 1 / 2 < x - ⌊x⌋ then ⌊x⌋ + 1
  else ⌊x⌋ + ⌊x⌋ % 2

/-- The nearest multiple of `u`. -/
def nearest (u x : ℚ) : ℚ := u * roundEven (x / u)

/-- The unit of the binary digits of `x`. -/
def ulp (p : ℕ) (x : ℚ) : ℚ := 2 ^ (Int.log 2 |x| + 1 - p)

def toFloat (p : ℕ) (x : ℚ) : ℚ := nearest (ulp p x) x

/-! ### Integers -/

/-- The nearest integer is at most a half away, and even if there are two. -/
lemma roundEven_spec (x : ℚ) :
    |(roundEven x : ℚ) - x| < 1 / 2 ∨ |(roundEven x : ℚ) - x| = 1 / 2 ∧ roundEven x % 2 = 0 := by
  have hlo := Int.floor_le x
  have hhi := Int.lt_floor_add_one x
  unfold roundEven
  split_ifs with h1 h2
  · left
    rw [abs_lt]
    constructor <;> linarith
  · left
    push_cast
    rw [abs_lt]
    constructor <;> linarith
  · right
    have hhalf : x - ⌊x⌋ = 1 / 2 := le_antisymm (not_lt.mp h2) (not_lt.mp h1)
    refine ⟨?_, by omega⟩
    rcases Int.emod_two_eq_zero_or_one ⌊x⌋ with h | h
    · rw [h, add_zero, abs_sub_comm, hhalf]
      norm_num
    · have hone : ((⌊x⌋ + 1 : ℤ) : ℚ) - x = 1 / 2 := by
        push_cast
        linarith
      rw [h, hone]
      norm_num

/-- **No other integer is as near.** -/
lemma roundEven_eq (h : |(z : ℚ) - x| < 1 / 2 ∨ |(z : ℚ) - x| = 1 / 2 ∧ z % 2 = 0) :
    roundEven x = z := by
  have hspec := roundEven_spec x
  have hle : |(z : ℚ) - x| ≤ 1 / 2 := h.elim le_of_lt fun h => h.1.le
  have hle' : |(roundEven x : ℚ) - x| ≤ 1 / 2 := hspec.elim le_of_lt fun h => h.1.le
  have hdist : |(roundEven x : ℚ) - z| ≤ |(roundEven x : ℚ) - x| + |(z : ℚ) - x| := by
    rw [abs_sub_comm (z : ℚ) x]
    exact abs_sub_le _ _ _
  rcases lt_or_eq_of_le (hdist.trans (add_le_add hle' hle)) with hlt | heq
  · have hone : |((roundEven x - z : ℤ) : ℚ)| < 1 := by
      push_cast
      linarith
    have hint : |roundEven x - z| < 1 := by exact_mod_cast hone
    have := Int.abs_lt_one_iff.mp hint
    omega
  · -- both are a half away, so both are even
    have h1 : |(z : ℚ) - x| = 1 / 2 := by linarith
    have h2 : |(roundEven x : ℚ) - x| = 1 / 2 := by linarith
    have he := h.resolve_left (by linarith)
    have he' := hspec.resolve_left (by linarith)
    have hone : |((roundEven x - z : ℤ) : ℚ)| ≤ 1 := by
      push_cast
      linarith
    have hint : |roundEven x - z| ≤ 1 := by exact_mod_cast hone
    rw [abs_le] at hint
    omega

@[simp] lemma roundEven_intCast (z : ℤ) : roundEven z = z := roundEven_eq (by simp)

lemma abs_roundEven_sub_le (x : ℚ) : |(roundEven x : ℚ) - x| ≤ 1 / 2 :=
  (roundEven_spec x).elim le_of_lt fun h => h.1.le

lemma roundEven_mono (h : x ≤ y) : roundEven x ≤ roundEven y := by
  by_contra hlt
  push Not at hlt
  have h1 := abs_le.mp (abs_roundEven_sub_le x)
  have h2 := abs_le.mp (abs_roundEven_sub_le y)
  have hgap : (roundEven y : ℚ) + 1 ≤ roundEven x := by exact_mod_cast hlt
  -- then both lie half way between two integers, on the same point
  have hxy : x = y := by linarith
  rw [hxy] at hlt
  exact lt_irrefl _ hlt

/-- Rounding is symmetric about even numbers. -/
lemma roundEven_sub (m : ℤ) (x : ℚ) : roundEven (2 * m - x) = 2 * m - roundEven x := by
  have hdist : |((2 * m - roundEven x : ℤ) : ℚ) - (2 * m - x)| = |(roundEven x : ℚ) - x| := by
    push_cast
    rw [abs_sub_comm]
    congr 1
    ring
  refine roundEven_eq ?_
  rw [hdist]
  rcases roundEven_spec x with h | ⟨h, he⟩
  · exact Or.inl h
  · exact Or.inr ⟨h, by omega⟩

lemma roundEven_neg (x : ℚ) : roundEven (-x) = -roundEven x := by
  simpa using roundEven_sub 0 x

/-! ### Grids -/

lemma abs_nearest_sub_le (hu : 0 < u) (x : ℚ) : |nearest u x - x| ≤ u / 2 := by
  have h := mul_le_mul_of_nonneg_left (abs_roundEven_sub_le (x / u)) hu.le
  rw [← abs_of_pos hu, ← abs_mul, abs_of_pos hu, mul_sub, mul_div_cancel₀ _ hu.ne'] at h
  rw [nearest]
  linarith

lemma nearest_mono (hu : 0 < u) (h : x ≤ y) : nearest u x ≤ nearest u y := by
  refine mul_le_mul_of_nonneg_left ?_ hu.le
  exact_mod_cast roundEven_mono (div_le_div_of_nonneg_right h hu.le)

lemma nearest_multiple (hu : 0 < u) (k : ℤ) : nearest u (u * k) = u * k := by
  rw [nearest, mul_div_cancel_left₀ _ hu.ne', roundEven_intCast]

lemma nearest_nonneg (hu : 0 < u) (hx : 0 ≤ x) : 0 ≤ nearest u x := by
  have h := nearest_mono hu hx
  have hzero := nearest_multiple hu 0
  rw [Int.cast_zero, mul_zero] at hzero
  rwa [hzero] at h

/-! ### Binary digits -/

lemma ulp_pos (p : ℕ) (x : ℚ) : 0 < ulp p x := zpow_pos (by norm_num) _

/-- A multiple of a power of two that is no finer than the unit is kept. -/
lemma toFloat_exact (hx : x = k * 2 ^ e) (he : Int.log 2 |x| + 1 - p ≤ e) : toFloat p x = x := by
  obtain ⟨j, hj⟩ : ∃ j : ℕ, e = Int.log 2 |x| + 1 - p + j :=
    ⟨(e - (Int.log 2 |x| + 1 - p)).toNat, by omega⟩
  have hmul : x = ulp p x * ((k * 2 ^ j : ℤ) : ℚ) := by
    rw [ulp]
    nth_rewrite 1 [hx]
    rw [hj, zpow_add₀ (by norm_num), zpow_natCast]
    push_cast
    ring
  rw [toFloat]
  nth_rewrite 2 [hmul]
  rw [nearest_multiple (ulp_pos p x), ← hmul]

@[simp] lemma toFloat_zero (p : ℕ) : toFloat p 0 = 0 := by
  rw [toFloat, nearest, zero_div, ← Int.cast_zero, roundEven_intCast]
  simp

lemma toFloat_natCast {n : ℕ} (h : n < 2 ^ p) : toFloat p (n : ℚ) = n := by
  rcases Nat.eq_zero_or_pos n with rfl | hn
  · exact toFloat_zero p
  · refine toFloat_exact (k := n) (e := 0) (by simp) ?_
    rw [Nat.abs_cast, Int.log_natCast]
    have := Nat.log_lt_of_lt_pow (by omega) h
    omega

lemma toFloat_nonneg (p : ℕ) (hx : 0 ≤ x) : 0 ≤ toFloat p x := nearest_nonneg (ulp_pos p x) hx

lemma toFloat_neg (p : ℕ) (x : ℚ) : toFloat p (-x) = -toFloat p x := by
  rw [toFloat, toFloat, ulp, ulp, abs_neg, nearest, nearest, neg_div, roundEven_neg]
  push_cast
  ring

/-- The unit is no larger than the number. -/
lemma ulp_le_self (hp : 1 ≤ p) (hx : 0 < x) : ulp p x ≤ x := by
  have hpow : (2 : ℚ) ^ Int.log 2 |x| ≤ x := by
    have := Int.zpow_log_le_self (b := 2) (r := |x|) (by norm_num) (abs_pos.mpr hx.ne')
    rw [abs_of_pos hx] at this ⊢
    exact_mod_cast this
  exact (zpow_le_zpow_right₀ (by norm_num) (by omega)).trans hpow

lemma toFloat_pos (hp : 1 ≤ p) (hx : 0 < x) : 0 < toFloat p x := by
  have hone := nearest_multiple (ulp_pos p x) 1
  rw [Int.cast_one, mul_one] at hone
  calc 0 < ulp p x := ulp_pos p x
    _ = nearest (ulp p x) (ulp p x) := hone.symm
    _ ≤ toFloat p x := nearest_mono (ulp_pos p x) (ulp_le_self hp hx)

/-- **Rounding keeps the sign.** -/
theorem sign_toFloat (hp : 1 ≤ p) (x : ℚ) : SignType.sign (toFloat p x) = SignType.sign x := by
  rcases lt_trichotomy x 0 with h | rfl | h
  · have hneg := toFloat_pos hp (neg_pos.mpr h)
    rw [toFloat_neg, neg_pos] at hneg
    rw [sign_neg h, sign_neg hneg]
  · rw [toFloat_zero]
  · rw [sign_pos h, sign_pos (toFloat_pos hp h)]

/-- A power of two that is on the grid of `x`. -/
lemma zpow_eq_ulp_mul (x : ℚ) (h : Int.log 2 |x| + 1 - p ≤ e) :
    ∃ k : ℤ, (2 : ℚ) ^ e = ulp p x * k := by
  obtain ⟨j, rfl⟩ : ∃ j : ℕ, e = Int.log 2 |x| + 1 - p + j :=
    ⟨(e - (Int.log 2 |x| + 1 - p)).toNat, by omega⟩
  refine ⟨2 ^ j, ?_⟩
  rw [ulp, zpow_add₀ (by norm_num), zpow_natCast]
  push_cast
  rfl

/-- **Rounding keeps the order.** -/
theorem toFloat_mono (hp : 1 ≤ p) (hx : 0 ≤ x) (h : x ≤ y) : toFloat p x ≤ toFloat p y := by
  rcases hx.eq_or_lt with rfl | hpos
  · rw [toFloat_zero]
    exact toFloat_nonneg p h
  have hy : 0 < y := hpos.trans_le h
  have hlog : Int.log 2 |x| ≤ Int.log 2 |y| := by
    rw [abs_of_pos hpos, abs_of_pos hy]
    exact Int.log_mono_right hpos h
  rcases hlog.eq_or_lt with heq | hlt
  · have hulp : ulp p x = ulp p y := by rw [ulp, ulp, heq]
    rw [toFloat, toFloat, hulp]
    exact nearest_mono (ulp_pos p y) h
  · -- a power of two lies between them, and on both grids
    obtain ⟨k, hk⟩ := zpow_eq_ulp_mul (p := p) (e := Int.log 2 |x| + 1) x (by omega)
    obtain ⟨m, hm⟩ := zpow_eq_ulp_mul (p := p) (e := Int.log 2 |y|) y (by omega)
    have hupper : x ≤ 2 ^ (Int.log 2 |x| + 1) := by
      have := Int.lt_zpow_succ_log_self (b := 2) (by norm_num) |x|
      rw [abs_of_pos hpos] at this ⊢
      exact_mod_cast this.le
    have hlower : (2 : ℚ) ^ Int.log 2 |y| ≤ y := by
      have := Int.zpow_log_le_self (b := 2) (r := |y|) (by norm_num) (abs_pos.mpr hy.ne')
      rw [abs_of_pos hy] at this ⊢
      exact_mod_cast this
    calc toFloat p x ≤ nearest (ulp p x) (ulp p x * k) := nearest_mono (ulp_pos p x) (hk ▸ hupper)
      _ = 2 ^ (Int.log 2 |x| + 1) := by rw [nearest_multiple (ulp_pos p x), hk]
      _ ≤ 2 ^ Int.log 2 |y| := zpow_le_zpow_right₀ (by norm_num) (by omega)
      _ = nearest (ulp p y) (ulp p y * m) := by rw [nearest_multiple (ulp_pos p y), hm]
      _ ≤ toFloat p y := nearest_mono (ulp_pos p y) (hm ▸ hlower)

lemma toFloat_one (hp : 1 ≤ p) : toFloat p 1 = 1 := by
  have h := toFloat_natCast (n := 1) (p := p) (Nat.one_lt_two_pow (by omega))
  rwa [Nat.cast_one] at h

/-- Below one the unit is at most `2 ^ (-p)`. -/
lemma ulp_le (hx : 0 < x) (h : x < 1) : ulp p x ≤ 2 ^ (-p : ℤ) := by
  refine zpow_le_zpow_right₀ (by norm_num) ?_
  have hlog : Int.log 2 x < 0 := by
    rw [← Int.lt_zpow_iff_log_lt (by norm_num) hx, zpow_zero]
    exact h
  rw [abs_of_pos hx]
  omega

/-- **Up to one the error is at most a half of `2 ^ (-p)`.** -/
lemma abs_toFloat_sub_le (hp : 1 ≤ p) (hx : 0 ≤ x) (h : x ≤ 1) :
    |toFloat p x - x| ≤ 2 ^ (-p : ℤ) / 2 := by
  have hpos : (0 : ℚ) < 2 ^ (-p : ℤ) := zpow_pos (by norm_num) _
  rcases hx.eq_or_lt with rfl | hx
  · rw [toFloat_zero, sub_zero, abs_zero]
    linarith
  rcases h.eq_or_lt with rfl | h
  · rw [toFloat_one hp, sub_self, abs_zero]
    linarith
  · have := abs_nearest_sub_le (ulp_pos p x) x
    have hu := ulp_le (p := p) hx h
    rw [toFloat]
    linarith

/-- A multiple of `2 ^ (-p)` up to one is kept. -/
lemma toFloat_multiple (hp : 1 ≤ p) (hk : x = k * 2 ^ (-p : ℤ)) (hx : 0 ≤ x) (h : x ≤ 1) :
    toFloat p x = x := by
  rcases hx.eq_or_lt with rfl | hx
  · exact toFloat_zero p
  rcases h.eq_or_lt with rfl | h
  · exact toFloat_one hp
  refine toFloat_exact hk ?_
  have hlog : Int.log 2 x < 0 := by
    rw [← Int.lt_zpow_iff_log_lt (by norm_num) hx, zpow_zero]
    exact h
  rw [abs_of_pos hx]
  omega

/-- **Upwards of a half, what is left to one is exact.** -/
theorem toFloat_one_sub (hp : 1 ≤ p) (hx : 1 / 2 ≤ x) (h : x ≤ 1) :
    toFloat p (1 - toFloat p x) = 1 - toFloat p x := by
  have hlower : 1 / 2 ≤ toFloat p x := by
    have hhalf : toFloat p (1 / 2) = 1 / 2 :=
      toFloat_exact (k := 1) (e := -1) (by norm_num) (by
        have : Int.log 2 |(1 / 2 : ℚ)| = -1 := by
          rw [abs_of_pos (by norm_num), show (1 / 2 : ℚ) = ((2 : ℕ) : ℚ) ^ (-1 : ℤ) by norm_num,
            Int.log_zpow (by norm_num)]
        omega)
    rw [← hhalf]
    exact toFloat_mono hp (by norm_num) hx
  have hupper : toFloat p x ≤ 1 := by
    rw [← toFloat_one hp]
    exact toFloat_mono hp (by linarith) h
  rcases h.eq_or_lt with rfl | hlt
  · rw [toFloat_one hp, sub_self, toFloat_zero]
  -- the unit of `x` is `2 ^ (-p)`
  have hlog : Int.log 2 |x| = -1 := by
    rw [abs_of_pos (by linarith)]
    have h1 : Int.log 2 x < 0 := by
      rw [← Int.lt_zpow_iff_log_lt (by norm_num) (by linarith), zpow_zero]
      exact hlt
    have h2 : -1 ≤ Int.log 2 x := by
      rw [← Int.zpow_le_iff_le_log (by norm_num) (by linarith)]
      norm_num
      linarith
    omega
  have hunit : ulp p x = 2 ^ (-p : ℤ) := by
    rw [ulp, hlog]
    congr 1
    omega
  refine toFloat_multiple (k := 2 ^ p - roundEven (x / ulp p x)) hp ?_ (by linarith) (by linarith)
  have hone : (2 : ℚ) ^ p * 2 ^ (-p : ℤ) = 1 := by
    rw [zpow_neg, zpow_natCast]
    exact mul_inv_cancel₀ (by positivity)
  push_cast
  rw [sub_mul, hone, toFloat, nearest, hunit]
  ring

end Tempograph.Rounding
