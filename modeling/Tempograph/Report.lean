import Tempograph.CommandLine
import Tempograph.Rounding

/-!
What `main.c` prints: a row for each pass, with its counts and two rates.

The rates are computed as a `float` and printed in six decimals. They stay close to the counts
and in their order, and add up to one, though not always to the last digit. The time of a pass
comes from a clock; it is whatever the clock says. Numbers are printed as `printf` of glibc
does, which rounds the exact value to the nearest, ties to even.
-/

namespace Tempograph.Report

open Common LoadTrace Preprocess Runs Sim Isolation CommandLine Rounding

variable {N k k' d : ℕ} {x y : ℚ}

/-- The binary digits of a `float`. -/
def floatDigits : ℕ := 24

def faultRate (r : SimResult) : ℚ :=
  toFloat floatDigits (toFloat floatDigits r.nFaults / toFloat floatDigits r.nAccesses)

def hitRate (r : SimResult) : ℚ := toFloat floatDigits (1 - faultRate r)

/-! ### Printing -/

def pad (d : ℕ) (s : List Char) : List Char := List.replicate (d - s.length) '0' ++ s

/-- A number in `d` decimals. -/
def fixed (d : ℕ) (x : ℚ) : List Char :=
  (if x < 0 then ['-'] else []) ++
    Nat.toDigits 10 ((roundEven (|x| * 10 ^ d)).natAbs / 10 ^ d) ++
      '.' :: pad d (Nat.toDigits 10 ((roundEven (|x| * 10 ^ d)).natAbs % 10 ^ d))

/-- The table `ALGO_NAMES`. -/
def algoName : Algo → List Char
  | .lru => ['L', 'R', 'U']
  | .lfu => ['L', 'F', 'U']
  | .arc => ['A', 'R', 'C']
  | .tempograph => ['T', 'e', 'm', 'p', 'o', 'G', 'r', 'a', 'p', 'h']
  | .sieve => ['S', 'I', 'E', 'V', 'E']

/-- The fields of a row. -/
def fields (algo_name : List Char) (n_frames : ℤ) (r : SimResult) (time_ms : ℚ) :
    List (List Char) :=
  [algo_name, pyStr n_frames, pyStr r.nAccesses, pyStr r.nFaults, fixed 6 (faultRate r),
    fixed 6 (hitRate r), fixed 2 time_ms]

def printResult (algo_name : List Char) (n_frames : ℤ) (r : SimResult) (time_ms : ℚ) : List Char :=
  [','].intercalate (fields algo_name n_frames r time_ms) ++ ['\n']

def columns : List (List Char) :=
  ["algorithm", "frames", "accesses", "faults", "fault_rate", "hit_rate", "time_ms"].map
    String.toList

/-- The first line. -/
def header : List Char := [','].intercalate columns ++ ['\n']

/-- The rows of the passes; the clock says how long each of them took. -/
def printRows (clock : Pass → ℚ) (passes : List Pass) (rs : List SimResult) : List Char :=
  (passes.zip rs).flatMap fun p => printResult (algoName p.1.algo) p.1.nFrames p.2 (clock p.1)

/-- What the program prints, unless a pass is undefined. -/
def stdout (overflow : List UInt8 → Int32) (M : Malloc) (files : Arg → Option (List UInt8))
    (clock : Pass → ℚ) (args : List Arg) : Except Refusal (Option (List Char)) :=
  match accept overflow files args with
  | .error e => .error e
  | .ok (o, trace) =>
    .ok ((outputs (simulate M trace) start (passes o)).map fun rs =>
      header ++ printRows clock (passes o) rs)

/-! ### Rates -/

lemma toFloat_count (h : k ≤ maxTrace) : toFloat floatDigits (k : ℚ) = k :=
  toFloat_natCast (by simp only [maxTrace, floatDigits] at *; omega)

/-- Both counts are exact, so the rate is rounded once. -/
lemma faultRate_eq (hN : N ≤ maxTrace) (hk : k ≤ N) :
    faultRate ⟨N, k⟩ = toFloat floatDigits ((k : ℚ) / N) := by
  rw [faultRate, toFloat_count (hk.trans hN), toFloat_count hN]

lemma ratio_mem (hN : 1 ≤ N) (hk : k ≤ N) : 0 ≤ (k : ℚ) / N ∧ (k : ℚ) / N ≤ 1 := by
  have hpos : (0 : ℚ) < N := by exact_mod_cast hN
  exact ⟨by positivity, (div_le_one hpos).mpr (by exact_mod_cast hk)⟩

/-- The error of one rounding. -/
def eps : ℚ := 2 ^ (-24 : ℤ) / 2

lemma faultRate_spec (hN : 1 ≤ N) (hN' : N ≤ maxTrace) (hk : k ≤ N) :
    |faultRate ⟨N, k⟩ - (k : ℚ) / N| ≤ eps ∧ 0 ≤ faultRate ⟨N, k⟩ ∧ faultRate ⟨N, k⟩ ≤ 1 := by
  obtain ⟨h0, h1⟩ := ratio_mem hN hk
  rw [faultRate_eq hN' hk]
  refine ⟨abs_toFloat_sub_le (by decide) h0 h1, toFloat_nonneg _ h0, ?_⟩
  rw [← toFloat_one (p := floatDigits) (by decide)]
  exact toFloat_mono (by decide) h0 h1

lemma hitRate_spec (hN : 1 ≤ N) (hN' : N ≤ maxTrace) (hk : k ≤ N) :
    |hitRate ⟨N, k⟩ - (1 - faultRate ⟨N, k⟩)| ≤ eps ∧ 0 ≤ hitRate ⟨N, k⟩ ∧
      hitRate ⟨N, k⟩ ≤ 1 := by
  obtain ⟨-, h0, h1⟩ := faultRate_spec hN hN' hk
  refine ⟨abs_toFloat_sub_le (by decide) (by linarith) (by linarith),
    toFloat_nonneg _ (by linarith), ?_⟩
  rw [← toFloat_one (p := floatDigits) (by decide)]
  exact toFloat_mono (by decide) (by linarith) (by linarith)

/-- Two rates of one trace are farther apart than they are rounded. -/
lemma ratio_gap (hN : 1 ≤ N) (h : k < k') : (k : ℚ) / N + 1 / N ≤ (k' : ℚ) / N := by
  have hpos : (0 : ℚ) < N := by exact_mod_cast hN
  rw [← add_div, div_le_div_iff_of_pos_right hpos]
  exact_mod_cast h

lemma one_div_le {m : ℕ} (hN : 1 ≤ N) (h : N ≤ m) : (1 : ℚ) / m ≤ 1 / N := by
  have hpos : (0 : ℚ) < N := by exact_mod_cast hN
  exact one_div_le_one_div_of_le hpos (by exact_mod_cast h)

/-- **The rates keep the order of the counts.** -/
lemma rates_lt (hN : 1 ≤ N) (hN' : N ≤ maxTrace) (h : k < k') (hk' : k' ≤ N) :
    faultRate ⟨N, k⟩ < faultRate ⟨N, k'⟩ ∧ hitRate ⟨N, k'⟩ < hitRate ⟨N, k⟩ := by
  obtain ⟨hf, -⟩ := faultRate_spec hN hN' (h.le.trans hk')
  obtain ⟨hf', -⟩ := faultRate_spec hN hN' hk'
  obtain ⟨hh, -⟩ := hitRate_spec hN hN' (h.le.trans hk')
  obtain ⟨hh', -⟩ := hitRate_spec hN hN' hk'
  have hgap := ratio_gap hN h
  have hstep := one_div_le hN hN'
  have hsmall : 4 * eps < 1 / maxTrace := by norm_num [eps, maxTrace]
  rw [abs_le] at hf hf' hh hh'
  have hpos : 0 < eps := by norm_num [eps]
  constructor <;> linarith

/-! ### Decimals -/

/-- The value of what is printed. -/
def decimal (d : ℕ) (x : ℚ) : ℚ := nearest (1 / 10 ^ d) x

lemma decimal_eq (d : ℕ) (x : ℚ) : decimal d x = roundEven (x * 10 ^ d) / 10 ^ d := by
  rw [decimal, nearest, div_div_eq_mul_div, div_one, one_div, inv_mul_eq_div]

lemma unit_pos (d : ℕ) : (0 : ℚ) < 1 / 10 ^ d := by positivity

/-- The number that a text with a point stands for. -/
def readFixed (s : List Char) : ℚ :=
  Nat.ofDigitChars 10 (s.takeWhile (· ≠ '.')) 0 +
    Nat.ofDigitChars 10 (s.dropWhile (· ≠ '.')).tail 0 / 10 ^ (s.dropWhile (· ≠ '.')).tail.length

/-- **What is printed is read as the rounded number.** -/
lemma readFixed_fixed (hd : 1 ≤ d) (hx : 0 ≤ x) : readFixed (fixed d x) = decimal d x := by
  have hpos : 0 < 10 ^ d := Nat.pow_pos (by decide)
  obtain ⟨m, hm⟩ : ∃ m : ℕ, roundEven (x * 10 ^ d) = m := by
    have hmono := roundEven_mono (show 0 ≤ x * 10 ^ d by positivity)
    rw [show (0 : ℚ) = ((0 : ℤ) : ℚ) by norm_num, roundEven_intCast] at hmono
    exact ⟨_, (Int.toNat_of_nonneg hmono).symm⟩
  have htext : fixed d x =
      Nat.toDigits 10 (m / 10 ^ d) ++ '.' :: pad d (Nat.toDigits 10 (m % 10 ^ d)) := by
    simp only [fixed, abs_of_nonneg hx, hm, Int.natAbs_natCast, if_neg (not_lt.mpr hx),
      List.nil_append]
  have hpoint : ∀ c ∈ Nat.toDigits 10 (m / 10 ^ d), decide (c ≠ '.') = true := fun c hc => by
    rw [decide_eq_true_iff]
    rintro rfl
    exact absurd (isDigit_of_mem hc) (by decide)
  have hlen : (Nat.toDigits 10 (m % 10 ^ d)).length ≤ d := by
    rw [Nat.length_toDigits_le_iff (by decide) hd]
    exact Nat.mod_lt _ hpos
  have hfrac : (pad d (Nat.toDigits 10 (m % 10 ^ d))).length = d := by
    rw [pad, List.length_append, List.length_replicate]
    omega
  have hvalue : Nat.ofDigitChars 10 (pad d (Nat.toDigits 10 (m % 10 ^ d))) 0 = m % 10 ^ d := by
    rw [pad, Nat.ofDigitChars_append, Nat.ofDigitChars_replicate_zero, Nat.mul_zero,
      Nat.ofDigitChars_ten_toDigits]
  have hsplit : (m : ℚ) = (m / 10 ^ d : ℕ) * 10 ^ d + (m % 10 ^ d : ℕ) := by
    exact_mod_cast (Nat.div_add_mod' m (10 ^ d)).symm
  rw [readFixed, htext, List.takeWhile_append_of_pos hpoint, List.dropWhile_append_of_pos hpoint]
  simp only [List.takeWhile_cons, List.dropWhile_cons, ne_eq, not_true_eq_false, decide_false,
    Bool.false_eq_true, if_false, List.append_nil, List.tail_cons, hfrac, hvalue,
    Nat.ofDigitChars_ten_toDigits]
  have hten : (10 : ℚ) ^ d ≠ 0 := by positivity
  rw [decimal_eq, hm, Int.cast_natCast, hsplit]
  field_simp

/-- The last digit of a rate. -/
def digit6 : ℚ := 1 / 10 ^ 6

lemma abs_decimal_sub_le (x : ℚ) : |decimal 6 x - x| ≤ digit6 / 2 :=
  abs_nearest_sub_le (unit_pos 6) x

/-- **Printed, the rates are within the last digit of the exact ones.** -/
lemma printed_near (hN : 1 ≤ N) (hN' : N ≤ maxTrace) (hk : k ≤ N) :
    |decimal 6 (faultRate ⟨N, k⟩) - (k : ℚ) / N| ≤ digit6 ∧
      |decimal 6 (hitRate ⟨N, k⟩) - (1 - (k : ℚ) / N)| ≤ digit6 := by
  obtain ⟨hf, -⟩ := faultRate_spec hN hN' hk
  obtain ⟨hh, -⟩ := hitRate_spec hN hN' hk
  have hd := abs_decimal_sub_le (faultRate ⟨N, k⟩)
  have he := abs_decimal_sub_le (hitRate ⟨N, k⟩)
  have hsmall : 2 * eps ≤ digit6 / 2 := by norm_num [eps, digit6]
  have hpos : 0 < eps := by norm_num [eps]
  rw [abs_le] at hf hh hd he
  constructor <;> rw [abs_le] <;> constructor <;> linarith

/-- Printed, the rates keep the order of the counts, but for the last digit. -/
lemma printed_le (hN : 1 ≤ N) (hN' : N ≤ maxTrace) (h : k < k') (hk' : k' ≤ N) :
    decimal 6 (faultRate ⟨N, k⟩) ≤ decimal 6 (faultRate ⟨N, k'⟩) ∧
      decimal 6 (hitRate ⟨N, k'⟩) ≤ decimal 6 (hitRate ⟨N, k⟩) := by
  obtain ⟨h1, h2⟩ := rates_lt hN hN' h hk'
  exact ⟨nearest_mono (unit_pos 6) h1.le, nearest_mono (unit_pos 6) h2.le⟩

/-- Up to 800000 accesses six decimals are enough to tell all counts apart. -/
lemma printed_lt (hN : 1 ≤ N) (hN' : N ≤ 800000) (h : k < k') (hk' : k' ≤ N) :
    decimal 6 (faultRate ⟨N, k⟩) < decimal 6 (faultRate ⟨N, k'⟩) ∧
      decimal 6 (hitRate ⟨N, k'⟩) < decimal 6 (hitRate ⟨N, k⟩) := by
  have hfits : N ≤ maxTrace := hN'.trans (by decide)
  obtain ⟨hf, -⟩ := faultRate_spec hN hfits (h.le.trans hk')
  obtain ⟨hf', -⟩ := faultRate_spec hN hfits hk'
  obtain ⟨hh, -⟩ := hitRate_spec hN hfits (h.le.trans hk')
  obtain ⟨hh', -⟩ := hitRate_spec hN hfits hk'
  have hd := abs_decimal_sub_le (faultRate ⟨N, k⟩)
  have hd' := abs_decimal_sub_le (faultRate ⟨N, k'⟩)
  have he := abs_decimal_sub_le (hitRate ⟨N, k⟩)
  have he' := abs_decimal_sub_le (hitRate ⟨N, k'⟩)
  have hgap := ratio_gap hN h
  have hstep := one_div_le hN hN'
  have hsmall : 4 * eps + digit6 < 1 / (800000 : ℕ) := by norm_num [eps, digit6]
  rw [abs_le] at hf hf' hh hh' hd hd' he he'
  have hpos : 0 < eps := by norm_num [eps]
  constructor <;> linarith

/-- **The two rates add up to one**, but for the last digit. -/
lemma printed_sum (hN : 1 ≤ N) (hN' : N ≤ maxTrace) (hk : k ≤ N) :
    |decimal 6 (faultRate ⟨N, k⟩) + decimal 6 (hitRate ⟨N, k⟩) - 1| ≤ digit6 := by
  obtain ⟨hh, -⟩ := hitRate_spec hN hN' hk
  have hd := abs_decimal_sub_le (faultRate ⟨N, k⟩)
  have he := abs_decimal_sub_le (hitRate ⟨N, k⟩)
  -- the sum is a number of last digits, and closer than two of them
  set a := roundEven (faultRate ⟨N, k⟩ * 10 ^ 6) with ha
  set b := roundEven (hitRate ⟨N, k⟩ * 10 ^ 6) with hb
  have hsum : decimal 6 (faultRate ⟨N, k⟩) + decimal 6 (hitRate ⟨N, k⟩) - 1 =
      ((a + b - 10 ^ 6 : ℤ) : ℚ) * digit6 := by
    rw [decimal_eq, decimal_eq, ← ha, ← hb, digit6]
    push_cast
    ring
  have hpos : 0 < digit6 := by norm_num [digit6]
  have hnear : |((a + b - 10 ^ 6 : ℤ) : ℚ) * digit6| < 2 * digit6 := by
    have heps : eps < digit6 := by norm_num [eps, digit6]
    rw [← hsum]
    rw [abs_le] at hh hd he
    rw [abs_lt]
    constructor <;> linarith
  rw [abs_mul, abs_of_pos hpos, mul_lt_mul_iff_left₀ hpos] at hnear
  have hint : |a + b - 10 ^ 6| < 2 := by exact_mod_cast hnear
  rw [hsum, abs_mul, abs_of_pos hpos]
  have hone : |((a + b - 10 ^ 6 : ℤ) : ℚ)| ≤ 1 := by
    exact_mod_cast Int.lt_add_one_iff.mp hint
  calc |((a + b - 10 ^ 6 : ℤ) : ℚ)| * digit6 ≤ 1 * digit6 :=
        mul_le_mul_of_nonneg_right hone hpos.le
    _ = digit6 := one_mul _

/-- If half of the accesses fault nothing is lost. -/
lemma printed_sum_eq (hN : 1 ≤ N) (hN' : N ≤ maxTrace) (hk : k ≤ N) (h : N ≤ 2 * k) :
    decimal 6 (faultRate ⟨N, k⟩) + decimal 6 (hitRate ⟨N, k⟩) = 1 := by
  obtain ⟨-, h1⟩ := ratio_mem hN hk
  have hpos : (0 : ℚ) < N := by exact_mod_cast hN
  have hhalf : 1 / 2 ≤ (k : ℚ) / N := by
    rw [div_le_div_iff₀ (by norm_num) hpos]
    have : (N : ℚ) ≤ 2 * k := by exact_mod_cast h
    linarith
  have hhit : hitRate ⟨N, k⟩ = 1 - faultRate ⟨N, k⟩ := by
    rw [hitRate, faultRate_eq hN' hk]
    exact toFloat_one_sub (by decide) hhalf h1
  have hround := roundEven_sub 500000 (faultRate ⟨N, k⟩ * 10 ^ 6)
  have hmul : (1 - faultRate ⟨N, k⟩) * 10 ^ 6 =
      2 * ((500000 : ℤ) : ℚ) - faultRate ⟨N, k⟩ * 10 ^ 6 := by
    push_cast
    ring
  rw [hhit, decimal_eq, decimal_eq, hmul, hround]
  push_cast
  ring

lemma read_printed (hN : 1 ≤ N) (hN' : N ≤ maxTrace) (hk : k ≤ N) :
    readFixed (fixed 6 (faultRate ⟨N, k⟩)) = decimal 6 (faultRate ⟨N, k⟩) ∧
      readFixed (fixed 6 (hitRate ⟨N, k⟩)) = decimal 6 (hitRate ⟨N, k⟩) :=
  ⟨readFixed_fixed (by decide) (faultRate_spec hN hN' hk).2.1,
    readFixed_fixed (by decide) (hitRate_spec hN hN' hk).2.1⟩

/-- **The rates that are printed.** Over traces of up to `MAX_TRACE` accesses both are within
one of the last digit of the exact rates and in their order; up to 800000 accesses different
counts are printed differently; and the two add up to one, up to the last digit, and exactly
if at least half of the accesses fault. -/
theorem printed_rates (N k : ℕ) (hN : 1 ≤ N) (hN' : N ≤ maxTrace) (hk : k ≤ N) :
    |readFixed (fixed 6 (faultRate ⟨N, k⟩)) - (k : ℚ) / N| ≤ digit6 ∧
      |readFixed (fixed 6 (hitRate ⟨N, k⟩)) - (1 - (k : ℚ) / N)| ≤ digit6 ∧
      (∀ k' ≤ N, k < k' →
        readFixed (fixed 6 (faultRate ⟨N, k⟩)) ≤ readFixed (fixed 6 (faultRate ⟨N, k'⟩)) ∧
        readFixed (fixed 6 (hitRate ⟨N, k'⟩)) ≤ readFixed (fixed 6 (hitRate ⟨N, k⟩)) ∧
        (N ≤ 800000 →
          readFixed (fixed 6 (faultRate ⟨N, k⟩)) < readFixed (fixed 6 (faultRate ⟨N, k'⟩)) ∧
          readFixed (fixed 6 (hitRate ⟨N, k'⟩)) < readFixed (fixed 6 (hitRate ⟨N, k⟩)))) ∧
      |readFixed (fixed 6 (faultRate ⟨N, k⟩)) + readFixed (fixed 6 (hitRate ⟨N, k⟩)) - 1| ≤
        digit6 ∧
      (N ≤ 2 * k →
        readFixed (fixed 6 (faultRate ⟨N, k⟩)) + readFixed (fixed 6 (hitRate ⟨N, k⟩)) = 1) := by
  obtain ⟨hf, hh⟩ := printed_near hN hN' hk
  rw [(read_printed hN hN' hk).1, (read_printed hN hN' hk).2]
  refine ⟨hf, hh, fun k' hk' hlt => ?_, printed_sum hN hN' hk, printed_sum_eq hN hN' hk⟩
  obtain ⟨h1, h2⟩ := printed_le hN hN' hlt hk'
  rw [(read_printed hN hN' hk').1, (read_printed hN hN' hk').2]
  exact ⟨h1, h2, fun hN'' => printed_lt hN hN'' hlt hk'⟩

/-- The theorem at three accesses with two faults. -/
theorem printed_rates_three : 1 ≤ 3 ∧ 3 ≤ maxTrace ∧ 2 ≤ 3 ∧
    readFixed (fixed 6 (faultRate ⟨3, 2⟩)) + readFixed (fixed 6 (hitRate ⟨3, 2⟩)) = 1 := by
  obtain ⟨-, -, -, -, h⟩ := printed_rates 3 2 (by decide) (by decide) (by decide)
  exact ⟨by decide, by decide, by decide, h (by decide)⟩

end Tempograph.Report
