import Mathlib.Data.Sign.Basic
import Tempograph.Experiments

/-!
What the plots say about TempoGraph (`plot_results.py`): the stars over its hit rates, and the
reduction of its fault rate against LRU.

They compare numbers that were rounded when they were computed, when they were printed and when
they were read, and are computed in doubles themselves. The order of the counts survives all of
this, up to the last digit printed. How the plots are drawn is left out.
-/

namespace Tempograph.Plots

open Common LoadTrace Preprocess Sim Renaming Paging DemandPaging CommandLine Rounding Report
open Experiments

variable {N k k' : ℕ} {x y l t : ℚ} {data : List Datum} {trace : List Char} {M : Malloc}
  {tr : List Page} {algo : Algo} {n f : ℕ} {W : ℤ}

/-- The binary digits of a float of Python. -/
def doubleDigits : ℕ := 53

def round (x : ℚ) : ℚ := toFloat doubleDigits x

/-- The conversion of a text with digits and a point. -/
def float (s : List Char) : ℚ := round (readFixed s)

def hitRateOf (data : List Datum) (trace : List Char) (algo : Algo) (frames : ℤ) : Option ℚ :=
  (get data trace (algoName algo) frames).map fun d => float d.hitRate

def faultRateOf (data : List Datum) (trace : List Char) (algo : Algo) (frames : ℤ) : Option ℚ :=
  (get data trace (algoName algo) frames).map fun d => float d.faultRate

/-- Whether TempoGraph gets a star for a trace. -/
def star (data : List Datum) (trace : List Char) : Bool :=
  match hitRateOf data trace .tempograph 64 with
  | none => false
  | some tg =>
    (algos.filter (· ≠ .tempograph)).all fun algo =>
      (hitRateOf data trace algo 64).getD 0 ≤ tg

/-- The reduction of the fault rate against LRU, in percent. -/
def improvement (data : List Datum) (trace : List Char) (frames : ℤ) : ℚ :=
  match faultRateOf data trace .lru frames, faultRateOf data trace .tempograph frames with
  | some lru_fr, some tg_fr =>
    if 0 < lru_fr then round (round (round (lru_fr - tg_fr) / lru_fr) * 100) else 0
  | _, _ => 0

/-! ### Reading what was printed -/

lemma sign_round (x : ℚ) : SignType.sign (round x) = SignType.sign x := sign_toFloat (by decide) x

lemma decimal_mem (hx : 0 ≤ x) (h : x ≤ 1) : 0 ≤ decimal 6 x ∧ decimal 6 x ≤ 1 := by
  have hone : decimal 6 1 = 1 := by
    rw [decimal_eq, one_mul, show (10 : ℚ) ^ 6 = ((10 ^ 6 : ℤ) : ℚ) by norm_num, roundEven_intCast]
    norm_num
  exact ⟨nearest_nonneg (unit_pos 6) hx, (nearest_mono (unit_pos 6) h).trans hone.le⟩

/-- Different decimals differ by a digit. -/
lemma decimal_gap (h : decimal 6 x < decimal 6 y) : decimal 6 x + digit6 ≤ decimal 6 y := by
  have hpos : (0 : ℚ) < 10 ^ 6 := by positivity
  rw [decimal_eq, decimal_eq, div_lt_div_iff_of_pos_right hpos] at h
  rw [decimal_eq, decimal_eq, digit6, ← add_div, div_le_div_iff_of_pos_right hpos]
  exact_mod_cast h

/-- **Reading keeps the order of what was printed.** -/
lemma round_le_iff (hx : 0 ≤ x) (hx' : x ≤ 1) (hy : 0 ≤ y) (hy' : y ≤ 1) :
    round (decimal 6 x) ≤ round (decimal 6 y) ↔ decimal 6 x ≤ decimal 6 y := by
  obtain ⟨h1, h2⟩ := decimal_mem hx hx'
  obtain ⟨h3, h4⟩ := decimal_mem hy hy'
  refine ⟨fun h => ?_, toFloat_mono (by decide) h1⟩
  by_contra hlt
  have hgap := decimal_gap (not_le.mp hlt)
  have ex := abs_le.mp (abs_toFloat_sub_le (p := doubleDigits) (by decide) h1 h2)
  have ey := abs_le.mp (abs_toFloat_sub_le (p := doubleDigits) (by decide) h3 h4)
  have hsmall : (2 : ℚ) ^ (-(doubleDigits : ℕ) : ℤ) < digit6 := by
    norm_num [doubleDigits, digit6]
  simp only [round] at h
  linarith

/-! ### Rates and counts -/

/-- Up to this many accesses the counts of a trace can be told apart. -/
def exactLimit : ℕ := 800000

section Counts

variable (hN : 1 ≤ N) (hN' : N ≤ maxTrace) (hk : k ≤ N) (hk' : k' ≤ N)

include hN hN' hk hk'

/-- Hit rates are compared as they were printed. -/
lemma float_hit_le_iff :
    float (fixed 6 (hitRate ⟨N, k⟩)) ≤ float (fixed 6 (hitRate ⟨N, k'⟩)) ↔
      decimal 6 (hitRate ⟨N, k⟩) ≤ decimal 6 (hitRate ⟨N, k'⟩) := by
  obtain ⟨-, h1, h2⟩ := hitRate_spec hN hN' hk
  obtain ⟨-, h3, h4⟩ := hitRate_spec hN hN' hk'
  rw [float, float, (read_printed hN hN' hk).2, (read_printed hN hN' hk').2]
  exact round_le_iff h1 h2 h3 h4

lemma float_fault_le_iff :
    float (fixed 6 (faultRate ⟨N, k⟩)) ≤ float (fixed 6 (faultRate ⟨N, k'⟩)) ↔
      decimal 6 (faultRate ⟨N, k⟩) ≤ decimal 6 (faultRate ⟨N, k'⟩) := by
  obtain ⟨-, h1, h2⟩ := faultRate_spec hN hN' hk
  obtain ⟨-, h3, h4⟩ := faultRate_spec hN hN' hk'
  rw [float, float, (read_printed hN hN' hk).1, (read_printed hN hN' hk').1]
  exact round_le_iff h1 h2 h3 h4

/-- A hit rate that is shown as lower belongs to more faults. -/
lemma lt_of_hit_lt
    (h : ¬float (fixed 6 (hitRate ⟨N, k'⟩)) ≤ float (fixed 6 (hitRate ⟨N, k⟩))) : k' < k := by
  rw [float_hit_le_iff hN hN' hk' hk] at h
  by_contra hle
  rcases (not_lt.mp hle).eq_or_lt with rfl | hlt
  · exact h le_rfl
  · exact h (printed_le hN hN' hlt hk').2

/-- A hit rate that is not shown as lower belongs to few more faults, if any. -/
lemma le_of_hit_le
    (h : float (fixed 6 (hitRate ⟨N, k'⟩)) ≤ float (fixed 6 (hitRate ⟨N, k⟩))) :
    k ≤ k' + 10 ∧ (N ≤ exactLimit → k ≤ k') := by
  rw [float_hit_le_iff hN hN' hk' hk] at h
  refine ⟨?_, fun hsmall => ?_⟩
  · have hpos : (0 : ℚ) < N := by exact_mod_cast hN
    have h1 := abs_le.mp (printed_near hN hN' hk).2
    have h2 := abs_le.mp (printed_near hN hN' hk').2
    have hrate : (k : ℚ) / N - k' / N ≤ 2 * digit6 := by linarith
    rw [← sub_div, div_le_iff₀ hpos] at hrate
    have hmax : (N : ℚ) ≤ 5000000 := by exact_mod_cast hN'
    have hten : (k : ℚ) ≤ k' + 10 := by
      simp only [digit6] at hrate
      linarith
    exact_mod_cast hten
  · by_contra hlt
    exact absurd (printed_lt hN hsmall (not_le.mp hlt) hk).2 (not_lt.mpr h)

lemma lt_of_fault_lt
    (h : float (fixed 6 (faultRate ⟨N, k⟩)) < float (fixed 6 (faultRate ⟨N, k'⟩))) : k < k' := by
  rw [← not_le, float_fault_le_iff hN hN' hk' hk] at h
  by_contra hle
  rcases (not_lt.mp hle).eq_or_lt with rfl | hlt
  · exact h le_rfl
  · exact h (printed_le hN hN' hlt hk).1

lemma fault_lt_of_lt (hsmall : N ≤ exactLimit) (h : k < k') :
    float (fixed 6 (faultRate ⟨N, k⟩)) < float (fixed 6 (faultRate ⟨N, k'⟩)) := by
  rw [← not_le, float_fault_le_iff hN hN' hk' hk]
  exact not_le.mpr (printed_lt hN hsmall h hk').1

end Counts

/-- The sign of an improvement is the one of the difference. -/
lemma sign_improvement (hl : 0 < l) :
    SignType.sign (round (round (round (l - t) / l) * 100)) = SignType.sign (l - t) := by
  have hundred : SignType.sign (100 : ℚ) = 1 := sign_pos (by norm_num)
  have hinv : SignType.sign l⁻¹ = 1 := sign_pos (inv_pos.mpr hl)
  rw [sign_round, sign_mul, hundred, mul_one, sign_round, div_eq_mul_inv, sign_mul, hinv, mul_one,
    sign_round]

lemma faults_le (M : Malloc) (tr : List Page) (algo : Algo) (n : ℕ) (W : ℤ) :
    faults M tr algo n W ≤ tr.length := by
  unfold faults
  cases h : answers M start algo n W tr with
  | none => exact Nat.zero_le _
  | some os =>
    unfold answers at h
    obtain ⟨p, hrun, rfl⟩ := Option.map_eq_some_iff.mp h
    obtain ⟨σ, -, hrun⟩ := Option.bind_eq_some_iff.mp hrun
    exact List.count_le_length.trans (Runs.run_length hrun).le

/-- The first access is a fault. -/
lemma lru_faults_pos (M : Malloc) (hn : 1 ≤ n) (hn' : n ≤ maxFrames) (W : ℤ) (hne : tr ≠ []) :
    1 ≤ faults M tr .lru n W := by
  have hsuits : Suits .lru tr := trivial
  obtain ⟨os, D, ha, hserves⟩ := Competitive.answers_serves M start .lru hn hn' W hsuits
  have hdemand := hserves.demand
  rw [Competitive.count_isHit, Finset.sdiff_empty] at hdemand
  rw [faults, ha, Option.getD_some]
  have hcard : 0 < tr.toFinset.card :=
    Finset.card_pos.mpr ⟨tr.head hne, List.mem_toFinset.mpr (List.head_mem hne)⟩
  omega

/-! ### The plots -/

section Verdicts

variable {overflow : List UInt8 → Int32} {files : Arg → Option (List UInt8)}
  {clock : List Arg → Isolation.Pass → ℚ} {traces : List TraceFile} {file : TraceFile}

/-- That the rows of `file` are found for the stem. -/
def Shows (overflow : List UInt8 → Int32) (M : Malloc) (files : Arg → Option (List UInt8))
    (clock : List Arg → Isolation.Pass → ℚ) (data : List Datum) (trace : List Char)
    (file : TraceFile) : Prop :=
  ∀ f ∈ frames, ∀ algo, get data trace (algoName algo) f =
    some (shown overflow M files clock (file, f, algo))

lemma hitRateOf_eq (h : Shows overflow M files clock data trace file) (hf : f ∈ frames)
    (algo : Algo) : hitRateOf data trace algo f =
      some (float (fixed 6 (hitRate (result overflow M files file f algo)))) := by
  rw [hitRateOf, h f hf algo]
  rfl

lemma faultRateOf_eq (h : Shows overflow M files clock data trace file) (hf : f ∈ frames)
    (algo : Algo) : faultRateOf data trace algo f =
      some (float (fixed 6 (faultRate (result overflow M files file f algo)))) := by
  rw [faultRateOf, h f hf algo]
  rfl

lemma star_iff (h : Shows overflow M files clock data trace file) :
    star data trace = true ↔ ∀ algo ≠ .tempograph,
      float (fixed 6 (hitRate (result overflow M files file 64 algo))) ≤
        float (fixed 6 (hitRate (result overflow M files file 64 .tempograph))) := by
  have hmem : 64 ∈ frames := by decide
  have halgos (algo : Algo) : algo ∈ algos := by cases algo <;> decide
  have hrate (algo : Algo) : hitRateOf data trace algo 64 =
      some (float (fixed 6 (hitRate (result overflow M files file 64 algo)))) :=
    hitRateOf_eq h hmem algo
  simp only [star, hrate, Option.getD_some, List.all_eq_true, List.mem_filter, halgos, true_and,
    decide_eq_true_eq]

variable (hN : loadTrace overflow (files file.path) = tr) (hne : tr ≠ [])
  (hlen : tr.length ≤ maxTrace)

include hN

lemma result_eq (f : ℕ) (algo : Algo) :
    result overflow M files file f algo = ⟨tr.length, faults M tr algo f 10⟩ := by
  rw [result, loaded, hN, report]

include hne hlen

lemma no_star (h : Shows overflow M files clock data trace file) (hstar : star data trace = false) :
    ∃ algo, faults M tr algo 64 10 < faults M tr .tempograph 64 10 := by
  rw [← Bool.not_eq_true, star_iff h] at hstar
  push Not at hstar
  obtain ⟨algo, -, hlt⟩ := hstar
  rw [result_eq hN, result_eq hN, ← not_le] at hlt
  exact ⟨algo, lt_of_hit_lt (List.length_pos_iff.mpr hne) hlen (faults_le M tr _ 64 10)
    (faults_le M tr _ 64 10) hlt⟩

lemma of_star (h : Shows overflow M files clock data trace file) (hstar : star data trace = true)
    (algo : Algo) : faults M tr .tempograph 64 10 ≤ faults M tr algo 64 10 + 10 ∧
      (tr.length ≤ exactLimit → faults M tr .tempograph 64 10 ≤ faults M tr algo 64 10) := by
  by_cases ht : algo = .tempograph
  · subst ht
    exact ⟨Nat.le_add_right _ _, fun _ => le_rfl⟩
  · have hle := (star_iff h).mp hstar algo ht
    rw [result_eq hN, result_eq hN] at hle
    exact le_of_hit_le (List.length_pos_iff.mpr hne) hlen (faults_le M tr _ 64 10)
      (faults_le M tr _ 64 10) hle

/-- The sign of the improvement is the one of the rates that were read. -/
lemma improvement_spec (h : Shows overflow M files clock data trace file) (hf : f ∈ frames) :
    (0 < improvement data trace f → faults M tr .tempograph f 10 < faults M tr .lru f 10) ∧
      (improvement data trace f < 0 → faults M tr .lru f 10 < faults M tr .tempograph f 10) ∧
      (tr.length ≤ exactLimit → improvement data trace f = 0 →
        faults M tr .tempograph f 10 = faults M tr .lru f 10) := by
  have hpos : 1 ≤ tr.length := List.length_pos_iff.mpr hne
  have hlru := faults_le M tr .lru f 10
  have htg := faults_le M tr .tempograph f 10
  obtain ⟨l, hl⟩ : ∃ l, l = float (fixed 6 (faultRate ⟨tr.length, faults M tr .lru f 10⟩)) :=
    ⟨_, rfl⟩
  obtain ⟨t, ht⟩ :
      ∃ t, t = float (fixed 6 (faultRate ⟨tr.length, faults M tr .tempograph f 10⟩)) := ⟨_, rfl⟩
  have hvalue : improvement data trace f =
      if 0 < l then round (round (round (l - t) / l) * 100) else 0 := by
    simp only [improvement, faultRateOf_eq h hf, result_eq hN, hl, ht]
  rw [hvalue]
  by_cases hzero : 0 < l
  · rw [if_pos hzero, ← sign_eq_one_iff, ← sign_eq_neg_one_iff, ← sign_eq_zero_iff,
      sign_improvement hzero, sign_eq_one_iff, sign_eq_neg_one_iff, sign_eq_zero_iff, sub_pos,
      sub_neg, sub_eq_zero]
    rw [hl, ht]
    refine ⟨lt_of_fault_lt hpos hlen htg hlru, lt_of_fault_lt hpos hlen hlru htg,
      fun hsmall heq => ?_⟩
    rcases lt_trichotomy (faults M tr .tempograph f 10) (faults M tr .lru f 10) with hlt | e | hlt
    · exact absurd heq (fault_lt_of_lt hpos hlen htg hlru hsmall hlt).ne'
    · exact e
    · exact absurd heq (fault_lt_of_lt hpos hlen hlru htg hsmall hlt).ne
  · rw [if_neg hzero]
    refine ⟨fun hlt => absurd hlt (lt_irrefl 0), fun hlt => absurd hlt (lt_irrefl 0),
      fun hsmall _ => absurd ?_ hzero⟩
    -- LRU has a fault, so its rate is not printed as zero
    obtain ⟨hn, hn', -⟩ := frames_spec hf
    have hfault : 0 < faults M tr .lru f 10 := lru_faults_pos M hn hn' 10 hne
    have hlt := fault_lt_of_lt hpos hlen (Nat.zero_le _) hlru hsmall hfault
    rw [← hl] at hlt
    exact lt_of_le_of_lt (toFloat_nonneg _ (by
      rw [(read_printed hpos hlen (Nat.zero_le _)).1]
      exact (decimal_mem (faultRate_spec hpos hlen (Nat.zero_le _)).2.1
        (faultRate_spec hpos hlen (Nat.zero_le _)).2.2).1)) hlt

end Verdicts

/-- **What the plots claim.** A trace is denied its star only if some policy has fewer faults
than TempoGraph, and with a star no policy has more than ten fewer, and none has fewer on a
trace of up to 800000 accesses. An improvement that is shown as positive or negative is one,
and one that is shown as zero is so on a trace of that length. -/
theorem verdicts (overflow : List UInt8 → Int32) (M : Malloc) (files : Arg → Option (List UInt8))
    (py : Python) (hpy : py.allows 3) (clock : List Arg → Isolation.Pass → ℚ)
    (traces : List TraceFile) (hc : ∀ file ∈ traces, Clean file) :
    ∃ data, loadData py (resultsCsv overflow M files clock traces) = some data ∧
      ∀ trace file tr, (traces.find? fun file =>
          file.traceType = trace ∧ loadTrace overflow (files file.path) ≠ []) = some file →
        loadTrace overflow (files file.path) = tr →
        (star data trace = false →
          ∃ algo, faults M tr algo 64 10 < faults M tr .tempograph 64 10) ∧
        (star data trace = true → ∀ algo,
          faults M tr .tempograph 64 10 ≤ faults M tr algo 64 10 + 10 ∧
          (tr.length ≤ exactLimit →
            faults M tr .tempograph 64 10 ≤ faults M tr algo 64 10)) ∧
        ∀ f ∈ frames,
          (0 < improvement data trace f →
            faults M tr .tempograph f 10 < faults M tr .lru f 10) ∧
          (improvement data trace f < 0 →
            faults M tr .lru f 10 < faults M tr .tempograph f 10) ∧
          (tr.length ≤ exactLimit → improvement data trace f = 0 →
            faults M tr .tempograph f 10 = faults M tr .lru f 10) := by
  refine ⟨_, loadData_eq hpy hc, fun trace file tr hfind htr => ?_⟩
  have hshows : Shows overflow M files clock
      ((kept overflow files traces).map (shown overflow M files clock)) trace file :=
    fun f hf algo => by
      rw [get_kept hf algo trace]
      exact congrArg _ hfind
  have hspec := List.find?_some hfind
  obtain ⟨-, hne⟩ := of_decide_eq_true hspec
  have hlen : tr.length ≤ maxTrace := htr ▸ TraceFormat.loadTrace_length _
  rw [htr] at hne
  exact ⟨no_star htr hne hlen hshows, of_star htr hne hlen hshows,
    fun f hf => improvement_spec htr hne hlen hshows hf⟩

/-- The theorem at three accesses to two pages: no policy has fewer than two faults, so there
is a star. -/
theorem verdicts_three : cpython.allows 3 ∧ (∀ file ∈ [scanFile], Clean file) ∧
    ∃ data, loadData cpython (resultsCsv wrap Malloc.above (fun _ => some threePages)
        (fun _ _ => 0) [scanFile]) = some data ∧
      star data ['s', 'c', 'a', 'n'] = true ∧ improvement data ['s', 'c', 'a', 'n'] 64 = 0 ∧
      ∀ algo, faults Malloc.above [1, 2, 1] .tempograph 64 10 ≤
        faults Malloc.above [1, 2, 1] algo 64 10 := by
  have hc : ∀ file ∈ [scanFile], Clean file := fun file hfile => by
    rw [List.mem_singleton.mp hfile]
    exact clean_scanFile
  obtain ⟨data, hdata, h⟩ := verdicts wrap Malloc.above (fun _ => some threePages) cpython
    (by decide) (fun _ _ => 0) [scanFile] hc
  have hload : loadTrace wrap (some threePages) = [1, 2, 1] := by decide
  have hne : loadTrace wrap (some threePages) ≠ [] := by
    rw [hload]
    decide
  have htwo : ∀ algo, faults Malloc.above [1, 2, 1] algo 64 10 = 2 := by
    intro algo
    cases algo <;> decide +kernel
  obtain ⟨hno, hof, himp⟩ := h ['s', 'c', 'a', 'n'] scanFile [1, 2, 1]
    (List.find?_cons_of_pos (decide_eq_true ⟨rfl, hne⟩)) hload
  have hstar : star data ['s', 'c', 'a', 'n'] = true := by
    by_contra hfalse
    obtain ⟨algo, hlt⟩ := hno (Bool.eq_false_iff.mpr hfalse)
    rw [htwo, htwo] at hlt
    omega
  have hzero : improvement data ['s', 'c', 'a', 'n'] 64 = 0 := by
    obtain ⟨hpos, hneg, -⟩ := himp 64 (by decide)
    rw [htwo, htwo] at hpos hneg
    refine le_antisymm (not_lt.mp fun hlt => ?_) (not_lt.mp fun hlt => ?_)
    · exact absurd (hpos hlt) (by decide)
    · exact absurd (hneg hlt) (by decide)
  exact ⟨by decide, hc, data, hdata, hstar, hzero, fun algo => (hof hstar algo).2 (by decide)⟩

end Tempograph.Plots
