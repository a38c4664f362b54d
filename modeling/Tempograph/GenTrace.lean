import Tempograph.Competitive
import Tempograph.CyclicScan
import Tempograph.Preprocess

/-!
The traces that `gen_trace.py` makes up.

The random numbers come from a generator that is left open apart from their range, so what is
shown holds whichever numbers are drawn. One page is printed a line, and what was printed
stays if an error ends the program. The share of a mixed trace is computed exactly, as floats
do below 2^51 accesses, and the list of the pages, which the clusters are drawn from, is not
built: memory is assumed to hold it, as it does for as many pages as an `int` counts.
-/

namespace Tempograph.GenTrace

open Common LoadTrace Preprocess Recency Sim Renaming Paging DemandPaging Competitive

/-! ### Random numbers and loops -/

/-- What is used of the module `random`; the states of its generator are `ρ`. -/
structure Random (ρ : Type*) where
  /-- Whether `random()` is less than `jump_prob`. -/
  jump : ρ → Bool × ρ
  /-- A number below `k`. -/
  below : ρ → ℕ → ℕ × ρ
  below_lt : ∀ r k, 0 < k → (below r k).1 < k

/-- A page, and whether its cluster is a new one. -/
structure Draw where
  jumped : Bool
  page : ℤ

variable {ρ σ ω : Type*} {R : Random ρ} {r r' : ρ} {n n_pages cluster_size a b c c' z : ℤ} {k : ℕ}
  {d : Draw} {ds : List Draw} {py : Python} {m : ℕ}

/-- No result is a `ValueError`. -/
def Random.randint (R : Random ρ) (a b : ℤ) (r : ρ) : Option (ℤ × ρ) :=
  if a ≤ b then
    some (a + (R.below r (b + 1 - a).toNat).1, (R.below r (b + 1 - a).toNat).2)
  else none

/-- What `k` rounds have put out, and the state after them; none is left by an error. -/
def rounds (f : σ → Option (σ × ω)) : ℕ → σ → List ω × Option σ
  | 0, s => ([], some s)
  | k + 1, s =>
    match f s with
    | none => ([], none)
    | some (s', o) => (o :: (rounds f k s').1, (rounds f k s').2)

/-- The pages printed, and the generator behind them. -/
structure Output (ρ : Type*) where
  pages : List ℤ
  rest : Option ρ

def Output.andThen (out : Output ρ) (next : ρ → Output ρ) : Output ρ :=
  match out.rest with
  | none => out
  | some r => ⟨out.pages ++ (next r).pages, (next r).rest⟩

/-- The text of the trace file. -/
def Output.text (out : Output ρ) : List Char := out.pages.flatMap fun z => pyStr z ++ ['\n']

/-! ### The generators -/

def clusterSize : ℤ := 10

/-- One round, in the cluster that begins at `s.1`. -/
def correlatedRound (R : Random ρ) (n_pages cluster_size : ℤ) (s : ℤ × ρ) :
    Option ((ℤ × ρ) × Draw) :=
  let jump := R.jump s.2
  let start := if jump.1 then R.randint 0 (n_pages - cluster_size) jump.2 else some (s.1, jump.2)
  match start with
  | none => none
  | some (cluster_start, r) =>
    match R.randint cluster_start (min (cluster_start + cluster_size - 1) (n_pages - 1)) r with
    | none => none
    | some (page, r) => some ((cluster_start, r), ⟨jump.1, page⟩)

def draws (R : Random ρ) (n n_pages cluster_size : ℤ) (r : ρ) : List Draw × Option (ℤ × ρ) :=
  rounds (correlatedRound R n_pages cluster_size) n.toNat (0, r)

def genCorrelated (R : Random ρ) (n n_pages cluster_size : ℤ) (r : ρ) : Output ρ :=
  ⟨(draws R n n_pages cluster_size r).1.map Draw.page,
    (draws R n n_pages cluster_size r).2.map Prod.snd⟩

def uniformRound (R : Random ρ) (n_pages : ℤ) (r : ρ) : Option (ρ × ℤ) :=
  (R.randint 0 (n_pages - 1) r).map fun p => (p.2, p.1)

def genUniform (R : Random ρ) (n n_pages : ℤ) (r : ρ) : Output ρ :=
  ⟨(rounds (uniformRound R n_pages) n.toNat r).1, (rounds (uniformRound R n_pages) n.toNat r).2⟩

/-- The remainder has the sign of `n_pages`, and there is none for zero. -/
def scanRound (n_pages : ℤ) (i : ℕ) : Option (ℕ × ℤ) :=
  if n_pages = 0 then none else some (i + 1, (i : ℤ).fmod n_pages)

def genScan (n n_pages : ℤ) (r : ρ) : Output ρ :=
  ⟨(rounds (scanRound n_pages) n.toNat 0).1,
    (rounds (scanRound n_pages) n.toNat 0).2.map fun _ => r⟩

/-- Three quarters, rounded towards zero. -/
def corrCount (n : ℤ) : ℤ := (3 * n).tdiv 4

def genMixed (R : Random ρ) (n n_pages : ℤ) (r : ρ) : Output ρ :=
  (genCorrelated R (corrCount n) n_pages clusterSize r).andThen
    (genUniform R (n - corrCount n) n_pages)

/-- The types of traces; for any other nothing is printed. -/
inductive TraceType
  | correlated
  | uniform
  | scan
  | mixed
  deriving DecidableEq

def TraceType.name : TraceType → List Char
  | correlated => ['c', 'o', 'r', 'r', 'e', 'l', 'a', 't', 'e', 'd']
  | uniform => ['u', 'n', 'i', 'f', 'o', 'r', 'm']
  | scan => ['s', 'c', 'a', 'n']
  | mixed => ['m', 'i', 'x', 'e', 'd']

def TraceType.generate (R : Random ρ) (n n_pages : ℤ) (r : ρ) : TraceType → Output ρ
  | correlated => genCorrelated R n n_pages clusterSize r
  | uniform => genUniform R n n_pages r
  | scan => genScan n n_pages r
  | mixed => genMixed R n n_pages r

/-! ### The command line -/

/-- The value behind the last `name` that has one. -/
def flag (name : List Char) : List (List Char) → Option (List Char)
  | arg :: value :: args =>
    (flag name (value :: args)).or (if arg = name then some value else none)
  | _ => none

def intArg (py : Python) (default : ℤ) : Option (List Char) → Option ℤ
  | none => some default
  | some arg => pyInt py 10 (strip arg)

def dashType : List Char := ['-', '-', 't', 'y', 'p', 'e']

def dashOut : List Char := ['-', '-', 'o', 'u', 't']

/-- Where the output goes to, if not to the console, and the output. -/
def genTrace (R : Random ρ) (py : Python) (argv : List (List Char)) (r : ρ) :
    Option (Option (List Char) × Output ρ) :=
  match intArg py 10000 argv[1]?, intArg py 500 argv[2]? with
  | some n, some n_pages =>
    let trace_type := (flag dashType argv).getD TraceType.correlated.name
    let out :=
      if trace_type = TraceType.correlated.name then TraceType.correlated.generate R n n_pages r
      else if trace_type = TraceType.uniform.name then TraceType.uniform.generate R n n_pages r
      else if trace_type = TraceType.scan.name then TraceType.scan.generate R n n_pages r
      else if trace_type = TraceType.mixed.name then TraceType.mixed.generate R n n_pages r
      else ⟨[], some r⟩
    some ((flag dashOut argv).filter (· ≠ []), out)
  | _, _ => none

/-! ### Loops -/

lemma Random.randint_eq_none : R.randint a b r = none ↔ b < a := by
  unfold Random.randint
  split_ifs with h <;> simp <;> omega

lemma Random.randint_spec (h : R.randint a b r = some (z, r')) : a ≤ z ∧ z ≤ b := by
  unfold Random.randint at h
  split_ifs at h with hab
  obtain ⟨rfl, -⟩ := Prod.mk.inj (Option.some.inj h)
  have := R.below_lt r (b + 1 - a).toNat (by omega)
  omega

/-- **The loop rule.** An invariant of what was put out and the state holds at the end, or
where the loop was ended by an error. -/
theorem rounds_spec {f : σ → Option (σ × ω)} {I : List ω → σ → Prop} {s : σ} (h0 : I [] s)
    (hstep : ∀ os s s' o, I os s → f s = some (s', o) → I (os ++ [o]) s') (k : ℕ) :
    ∃ s', I (rounds f k s).1 s' ∧
      ((rounds f k s).2 = some s' ∧ (rounds f k s).1.length = k ∨
        (rounds f k s).2 = none ∧ f s' = none ∧ (rounds f k s).1.length < k) := by
  induction k generalizing s I with
  | zero => exact ⟨s, h0, Or.inl ⟨rfl, rfl⟩⟩
  | succ k ih =>
    cases hs : f s with
    | none =>
      refine ⟨s, ?_, Or.inr ?_⟩
      · simpa only [rounds, hs] using h0
      · simp [rounds, hs]
    | some p =>
      obtain ⟨s₁, o⟩ := p
      obtain ⟨s', hi, hend⟩ := @ih (fun os s => I (o :: os) s) s₁ (hstep [] s s₁ o h0 hs)
        fun os s s' o' hi he => by simpa using hstep (o :: os) s s' o' hi he
      refine ⟨s', by simpa only [rounds, hs] using hi, ?_⟩
      simp only [rounds, hs, List.length_cons]
      rcases hend with ⟨h1, h2⟩ | ⟨h1, h2, h3⟩
      · exact Or.inl ⟨h1, by rw [h2]⟩
      · exact Or.inr ⟨h1, h2, by omega⟩

/-! ### Clusters -/

/-- What one round draws. -/
lemma round_spec (h : correlatedRound R n_pages cluster_size (c, r) = some ((c', r'), d)) :
    (d.jumped = false ∧ c' = c ∨ d.jumped = true ∧ 0 ≤ c' ∧ c' ≤ n_pages - cluster_size) ∧
      c' ≤ d.page ∧ d.page < c' + cluster_size ∧ d.page < n_pages := by
  unfold correlatedRound at h
  dsimp only at h
  split at h
  · cases h
  rename_i start r₁ hstart
  split at h
  · cases h
  rename_i page r₂ hpage
  cases h
  obtain ⟨h1, h2⟩ := Random.randint_spec hpage
  have h3 : page < c' + cluster_size := by omega
  have h4 : page < n_pages := by omega
  refine ⟨?_, h1, h3, h4⟩
  cases hj : (R.jump r).1 with
  | false =>
    rw [hj] at hstart
    simp only [Bool.false_eq_true, if_false, Option.some.injEq, Prod.mk.injEq] at hstart
    exact Or.inl ⟨rfl, hstart.1.symm⟩
  | true =>
    rw [hj, if_pos rfl] at hstart
    exact Or.inr ⟨rfl, Random.randint_spec hstart⟩

/-- The cluster begins at the first page, or all of it is pages. -/
def Begins (n_pages cluster_size c : ℤ) : Prop := c = 0 ∨ 0 ≤ c ∧ c ≤ n_pages - cluster_size

/-- A round fails exactly if it jumps and there is no whole cluster. -/
lemma round_eq_none (hp : 1 ≤ n_pages) (hs : 1 ≤ cluster_size)
    (hc : Begins n_pages cluster_size c) :
    correlatedRound R n_pages cluster_size (c, r) = none ↔
      (R.jump r).1 = true ∧ n_pages < cluster_size := by
  have hin : ∀ c, Begins n_pages cluster_size c → ∀ r,
      R.randint c (min (c + cluster_size - 1) (n_pages - 1)) r ≠ none := fun c hc r hnone => by
    rw [Random.randint_eq_none] at hnone
    unfold Begins at hc
    omega
  unfold correlatedRound
  dsimp only
  cases hj : (R.jump r).1 with
  | false =>
    simp only [Bool.false_eq_true, if_false, false_and, iff_false]
    split
    · rename_i hnone
      exact absurd hnone (hin c hc _)
    · simp
  | true =>
    simp only [if_true, true_and]
    split
    · rename_i hnone
      rw [Random.randint_eq_none] at hnone
      simp only [true_iff]
      omega
    · rename_i c' r' hstart
      have hb := Random.randint_spec hstart
      split
      · rename_i hnone
        exact absurd hnone (hin c' (Or.inr ⟨hb.1, hb.2⟩) _)
      · simp only [reduceCtorEq, false_iff]
        omega

/-- Where the cluster begins, and the pages so far. -/
structure Within (n_pages cluster_size : ℤ) (ds : List Draw) (s : ℤ × ρ) : Prop where
  start : Begins n_pages cluster_size s.1
  pages : ∀ d ∈ ds, 0 ≤ d.page ∧ d.page < n_pages

lemma Within.step {s s' : ℤ × ρ} (h : Within n_pages cluster_size ds s)
    (hr : correlatedRound R n_pages cluster_size s = some (s', d)) :
    Within n_pages cluster_size (ds ++ [d]) s' := by
  obtain ⟨hc, h1, -, h3⟩ := round_spec hr
  have hstart : Begins n_pages cluster_size s'.1 := by
    rcases hc with ⟨-, e⟩ | ⟨-, hb⟩
    · rw [e]
      exact h.start
    · exact Or.inr hb
  refine ⟨hstart, fun d' hd => ?_⟩
  rcases List.mem_append.mp hd with hd | hd
  · exact h.pages d' hd
  · rw [List.mem_singleton.mp hd]
    refine ⟨le_trans ?_ h1, h3⟩
    rcases hstart with e | hb
    · exact e.ge
    · exact hb.1

/-- The pages of a correlated trace, however far it comes. -/
lemma draws_within (R : Random ρ) (n n_pages cluster_size : ℤ) (r : ρ) :
    ∀ d ∈ (draws R n n_pages cluster_size r).1, 0 ≤ d.page ∧ d.page < n_pages := by
  have hstart : Within n_pages cluster_size [] ((0 : ℤ), r) := ⟨Or.inl rfl, by simp⟩
  obtain ⟨s', h, -⟩ := rounds_spec hstart
    (fun os s s' o hi he => hi.step he) n.toNat
  exact h.pages

/-- The generator behind a round that stays in the first cluster. -/
def next (R : Random ρ) (n_pages : ℤ) (r : ρ) : ρ := (R.below (R.jump r).2 n_pages.toNat).2

/-- Among the first `k` rounds one jumps. -/
def Jumps (R : Random ρ) (n_pages : ℤ) (k : ℕ) (r : ρ) : Prop :=
  ∃ i < k, (R.jump ((next R n_pages)^[i] r)).1 = true

lemma jumps_succ : Jumps R n_pages (k + 1) r ↔
    (R.jump r).1 = true ∨ Jumps R n_pages k (next R n_pages r) := by
  constructor
  · rintro ⟨i, hi, h⟩
    cases i with
    | zero => exact Or.inl h
    | succ i => exact Or.inr ⟨i, by omega, h⟩
  · rintro (h | ⟨i, hi, h⟩)
    · exact ⟨0, by omega, h⟩
    · exact ⟨i + 1, by omega, h⟩

lemma rounds_jumps (hp : 1 ≤ n_pages) (hs : n_pages < cluster_size) (k : ℕ) (r : ρ) :
    (rounds (correlatedRound R n_pages cluster_size) k (0, r)).2 = none ↔
      Jumps R n_pages k r := by
  induction k generalizing r with
  | zero => simp [rounds, Jumps]
  | succ k ih =>
    have hnone := round_eq_none (R := R) (r := r) hp (show 1 ≤ cluster_size by omega) (Or.inl rfl)
    rw [jumps_succ, rounds]
    cases hj : (R.jump r).1 with
    | true =>
      rw [hnone.mpr ⟨hj, hs⟩]
      simp
    | false =>
      have hround : ∃ d, correlatedRound R n_pages cluster_size (0, r) =
          some ((0, next R n_pages r), d) := by
        have hmin : min (0 + cluster_size - 1) (n_pages - 1) = n_pages - 1 := by omega
        have hwidth : (n_pages - 1 + 1 - 0).toNat = n_pages.toNat := by congr 1; omega
        unfold correlatedRound
        simp only [hj, Bool.false_eq_true, if_false, Random.randint, hmin, hwidth,
          if_pos (show (0 : ℤ) ≤ n_pages - 1 by omega)]
        exact ⟨_, rfl⟩
      obtain ⟨d, hround⟩ := hround
      rw [hround]
      simp only [ih, Bool.false_eq_true, false_or]

/-- **When a correlated trace ends early**: it jumps, and there are fewer pages than in a
cluster. -/
lemma correlated_fails (hp : 1 ≤ n_pages) (hs : 1 ≤ cluster_size) :
    (genCorrelated R n n_pages cluster_size r).rest = none ↔
      n_pages < cluster_size ∧ Jumps R n_pages n.toNat r := by
  unfold genCorrelated draws
  rw [Option.map_eq_none_iff]
  by_cases hsmall : n_pages < cluster_size
  · rw [rounds_jumps hp hsmall]
    simp [hsmall]
  · refine iff_of_false (fun hnone => ?_) fun h => hsmall h.1
    have hstart : Within n_pages cluster_size [] ((0 : ℤ), r) := ⟨Or.inl rfl, by simp⟩
    obtain ⟨s', h, hend⟩ := rounds_spec hstart (fun os s s' o hi he => hi.step he) n.toNat
    rcases hend with ⟨hsome, -⟩ | ⟨-, hfail, -⟩
    · rw [hnone] at hsome
      cases hsome
    · exact hsmall ((round_eq_none hp hs h.start).mp hfail).2

/-! ### All types -/

/-- The pages are pages, and there are `n` of them unless an error came first. -/
structure Sound (n n_pages : ℤ) (out : Output ρ) : Prop where
  pages : ∀ z ∈ out.pages, 0 ≤ z ∧ z < n_pages
  ended : out.rest ≠ none → out.pages.length = n.toNat
  failed : out.rest = none → out.pages.length < n.toNat

lemma Sound.length_le {out : Output ρ} (hs : Sound n n_pages out) :
    out.pages.length ≤ n.toNat := by
  by_cases h : out.rest = none
  · exact (hs.failed h).le
  · exact (hs.ended h).le

lemma sound_correlated (R : Random ρ) (n n_pages cluster_size : ℤ) (r : ρ) :
    Sound n n_pages (genCorrelated R n n_pages cluster_size r) := by
  obtain ⟨s', -, hend⟩ := rounds_spec (f := correlatedRound R n_pages cluster_size) (s := (0, r))
    (I := fun _ _ => True) trivial (fun _ _ _ _ _ _ => trivial) n.toNat
  refine ⟨fun z hz => ?_, fun hrest => ?_, fun hrest => ?_⟩
  · obtain ⟨d, hd, rfl⟩ := List.mem_map.mp hz
    exact draws_within R n n_pages cluster_size r d hd
  · rcases hend with ⟨-, hlen⟩ | ⟨hnone, -⟩
    · simpa only [genCorrelated, draws, List.length_map] using hlen
    · simp [genCorrelated, draws, hnone] at hrest
  · rcases hend with ⟨hsome, -⟩ | ⟨-, -, hlen⟩
    · simp [genCorrelated, draws, hsome] at hrest
    · simpa only [genCorrelated, draws, List.length_map] using hlen

/-- With a page or more no round fails. -/
lemma uniform_ends (R : Random ρ) (hp : 1 ≤ n_pages) (n : ℤ) (r : ρ) :
    Sound n n_pages (genUniform R n n_pages r) ∧ (genUniform R n n_pages r).rest ≠ none := by
  obtain ⟨s', hpages, hend⟩ := rounds_spec (f := uniformRound R n_pages) (s := r)
    (I := fun os _ => ∀ z ∈ os, 0 ≤ z ∧ z < n_pages) (by simp) (fun os s s' o hi he z hz => by
      rcases List.mem_append.mp hz with hz | hz
      · exact hi z hz
      · obtain ⟨p, hp', e⟩ := Option.map_eq_some_iff.mp he
        obtain ⟨h1, h2⟩ := Random.randint_spec hp'
        cases e
        rw [List.mem_singleton.mp hz]
        omega) n.toNat
  have hsome : (genUniform R n n_pages r).rest = some s' ∧
      (genUniform R n n_pages r).pages.length = n.toNat := by
    refine hend.resolve_right fun h => ?_
    have hfail := h.2.1
    rw [uniformRound, Option.map_eq_none_iff, Random.randint_eq_none] at hfail
    omega
  have hne : (genUniform R n n_pages r).rest ≠ none := by simp [hsome.1]
  exact ⟨⟨hpages, fun _ => hsome.2, fun h => absurd h hne⟩, hne⟩

lemma scan_pages (hp : 1 ≤ n_pages) (n : ℤ) (r : ρ) :
    (genScan n n_pages r).pages = (List.range n.toNat).map (fun i : ℕ => (i : ℤ) % n_pages) ∧
      (genScan n n_pages r).rest ≠ none := by
  obtain ⟨s', ⟨hlen, hpages⟩, hend⟩ := rounds_spec (f := scanRound n_pages) (s := 0)
    (I := fun os i => os.length = i ∧ os = (List.range i).map fun i : ℕ => (i : ℤ) % n_pages)
    ⟨rfl, rfl⟩ (fun os s s' o hi he => by
      unfold scanRound at he
      rw [if_neg (by omega)] at he
      cases he
      refine ⟨by rw [List.length_append, hi.1, List.length_singleton], ?_⟩
      rw [List.range_succ, List.map_append, ← hi.2, List.map_singleton,
        Int.fmod_eq_emod_of_nonneg _ (by omega)]) n.toNat
  rcases hend with ⟨hsome, hn⟩ | ⟨-, hfail, -⟩
  · obtain rfl : n.toNat = s' := hn.symm.trans hlen
    exact ⟨hpages, by simp [genScan, hsome]⟩
  · unfold scanRound at hfail
    rw [if_neg (by omega)] at hfail
    cases hfail

lemma sound_scan (hp : 1 ≤ n_pages) (n : ℤ) (r : ρ) : Sound n n_pages (genScan n n_pages r) := by
  obtain ⟨hpages, hrest⟩ := scan_pages hp n r
  refine ⟨fun z hz => ?_, fun _ => ?_, fun h => absurd h hrest⟩
  · rw [hpages] at hz
    obtain ⟨i, -, rfl⟩ := List.mem_map.mp hz
    exact ⟨Int.emod_nonneg _ (by omega), Int.emod_lt_of_pos _ (by omega)⟩
  · rw [hpages, List.length_map, List.length_range]

lemma toNat_corrCount (n : ℤ) : (corrCount n).toNat + (n - corrCount n).toNat = n.toNat := by
  unfold corrCount
  rcases le_or_gt 0 n with hn | hn
  · rw [Int.tdiv_eq_ediv_of_nonneg (by omega)]
    omega
  · have hneg : (3 * n).tdiv 4 = -((3 * -n) / 4) := by
      rw [← Int.tdiv_eq_ediv_of_nonneg (by omega), ← Int.neg_tdiv]
      congr 1
      ring
    rw [hneg]
    omega

/-- The rounds in which a cluster may be left. -/
def TraceType.clustered (n : ℤ) : TraceType → ℕ
  | correlated => n.toNat
  | mixed => (corrCount n).toNat
  | uniform | scan => 0

lemma sound_mixed (R : Random ρ) (hp : 1 ≤ n_pages) (n : ℤ) (r : ρ) :
    Sound n n_pages (genMixed R n n_pages r) ∧ ((genMixed R n n_pages r).rest = none ↔
      (genCorrelated R (corrCount n) n_pages clusterSize r).rest = none) := by
  have hc := sound_correlated R (corrCount n) n_pages clusterSize r
  have hcount := toNat_corrCount n
  unfold genMixed Output.andThen
  split
  · rename_i hnone
    refine ⟨⟨hc.pages, fun h => absurd hnone h, fun h => ?_⟩, Iff.rfl⟩
    have := hc.failed h
    omega
  · rename_i r' hsome
    obtain ⟨hu, hrest⟩ := uniform_ends R hp (n - corrCount n) r'
    have hlen := hc.ended (by simp [hsome])
    have hlen' := hu.ended hrest
    refine ⟨⟨fun z hz => ?_, fun _ => ?_, fun h => absurd h hrest⟩, by simp [hsome, hrest]⟩
    · rcases List.mem_append.mp hz with hz | hz
      · exact hc.pages z hz
      · exact hu.pages z hz
    · rw [List.length_append, hlen, hlen', hcount]

lemma sound_generate (R : Random ρ) (trace_type : TraceType) (n : ℤ) (hp : 1 ≤ n_pages) (r : ρ) :
    Sound n n_pages (trace_type.generate R n n_pages r) := by
  cases trace_type with
  | correlated => exact sound_correlated R n n_pages clusterSize r
  | uniform => exact (uniform_ends R hp n r).1
  | scan => exact sound_scan hp n r
  | mixed => exact (sound_mixed R hp n r).1

/-- Only the clusters can fail. -/
lemma generate_fails (R : Random ρ) (trace_type : TraceType) (n : ℤ) (hp : 1 ≤ n_pages) (r : ρ) :
    (trace_type.generate R n n_pages r).rest = none ↔
      n_pages < clusterSize ∧ Jumps R n_pages (trace_type.clustered n) r := by
  have hsize : 1 ≤ clusterSize := by decide
  have hzero : ¬Jumps R n_pages 0 r := fun ⟨i, hi, _⟩ => absurd hi (Nat.not_lt_zero i)
  cases trace_type with
  | correlated => exact correlated_fails hp hsize
  | uniform => exact iff_of_false (uniform_ends R hp n r).2 fun h => hzero h.2
  | scan => exact iff_of_false (scan_pages hp n r).2 fun h => hzero h.2
  | mixed => exact (sound_mixed R hp n r).2.trans (correlated_fails hp hsize)

/-- A generator that counts, and jumps at each tenth number from eight on. -/
def counter : Random ℕ where
  jump r := (r % 10 = 8, r + 1)
  below r k := (r % k, r + 1)
  below_lt r _ hk := Nat.mod_lt r hk

/-- **What is generated.** Whatever the random numbers, every page printed is one of the
`n_pages`, and there are `n` of them unless an error ends the program; that happens exactly if
the pages are fewer than a cluster and some round leaves the first cluster. -/
theorem generate_spec (R : Random ρ) (trace_type : TraceType) (n n_pages : ℤ) (hp : 1 ≤ n_pages)
    (r : ρ) :
    Sound n n_pages (trace_type.generate R n n_pages r) ∧
      ((trace_type.generate R n n_pages r).rest = none ↔
        n_pages < clusterSize ∧ Jumps R n_pages (trace_type.clustered n) r) :=
  ⟨sound_generate R trace_type n hp r, generate_fails R trace_type n hp r⟩

/-- The theorem at six pages: the fifth round jumps and ends a trace of eight. -/
theorem generate_spec_six : (1 : ℤ) ≤ 6 ∧
    Sound 8 6 (TraceType.correlated.generate counter 8 6 0) ∧
    (TraceType.correlated.generate counter 8 6 0).rest = none ∧
    (TraceType.correlated.generate counter 8 6 0).pages = [1, 3, 5, 1] := by
  obtain ⟨hs, hiff⟩ := generate_spec counter .correlated 8 6 (by decide) 0
  exact ⟨by decide, hs, hiff.mpr ⟨by decide, 4, by decide, by decide⟩, by decide⟩

/-! ### Locality -/

/-- The trace that is loaded from what was drawn. -/
def pagesOf (ds : List Draw) : List Page := ds.map fun d => Int32.ofInt d.page

def jumps (ds : List Draw) : ℕ := ds.countP Draw.jumped

/-- The last draws are in one cluster, and those before them cost a cluster for each jump. -/
def Clustered (k : ℕ) (cluster_size : ℤ) (ds : List Draw) (s : ℤ × ρ) : Prop :=
  ∃ past seg, ds = past ++ seg ∧ lruFaults k (pagesOf past) ≤ cluster_size.toNat * jumps ds ∧
    ∀ d ∈ seg, s.1 ≤ d.page ∧ d.page < s.1 + cluster_size

/-- A cluster has no more pages than its size. -/
lemma card_cluster {seg : List Draw} (h : ∀ d ∈ seg, c ≤ d.page ∧ d.page < c + cluster_size) :
    (pagesOf seg).toFinset.card ≤ cluster_size.toNat := by
  have hsub : (pagesOf seg).toFinset ⊆ (Finset.Ico c (c + cluster_size)).image Int32.ofInt := by
    intro p hp
    obtain ⟨d, hd, rfl⟩ := List.mem_map.mp (List.mem_toFinset.mp hp)
    exact Finset.mem_image_of_mem _ (Finset.mem_Ico.mpr (h d hd))
  refine (Finset.card_le_card hsub).trans (Finset.card_image_le.trans ?_)
  rw [Int.card_Ico]
  omega

lemma Clustered.faults {s : ℤ × ρ} (h : Clustered k cluster_size ds s)
    (hk : cluster_size.toNat ≤ k) :
    lruFaults k (pagesOf ds) ≤ cluster_size.toNat * (jumps ds + 1) := by
  obtain ⟨past, seg, rfl, hpast, hseg⟩ := h
  have hcard := card_cluster hseg
  have hsplit : pagesOf (past ++ seg) = pagesOf past ++ pagesOf seg := List.map_append
  rw [hsplit, Nat.mul_add, Nat.mul_one]
  rcases segment_faults k (pagesOf past) [] (pagesOf seg) with h | h
  · rw [List.append_nil, List.toFinset_nil, Finset.sdiff_empty] at h
    omega
  · rw [List.nil_append] at h
    omega

lemma Clustered.step {s s' : ℤ × ρ} (h : Clustered k cluster_size ds s)
    (hk : cluster_size.toNat ≤ k)
    (hr : correlatedRound R n_pages cluster_size s = some (s', d)) :
    Clustered k cluster_size (ds ++ [d]) s' := by
  obtain ⟨hc, h1, h2, -⟩ := round_spec hr
  have hcount : jumps (ds ++ [d]) = jumps ds + if d.jumped then 1 else 0 := by
    simp [jumps, List.countP_append, List.countP_singleton]
  rcases hc with ⟨hj, e⟩ | ⟨hj, -⟩
  · obtain ⟨past, seg, rfl, hpast, hseg⟩ := h
    refine ⟨past, seg ++ [d], by rw [List.append_assoc], ?_, fun d' hd => ?_⟩
    · rw [hcount, hj]
      exact hpast
    · rcases List.mem_append.mp hd with hd | hd
      · rw [e]
        exact hseg d' hd
      · rw [List.mem_singleton.mp hd]
        exact ⟨h1, h2⟩
  · refine ⟨ds, [d], rfl, ?_, fun d' hd => ?_⟩
    · rw [hcount, hj]
      exact h.faults hk
    · rw [List.mem_singleton.mp hd]
      exact ⟨h1, h2⟩

/-- **Each cluster costs LRU its pages once.** -/
lemma draws_faults (R : Random ρ) (n n_pages : ℤ) (r : ρ) (hk : cluster_size.toNat ≤ k) :
    lruFaults k (pagesOf (draws R n n_pages cluster_size r).1) ≤
      cluster_size.toNat * (jumps (draws R n n_pages cluster_size r).1 + 1) := by
  have hstart : Clustered k cluster_size [] ((0 : ℤ), r) :=
    ⟨[], [], rfl, by simp [pagesOf], by simp⟩
  obtain ⟨s', h, -⟩ := rounds_spec hstart (fun os s s' o hi he => hi.step hk he) n.toNat
  exact h.faults hk

/-- The generated file is loaded as the pages that were printed. -/
lemma load_generated (overflow : List UInt8 → Page) {out : Output ρ} (hs : Sound n n_pages out)
    (hn : n ≤ maxTrace) (hp : n_pages ≤ 2 ^ 31) :
    loadTrace overflow (some (encode out.text)) = out.pages.map Int32.ofInt := by
  have hlen := hs.length_le
  refine load_ids (fun z hz => ?_) (by omega)
  have := hs.pages z hz
  exact ⟨by omega, by omega⟩

lemma mark_not_mem {out : Output ρ} (hs : Sound n n_pages out) (hp : n_pages ≤ 2 ^ 31) :
    (-1 : Page) ∉ out.pages.map Int32.ofInt := by
  intro hm
  obtain ⟨z, hz, e⟩ := List.mem_map.mp hm
  have hpage := hs.pages z hz
  have htoInt := Int32.toInt_ofInt_of_le (n := z) (by omega) (by omega)
  have hmark : Int32.toInt (-1) = -1 := by decide
  rw [e, hmark] at htoInt
  omega

/-- **Correlated traces are local.** Whatever the random numbers, LRU with the frames of a
cluster faults at most once for each page of a cluster and each jump to one, counting the
first; and TempoGraph does so with 64 frames more. -/
theorem correlated_faults (overflow : List UInt8 → Page) (M : Malloc) (σ : Statics)
    (R : Random ρ) (r : ρ) (n n_pages cluster_size : ℤ) (hn : n ≤ maxTrace)
    (hp : n_pages ≤ 2 ^ 31) (hs : 1 ≤ cluster_size) (k : ℕ) (hk : cluster_size ≤ k) (W : ℤ) :
    ∃ tr os, loadTrace overflow
        (some (encode (genCorrelated R n n_pages cluster_size r).text)) = tr ∧
      answers M σ .lru k W tr = some os ∧
      (os.count .fault : ℤ) ≤
        cluster_size * (jumps (draws R n n_pages cluster_size r).1 + 1) ∧
      ∀ m : ℕ, k + 64 ≤ m → m ≤ maxFrames →
        ∃ os', answers M σ .tempograph m W tr = some os' ∧
          (os'.count .fault : ℤ) ≤
            cluster_size * (jumps (draws R n n_pages cluster_size r).1 + 1) := by
  have hsound := sound_correlated R n n_pages cluster_size r
  have htr : (genCorrelated R n n_pages cluster_size r).pages.map Int32.ofInt =
      pagesOf (draws R n n_pages cluster_size r).1 := List.map_map
  have hmark := mark_not_mem hsound hp
  have hbound (k : ℕ) (hk : cluster_size ≤ k) :
      (lruFaults k (pagesOf (draws R n n_pages cluster_size r).1) : ℤ) ≤
        cluster_size * (jumps (draws R n n_pages cluster_size r).1 + 1) := by
    have hnat := draws_faults R n n_pages r (show cluster_size.toNat ≤ k by omega)
    have hcast : (cluster_size.toNat : ℤ) = cluster_size := Int.toNat_of_nonneg (by omega)
    have hint := Int.ofNat_le.mpr hnat
    push_cast [hcast] at hint
    exact hint
  rw [htr] at hmark
  obtain ⟨os, ha, hos⟩ := lru_answers M σ (show 1 ≤ k by omega) W
    (pagesOf (draws R n n_pages cluster_size r).1)
  refine ⟨_, os, (load_generated overflow hsound hn hp).trans htr, ha, ?_, fun m hm hm' => ?_⟩
  · rw [← count_isHit, hos]
    exact hbound k hk
  · obtain ⟨os', ha', hle⟩ := tg_faults_le M σ (show 65 ≤ m by omega) hm' W hmark
    exact ⟨os', ha', le_trans (Int.ofNat_le.mpr hle) (hbound (m - 64) (by omega))⟩

/-- The theorem at eight accesses with one jump: two clusters of ten pages at most. -/
theorem correlated_faults_eight : (8 : ℤ) ≤ maxTrace ∧ (30 : ℤ) ≤ 2 ^ 31 ∧ (1 : ℤ) ≤ 10 ∧
    (10 : ℤ) ≤ (10 : ℕ) ∧
    ∃ tr os, loadTrace wrap (some (encode (genCorrelated counter 8 30 10 0).text)) = tr ∧
      answers Malloc.above start .lru 10 10 tr = some os ∧ (os.count .fault : ℤ) ≤ 20 := by
  obtain ⟨tr, os, hload, ha, hle, -⟩ := correlated_faults wrap Malloc.above start counter 0 8 30 10
    (by decide) (by decide) (by decide) 10 (by decide) 10
  have hjumps : jumps (draws counter 8 30 10 0).1 = 1 := by decide
  rw [hjumps] at hle
  exact ⟨by decide, by decide, by decide, by decide, tr, os, hload, ha, hle⟩

/-! ### Arguments -/

lemma digit_ne_underscore {c : Char} (hc : c.isDigit) : c ≠ '_' := by
  rintro rfl
  exact absurd hc (by decide)

lemma digit_ten {c : Char} (hc : c.isDigit) : digit 10 c = some (c.toNat - 48) := by
  obtain ⟨-, h1, h2⟩ := toNat_toUInt8 hc
  have hvalue : digitValue c = some (c.toNat - 48) := by
    have hle : '0' ≤ c ∧ c ≤ '9' := by
      constructor <;> (rw [Char.le_def, UInt32.le_iff_toNat_le]; assumption)
    rw [digitValue, if_pos hle]
  rw [digit, hvalue, Option.filter_some, if_pos (by simp; omega)]

lemma digitList_digits {s : List Char} (hne : s ≠ []) (hs : ∀ c ∈ s, c.isDigit) :
    digitList 10 s = some (s.map fun c => c.toNat - 48) := by
  induction s with
  | nil => exact absurd rfl hne
  | cons c s ih =>
    have hc := digit_ten (hs c List.mem_cons_self)
    cases s with
    | nil => simp [digitList, hc]
    | cons c' s =>
      have hc' := digit_ne_underscore (hs c' (by simp))
      have hrest := ih (by simp) fun x hx => hs x (List.mem_cons_of_mem _ hx)
      rw [digitList.eq_4 _ _ _ _ (fun h => hc' h), hc, hrest]
      rfl

lemma unsignedInt_digits (hpy : py.allows (Nat.toDigits 10 m).length) :
    unsignedInt py 10 (Nat.toDigits 10 m) = some m := by
  have hdigits := digitList_digits (Nat.toDigits_ne_nil (b := 10) (n := m))
    fun c hc => isDigit_of_mem hc
  have hvalue : (Nat.toDigits 10 m).foldl (fun v c => 10 * v + (c.toNat - 48)) 0 = m := by
    have h : Nat.ofDigitChars 10 (Nat.toDigits 10 m) 0 = m := Nat.ofDigitChars_ten_toDigits
    rwa [Nat.ofDigitChars_eq_foldl] at h
  simp only [unsignedInt, Nat.reduceEqDiff, if_false, hdigits, List.length_map, hpy,
    not_true_eq_false, and_false, List.foldl_map, hvalue]

lemma map_toAscii {s : List Char} (hs : ∀ c ∈ s, c.toNat < 127) : s.map py.toAscii = s := by
  refine (List.map_congr_left fun c hc => ?_).trans (List.map_id s)
  exact if_pos (hs c hc)

lemma mem_pyStr {x : Char} (hx : x ∈ pyStr z) : x = '-' ∨ x.isDigit := by
  unfold pyStr at hx
  split_ifs at hx
  · exact (List.mem_cons.mp hx).imp_right isDigit_of_mem
  · exact Or.inr (isDigit_of_mem hx)

/-- No white space. -/
def Solid (s : List Char) : Prop := ∀ x ∈ s, Preprocess.isSpace x = false

lemma strip_solid {s : List Char} (hs : Solid s) : strip s = s := by
  have hplain : ∀ x ∈ s, ¬Preprocess.isSpace x = true := fun x hx => by simp [hs x hx]
  unfold strip
  rw [List.dropWhile_eq_self_iff.mpr fun h => hplain _ (List.getElem_mem h),
    List.rdropWhile_eq_self_iff.mpr fun h => hplain _ (List.getLast_mem h)]

lemma strip_pyStr (z : ℤ) : strip (pyStr z) = pyStr z := by
  have hplain : Solid (pyStr z) := fun x hx => by
    rcases mem_pyStr hx with rfl | hx
    · decide
    · obtain ⟨-, h1, h2⟩ := toNat_toUInt8 hx
      simp only [Preprocess.isSpace, spaces, List.contains_eq_mem, decide_eq_false_iff_not,
        List.mem_cons, List.not_mem_nil, or_false]
      omega
  exact strip_solid hplain

/-- **`int` takes back what `str` gives.** -/
lemma pyInt_pyStr (hpy : py.allows (Nat.toDigits 10 z.natAbs).length) :
    pyInt py 10 (pyStr z) = some z := by
  have hascii : (pyStr z).map py.toAscii = pyStr z := map_toAscii fun x hx => by
    rcases mem_pyStr hx with rfl | hx
    · decide
    · have := toNat_toUInt8 hx
      omega
  have hdigits := unsignedInt_digits hpy
  unfold pyInt
  rw [hascii]
  unfold pyStr
  split_ifs with hz
  · simp only [hdigits, Option.map_some, Option.some.injEq, Int.ofNat_eq_natCast]
    omega
  · obtain ⟨c, s, hcs⟩ := List.exists_cons_of_ne_nil (Nat.toDigits_ne_nil (b := 10) (n := z.natAbs))
    have hc : c.isDigit := isDigit_of_mem (hcs ▸ List.mem_cons_self)
    have hplus : c ≠ '+' := fun e => absurd hc (by rw [e]; decide)
    have hminus : c ≠ '-' := fun e => absurd hc (by rw [e]; decide)
    rw [hcs] at hdigits ⊢
    split
    · rename_i heq
      exact absurd (List.cons.inj heq).1 hplus
    · rename_i heq
      exact absurd (List.cons.inj heq).1 hminus
    · simp only [hdigits, Option.map_some, Option.some.injEq, Int.ofNat_eq_natCast]
      omega

lemma intArg_pyStr (hpy : py.allows (Nat.toDigits 10 z.natAbs).length) (default : ℤ) :
    intArg py default (some (pyStr z)) = some z := by
  rw [intArg, strip_pyStr, pyInt_pyStr hpy]

def script : List Char := ['g', 'e', 'n', '_', 't', 'r', 'a', 'c', 'e', '.', 'p', 'y']

/-- The arguments that ask for a trace. -/
def request (n n_pages : ℤ) (trace_type : TraceType) : List (List Char) :=
  [script, pyStr n, pyStr n_pages, dashType, trace_type.name]

lemma name_injective : Function.Injective TraceType.name := by
  intro a b
  cases a <;> cases b <;> simp [TraceType.name]

/-- **The arguments are read back.** -/
lemma genTrace_request (R : Random ρ) (r : ρ) (trace_type : TraceType)
    (hn : py.allows (Nat.toDigits 10 n.natAbs).length)
    (hp : py.allows (Nat.toDigits 10 n_pages.natAbs).length) :
    genTrace R py (request n n_pages trace_type) r =
      some (none, trace_type.generate R n n_pages r) := by
  have hout (z : ℤ) : pyStr z ≠ dashOut := fun e => by
    have hmem : 'o' ∈ pyStr z := by rw [e]; decide
    rcases mem_pyStr hmem with h | h <;> exact absurd h (by decide)
  have htype : flag dashType (request n n_pages trace_type) = some trace_type.name := by
    simp [request, flag]
  have hdest : flag dashOut (request n n_pages trace_type) = none := by
    have h1 : script ≠ dashOut := by decide
    have h2 : dashType ≠ dashOut := by decide
    simp [request, flag, hout, h1, h2]
  have hn' : intArg py 10000 (request n n_pages trace_type)[1]? = some n := intArg_pyStr hn _
  have hp' : intArg py 500 (request n n_pages trace_type)[2]? = some n_pages := intArg_pyStr hp _
  unfold genTrace
  simp only [hn', hp', htype, hdest, Option.getD_some, Option.filter_none, name_injective.eq_iff]
  cases trace_type <;> rfl

end Tempograph.GenTrace
