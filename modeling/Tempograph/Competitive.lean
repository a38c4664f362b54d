import Tempograph.DemandPaging

/-!
How far the policies are from the best.

On no trace does `lru.c` fault much more often than a smaller cache, even one that knows the
trace, and with a sampled eviction neither does `tempograph.c`. In the worst case no policy
does better: each can be made to fault at every access of a trace that a cache of its size
can serve almost without faults.
-/

namespace Tempograph.Competitive

open Common Recency Runs Sim CompulsoryMisses Renaming Paging DemandPaging

variable {M M' : Malloc} {σ σ' : Statics} {algo : Algo} {n h : ℕ} {W : ℤ} {tr : List Page}
  {os : List Result} {bs : List Bool} {D : Finset Page}

@[simp] lemma count_isHit (os : List Result) : (os.map isHit).count false = os.count .fault := by
  induction os with
  | nil => rfl
  | cons r os ih => cases r <;> simp [isHit, ih]

lemma isHit_eq_false {r : Result} : isHit r = false ↔ r = .fault := by cases r <;> decide

/-- A policy answers as demand paging that begins with no page. -/
lemma answers_serves (M : Malloc) (σ : Statics) (algo : Algo) (hn : 1 ≤ n) (hn' : n ≤ maxFrames)
    (W : ℤ) (hs : Suits algo tr) :
    ∃ os D, answers M σ algo n W tr = some os ∧ Serves n ∅ tr (os.map isHit) D := by
  obtain ⟨σ', os, h, -, hserves⟩ := good_replay M σ algo hn hn' W hs
  exact ⟨os, _, by rw [answers, h]; rfl, hserves⟩

/-! ### Upper bounds -/

/-- **LRU is competitive.** However a cache of `h ≤ n` pages is run, `lru.c` has at most
`n / (n + 1 - h)` times its faults, on every trace; that cache may be any of the policies. -/
theorem lru_rivals (M : Malloc) (σ : Statics) (n : ℕ) (hn : 1 ≤ n) (W : ℤ) (tr : List Page) :
    ∃ os, answers M σ .lru n W tr = some os ∧ ∀ h, 1 ≤ h → h ≤ n →
      (∀ bs D, Serves h ∅ tr bs D → (n + 1 - h) * os.count .fault ≤ n * bs.count false) ∧
      ∀ (M' : Malloc) (σ' : Statics) (algo : Algo) (W' : ℤ), h ≤ maxFrames → Suits algo tr →
        ∃ os', answers M' σ' algo h W' tr = some os' ∧
          (n + 1 - h) * os.count .fault ≤ n * os'.count .fault := by
  obtain ⟨os, ha, hos⟩ := lru_answers M σ hn W tr
  have hcount : os.count .fault = lruFaults n tr := by rw [lruFaults, ← hos, count_isHit]
  refine ⟨os, ha, fun h h1 hk => ⟨fun bs D hs => ?_, fun M' σ' algo W' hm hs => ?_⟩⟩
  · rw [hcount]
    exact lru_competitive h1 hk hs
  · obtain ⟨os', D, ha', hserves⟩ := answers_serves M' σ' algo h1 hm W' hs
    refine ⟨os', ha', ?_⟩
    rw [hcount, ← count_isHit os']
    exact lru_competitive h1 hk hserves

/-- The theorem at two frames: the optimum of one frame for a trace of three pages. -/
theorem lru_rivals_two : 1 ≤ 2 ∧ ∃ os, answers Malloc.above start .lru 2 10 [3, 5, 3] = some os ∧
    ∀ bs (D : Finset Page), Serves 1 ∅ [3, 5, 3] bs D →
      2 * os.count .fault ≤ 2 * bs.count false := by
  obtain ⟨os, ha, h⟩ := lru_rivals Malloc.above start 2 (by decide) 10 [3, 5, 3]
  exact ⟨by decide, os, ha, (h 1 le_rfl (by decide)).1⟩

/-- A policy that faults on none of the most recently used pages has no more faults. -/
lemma count_fault_le_lruFaults {c : ℕ} (hlen : os.length = tr.length)
    (h : ∀ k (hk : k < tr.length) (hk' : k < os.length), os[k] = .fault →
      tr[k] ∉ (recency (tr.take k)).take c) : os.count .fault ≤ lruFaults c tr := by
  rw [← count_isHit]
  refine count_false_le_lruFaults (by simpa using hlen) fun k hk hk' e => ?_
  exact h k hk (by simpa using hk') (isHit_eq_false.mp (by simpa using e))

/-- With a sampled eviction TempoGraph faults no more often than the pages that it does not
sample would. -/
lemma tg_faults_le (M : Malloc) (σ : Statics) (hn : 65 ≤ n) (hn' : n ≤ maxFrames) (W : ℤ)
    (htr : (-1 : Page) ∉ tr) :
    ∃ os, answers M σ .tempograph n W tr = some os ∧ os.count .fault ≤ lruFaults (n - 64) tr := by
  obtain ⟨s, t, os, he, hrun, -, hos⟩ := TgFrames.tg_run σ.tg (by omega) hn' W tr htr
  refine ⟨os, by rw [answers_tg he, outputs_eq hrun], ?_⟩
  exact count_fault_le_lruFaults (run_length hrun) fun k hk hk' e hm =>
    hos k hk hk' e (mem_take_recency_map TempoGraph.pageIdx hm)

/-- **TempoGraph is competitive.** With 65 frames or more, on a trace without the page -1,
it has at most `(n - 64) / (n - 63 - h)` times the faults of a cache of `h ≤ n - 64` pages,
however that one is run; two pages may share an index here. -/
theorem tg_rivals (M : Malloc) (σ : Statics) (n : ℕ) (hn : 65 ≤ n) (hn' : n ≤ maxFrames) (W : ℤ)
    (tr : List Page) (htr : (-1 : Page) ∉ tr) :
    ∃ os, answers M σ .tempograph n W tr = some os ∧ ∀ h bs D, 1 ≤ h → h ≤ n - 64 →
      Serves h ∅ tr bs D → (n - 63 - h) * os.count .fault ≤ (n - 64) * bs.count false := by
  obtain ⟨os, ha, hle⟩ := tg_faults_le M σ hn hn' W htr
  refine ⟨os, ha, fun h bs D h1 hk hs => ?_⟩
  have hlru := lru_competitive h1 hk hs
  calc (n - 63 - h) * os.count .fault
      ≤ (n - 64 + 1 - h) * lruFaults (n - 64) tr := Nat.mul_le_mul (by omega) hle
    _ ≤ (n - 64) * bs.count false := hlru

/-- The theorem at 65 frames and a trace with two pages of one index. -/
theorem tg_rivals_alias : 65 ≤ 65 ∧ 65 ≤ maxFrames ∧ (-1 : Page) ∉ [3, 4099, 3] ∧
    ∃ os, answers Malloc.above start .tempograph 65 10 [3, 4099, 3] = some os ∧
      ∀ bs (D : Finset Page), Serves 1 ∅ [3, 4099, 3] bs D →
        os.count .fault ≤ bs.count false := by
  obtain ⟨os, ha, h⟩ := tg_rivals Malloc.above start 65 le_rfl (by decide) 10 [3, 4099, 3]
    (by decide)
  refine ⟨le_rfl, by decide, by decide, os, ha, fun bs D hs => ?_⟩
  simpa using h 1 bs D le_rfl le_rfl hs

/-! ### One frame -/

/-- **With one frame there is nothing to choose.** An access hits exactly if it repeats the
one before, so all five policies give the same answers. -/
theorem one_frame (M : Malloc) (σ : Statics) (algo : Algo) (W : ℤ) (tr : List Page)
    (hs : Suits algo tr) :
    ∃ os, answers M σ algo 1 W tr = some os ∧ os.map isHit = repeats none tr ∧
      ∀ (M' : Malloc) (σ' : Statics) (algo' : Algo) (W' : ℤ), Suits algo' tr →
        answers M' σ' algo' 1 W' tr = some os := by
  have hrepeats (M : Malloc) (σ : Statics) {algo : Algo} (W : ℤ) (hs : Suits algo tr) :
      ∃ os, answers M σ algo 1 W tr = some os ∧ os.map isHit = repeats none tr := by
    obtain ⟨os, D, ha, hserves⟩ := answers_serves M σ algo le_rfl (by decide) W hs
    exact ⟨os, ha, hserves.eq_repeats (by simp)⟩
  have hinj : Function.Injective isHit := fun r r' e => by cases r <;> cases r' <;> simp_all [isHit]
  obtain ⟨os, ha, hos⟩ := hrepeats M σ W hs
  refine ⟨os, ha, hos, fun M' σ' algo' W' hs' => ?_⟩
  obtain ⟨os', ha', hos'⟩ := hrepeats M' σ' W' hs'
  rw [ha', List.map_injective_iff.mpr hinj (hos'.trans hos.symm)]

/-- The theorem at a trace that repeats a page. -/
theorem one_frame_repeat : Suits .tempograph [7, 7, 9] ∧
    ∃ os, answers Malloc.above start .tempograph 1 10 [7, 7, 9] = some os ∧
      os.map isHit = [false, true, false] := by
  have hs : Suits .tempograph [7, 7, 9] := by
    refine ⟨by decide, ?_⟩
    simp only [Incongruent, List.mem_cons, List.not_mem_nil, or_false, forall_eq_or_imp, forall_eq]
    decide
  obtain ⟨os, ha, hos, -⟩ := one_frame Malloc.above start .tempograph 10 [7, 7, 9] hs
  exact ⟨hs, os, ha, hos⟩

/-! ### The worst case -/

/-- The pages 0 to `n`. -/
def pool (n : ℕ) : Finset Page := (Finset.range (n + 1)).image fun i => Int32.ofNat i

lemma pageIdx_ofNat {i : ℕ} (hi : i < maxUnique) : TempoGraph.pageIdx (Int32.ofNat i) = i := by
  have h32 : i < 2 ^ 32 := by simp only [maxUnique] at hi; omega
  have hval : unsignedOf (Int32.ofNat i) = i := by
    show (UInt32.ofNat i).toNat = i
    rw [UInt32.toNat_ofNat', Nat.mod_eq_of_lt h32]
  rw [TempoGraph.pageIdx, hval, Nat.mod_eq_of_lt hi]

lemma pageIdx_pool (hn : n ≤ maxFrames) {p : Page} (hp : p ∈ pool n) :
    ∃ i ≤ n, p = Int32.ofNat i ∧ TempoGraph.pageIdx p = i := by
  obtain ⟨i, hi, rfl⟩ := Finset.mem_image.mp hp
  have hi := Finset.mem_range.mp hi
  exact ⟨i, by omega, rfl, pageIdx_ofNat (by simp only [maxFrames, maxUnique] at *; omega)⟩

lemma card_pool (hn : n ≤ maxFrames) : (pool n).card = n + 1 := by
  rw [pool, Finset.card_image_of_injOn, Finset.card_range]
  intro i hi j hj e
  have hlt {k : ℕ} (hk : k ∈ (Finset.range (n + 1) : Set ℕ)) : k < maxUnique := by
    have := Finset.mem_range.mp hk
    simp only [maxFrames, maxUnique] at *
    omega
  rw [← pageIdx_ofNat (hlt hi), ← pageIdx_ofNat (hlt hj)]
  exact congrArg TempoGraph.pageIdx e

/-- Every policy runs a trace of these pages. -/
lemma suits_pool (hn : n ≤ maxFrames) (hU : ∀ p ∈ tr, p ∈ pool n) (hlen : tr.length ≤ maxTrace) :
    Suits algo tr := by
  have hmark : (-1 : Page) ∉ tr := fun h => by
    obtain ⟨i, hi, -, e⟩ := pageIdx_pool hn (hU _ h)
    have : TempoGraph.pageIdx (-1) = 4095 := by decide
    simp only [maxFrames] at hn
    omega
  have hinc : Incongruent tr := fun p hp q hq e => by
    obtain ⟨i, -, rfl, hi⟩ := pageIdx_pool hn (hU p hp)
    obtain ⟨j, -, rfl, hj⟩ := pageIdx_pool hn (hU q hq)
    rw [show i = j by omega]
  cases algo with
  | lru => trivial
  | arc => trivial
  | lfu => exact ⟨hmark, hlen⟩
  | tempograph => exact ⟨hmark, hinc⟩
  | sieve => exact hmark

/-- The pages that a policy holds after a trace. -/
def residentsAfter (M : Malloc) (σ : Statics) (algo : Algo) (n : ℕ) (W : ℤ) (tr : List Page) :
    Finset Page :=
  match replay M σ algo n W tr with
  | none => ∅
  | some (σ', _) => (residents algo σ').toFinset

lemma serves_all_faults {M : Malloc} (hn : 1 ≤ n) (hn' : n ≤ maxFrames) (hs : Suits algo tr)
    (hall : ∀ past x, past ++ [x] <+: tr → x ∉ residentsAfter M σ algo n W past) :
    answers M σ algo n W tr = some (List.replicate tr.length .fault) := by
  obtain ⟨σ₀, hinit, hg, -⟩ := good_init σ algo hn hn' W
  have hreplay (past : List Page) : replay M σ algo n W past = run (accessAlgo M algo) σ₀ past := by
    rw [replay, hinit]
    rfl
  obtain ⟨σ₁, os, hrun, -, hos⟩ := @run_spec _ _ _ (accessAlgo M algo)
    (fun past σ₁ => Good algo n past σ₁ ∧ ∃ os, run (accessAlgo M algo) σ₀ past = some (σ₁, os))
    (fun _ _ r => r = .fault) σ₀ tr ⟨hg, [], rfl⟩ fun past page σ₁ hp hi => by
      obtain ⟨hg₁, os, hrun⟩ := hi
      obtain ⟨σ₂, r, ha, hg₂, hserved⟩ := serving (M := M) hn hg₁ (hs.mono hp)
      refine ⟨σ₂, r, ha, ⟨hg₂, os ++ [r], run_snoc hrun ha⟩, ?_⟩
      have hnot := hall past page hp
      simp only [residentsAfter, hreplay, hrun] at hnot
      rw [← isHit_eq_false, ← Bool.not_eq_true, hserved.hit_iff]
      exact hnot
  rw [answers, hreplay, hrun, Option.map_some]
  congr 1
  refine List.eq_replicate_iff.mpr ⟨run_length hrun, fun r hr => ?_⟩
  obtain ⟨k, hk, rfl⟩ := List.getElem_of_mem hr
  exact hos k (by rwa [← run_length hrun]) hk

/-- **No policy is better in the worst case.** For each of the five there is a trace over
`n + 1` pages, of any length that can be loaded, where every access is a fault; a cache of
`n` pages that knows the trace has about one fault in `n` accesses there. -/
theorem worst_case (M : Malloc) (σ : Statics) (algo : Algo) (n : ℕ) (hn : 1 ≤ n)
    (hn' : n ≤ maxFrames) (W : ℤ) (L : ℕ) (hL : L ≤ maxTrace) :
    ∃ tr, tr.length = L ∧ tr.toFinset.card ≤ n + 1 ∧ (∀ algo', Suits algo' tr) ∧
      answers M σ algo n W tr = some (List.replicate L .fault) ∧
      ∃ bs D, Serves n ∅ tr bs D ∧ n * bs.count false ≤ L + (n - 1) + n * n := by
  obtain ⟨tr, hlen, hU, hall⟩ := exists_all_faults (U := pool n) (L := L)
    (residentsAfter M σ algo n W) fun past hU hlt => by
      have hs : Suits algo past := suits_pool hn' hU (by omega)
      obtain ⟨σ', os, h, hg, -⟩ := good_replay M σ algo hn hn' W hs
      obtain ⟨-, hres⟩ := good_residents hg hs
      rw [residentsAfter, h, card_pool hn']
      exact (List.toFinset_card_le _).trans_lt (by omega)
  have hs (algo' : Algo) : Suits algo' tr := suits_pool hn' hU (by omega)
  obtain ⟨bs, D, hserves, hle⟩ :=
    exists_serves_few hn (card_pool hn') hU (Finset.empty_subset _) (Nat.zero_le n)
  refine ⟨tr, hlen, ?_, hs, ?_, bs, D, hserves, by simpa [hlen] using hle⟩
  · rw [← card_pool hn']
    exact Finset.card_le_card fun p hp => hU p (List.mem_toFinset.mp hp)
  · rw [← hlen]
    exact serves_all_faults hn hn' (hs algo) hall

/-- The theorem at two frames and twelve accesses: at most eight faults are needed. -/
theorem worst_case_two : 1 ≤ 2 ∧ 2 ≤ maxFrames ∧ 12 ≤ maxTrace ∧
    ∃ tr, tr.length = 12 ∧
      answers Malloc.above start .tempograph 2 10 tr = some (List.replicate 12 .fault) ∧
      ∃ bs D, Serves 2 ∅ tr bs D ∧ bs.count false ≤ 8 := by
  obtain ⟨tr, hlen, -, -, ha, bs, D, hs, hle⟩ :=
    worst_case Malloc.above start .tempograph 2 (by decide) (by decide) 10 12 (by decide)
  exact ⟨by decide, by decide, by decide, tr, hlen, ha, bs, D, hs, by omega⟩

end Tempograph.Competitive
