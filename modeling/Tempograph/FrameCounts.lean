import Tempograph.CommandLine
import Tempograph.TgHazards
import Tempograph.TraceFormat

/-!
Which frame counts the simulator can run.

`main` takes any `int` after `-f`. The policies that keep an array need at least one frame
and no more than the array has; those that keep lists need only a count that is not zero,
since a size that never equals the capacity never makes them evict.
-/

namespace Tempograph.FrameCounts

open Common Runs Sim CompulsoryMisses Isolation CommandLine Hazards

variable {M : Malloc} {σ : Statics} {algo : Algo} {n W z : ℤ} {tr past : List Page} {page : Page}

/-- The hazards that a pass meets, as far as it comes. -/
inductive Reached (M : Malloc) (σ : Statics) (algo : Algo) (n W : ℤ) (tr : List Page) :
    Hazard → Prop
  | init {h : Hazard} (hh : h ∈ initHazards algo n) : Reached M σ algo n W tr h
  | access {past : List Page} {page : Page} {σ' : Statics} {os : List Result} {h : Hazard}
      (hp : past ++ [page] <+: tr) (hr : replay M σ algo n W past = some (σ', os))
      (hh : h ∈ accessHazards algo σ' page) : Reached M σ algo n W tr h
  | reset {σ' : Statics} {os : List Result} {h : Hazard}
      (hr : replay M σ algo n W tr = some (σ', os)) (hh : h ∈ resetHazards algo σ') :
      Reached M σ algo n W tr h

/-- No hazard, and the pass ends. -/
structure SafeRun (M : Malloc) (σ : Statics) (algo : Algo) (n W : ℤ) (tr : List Page) : Prop where
  safe : ∀ h, Reached M σ algo n W tr h → h.Safe
  ends : ∃ p, runSim M σ algo n W tr = some p

/-- The frame counts that a policy can run. -/
def Runnable (n : ℤ) : Algo → Prop
  | .lru | .arc => n ≠ 0
  | .lfu | .tempograph | .sieve => 1 ≤ n ∧ n ≤ maxFrames

/-- The rule for safe passes: a pass that ends is safe if its accesses are, from an invariant
that they keep. -/
lemma safeRun_of {I : Statics → Prop} (hinit : AllSafe (initHazards algo n))
    (hends : ∃ p, runSim M σ algo n W tr = some p)
    (h0 : ∀ σ₀, initAlgo σ algo n W = some σ₀ → I σ₀)
    (hstep : ∀ σ₁ page σ₂ r, I σ₁ → accessAlgo M algo σ₁ page = some (σ₂, r) →
      AllSafe (accessHazards algo σ₁ page) ∧ I σ₂)
    (hreset : ∀ σ₁, I σ₁ → AllSafe (resetHazards algo σ₁)) : SafeRun M σ algo n W tr := by
  obtain ⟨p, hp⟩ := id hends
  obtain ⟨⟨σ', os⟩, hreplay, -⟩ := Option.bind_eq_some_iff.mp hp
  obtain ⟨σ₀, hσ₀, hrun⟩ := Option.bind_eq_some_iff.mp hreplay
  have hkeep {past : List Page} {σ₁ : Statics} {os : List Result}
      (hr : run (accessAlgo M algo) σ₀ past = some (σ₁, os)) : I σ₁ :=
    run_keeps hr (h0 σ₀ hσ₀) fun _ _ _ _ hI hacc => (hstep _ _ _ _ hI hacc).2
  have hrun_of {past : List Page} {σ₁ : Statics} {os : List Result}
      (hr : replay M σ algo n W past = some (σ₁, os)) :
      run (accessAlgo M algo) σ₀ past = some (σ₁, os) := by
    rw [replay, hσ₀] at hr
    exact hr
  refine ⟨fun h hh => ?_, hends⟩
  cases hh with
  | init hh => exact hinit h hh
  | @access past page σ₁ os₁ h hp hr hh =>
    obtain ⟨rest, rfl⟩ := hp
    rw [List.append_assoc] at hrun
    obtain ⟨σ₂, os₂, os₃, h1, h2, -⟩ := run_append_inv hrun
    rw [hrun_of hr, Option.some.injEq, Prod.mk.injEq] at h1
    obtain ⟨rfl, -⟩ := h1
    obtain ⟨σ₃, r, -, hacc, -⟩ := run_cons_inv h2
    exact (hstep _ _ _ _ (hkeep (hrun_of hr)) hacc).1 h hh
  | reset hr hh => exact hreset _ (hkeep (hrun_of hr)) h hh

lemma ends_of_replay {σ' σ'' : Statics} {os : List Result}
    (h : replay M σ algo n W tr = some (σ', os)) (hr : resetAlgo σ' algo = some σ'') :
    ∃ p, runSim M σ algo n W tr = some p :=
  ⟨_, by rw [runSim, h, Option.bind_some, hr, Option.map_some]⟩

/-! ### Lists that are never full -/

/-- A list of `lru.c` below any capacity. -/
def LruFree (s : Lru.State) : Prop :=
  s.capacity < 0 ∧ ∃ l, LruExact.Rep 0 { s with capacity := 0 } l

lemma lruFree_step {s : Lru.State} (h : LruFree s) (page : Page) :
    ∃ s' r, Lru.lruAccess M s page = some (s', r) ∧ LruFree s' := by
  obtain ⟨hcap, l, hl⟩ := h
  cases hg : Lru.hmGet s page with
  | some a =>
    have ha := ((hl.get page a).mp hg).1
    exact ⟨Lru.listPushFront (Lru.listRemove s a) a, .hit, by simp only [Lru.lruAccess, hg], hcap,
      _, LruExact.hit_spec hl ha⟩
  | none =>
    have hsize : s.size = l.length := hl.size
    have hfull : ¬s.size = s.capacity := by omega
    have hnew : ∀ a ∈ l, s.page a ≠ page := fun a ha e => by
      have := (hl.get page a).mpr ⟨ha, e⟩
      rw [show Lru.hmGet { s with capacity := 0 } page = Lru.hmGet s page from rfl, hg] at this
      cases this
    exact ⟨Lru.load M s page, .fault, by simp only [Lru.lruAccess, hg, Lru.evict, if_neg hfull],
      hcap, _, (LruExact.load_spec hl hnew).1⟩

/-- The lists of `arc.c` below any capacity, with no ghosts. -/
def ArcFree (s : Arc.State) : Prop :=
  s.c < 0 ∧ ∃ nd, ArcRefine.Rep 0 { s with c := 0 } nd ∧ nd .b1 = [] ∧ nd .b2 = []

lemma arcFree_hit {s : Arc.State} {nd : Arc.ListId → List ℕ} {l : Arc.ListId} {a : ℕ}
    (hc : s.c < 0) (h : ArcRefine.Rep 0 { s with c := 0 } nd) (h1 : nd .b1 = [])
    (h2 : nd .b2 = []) (ha : a ∈ nd l) : ArcFree (Arc.promote s l a) := by
  have hb1 : Arc.ListId.b1 ≠ l := by
    rintro rfl
    simp [h1] at ha
  have hb2 : Arc.ListId.b2 ≠ l := by
    rintro rfl
    simp [h2] at ha
  refine ⟨hc, _, h.move ha .t2, ?_, ?_⟩
  · rw [ArcRefine.moved_of_ne hb1 (by decide), h1]
  · rw [ArcRefine.moved_of_ne hb2 (by decide), h2]

lemma arcFree_step {s : Arc.State} (h : ArcFree s) (page : Page) :
    ∃ s' r, Arc.arcAccess M s page = some (s', r) ∧ ArcFree s' := by
  obtain ⟨hc, nd, hr, h1, h2⟩ := h
  cases hg : Arc.ahmGet s page with
  | some a =>
    obtain ⟨⟨i, ha⟩, -⟩ := (hr.get page a).mp hg
    have htag : s.list a = i := hr.tag i a ha
    have hfree := arcFree_hit hc hr h1 h2 ha
    cases i with
    | t1 => exact ⟨_, .hit, by simp only [Arc.arcAccess, hg, htag], hfree⟩
    | t2 => exact ⟨_, .hit, by simp only [Arc.arcAccess, hg, htag], hfree⟩
    | b1 => simp [h1] at ha
    | b2 => simp [h2] at ha
  | none =>
    have hs1 : (s.lists .t1).size = (nd .t1).length := hr.size .t1
    have hs2 : (s.lists .b1).size = (nd .b1).length := hr.size .b1
    have hroom : Arc.makeRoom s = some s := by
      unfold Arc.makeRoom
      rw [if_neg (by omega), if_neg (by omega)]
    have hnew : ∀ i, ∀ a ∈ nd i, s.page a ≠ page := fun i a ha e => by
      have := (hr.get page a).mpr ⟨⟨i, ha⟩, e⟩
      rw [show Arc.ahmGet { s with c := 0 } page = Arc.ahmGet s page from rfl, hg] at this
      cases this
    obtain ⟨nd', hr', ha'⟩ := ArcRefine.load_spec M page hr hnew
    have hb1 := congrArg ArcLists.Cache.b1 ha'
    have hb2 := congrArg ArcLists.Cache.b2 ha'
    simp only [ArcRefine.abs, h1, h2, List.map_nil, List.map_eq_nil_iff] at hb1 hb2
    exact ⟨Arc.load M s page, .fault, by simp only [Arc.arcAccess, hg, hroom], hc, nd', hr', hb1,
      hb2⟩

lemma lru_defined (s₀ : Lru.State) (hz : z ≠ 0) (tr : List Page) :
    ∃ s os, run (Lru.lruAccess M) (Lru.lruInit s₀ z) tr = some (s, os) := by
  rcases lt_or_gt_of_ne hz with hneg | hpos
  · have h0 : LruFree (Lru.lruInit s₀ z) := ⟨hneg, [], LruExact.rep_init s₀ 0⟩
    obtain ⟨s, os, hrun, -⟩ := run_inv (f := Lru.lruAccess M) (I := fun _ => LruFree) tr h0
      fun _ page _ _ h => lruFree_step h page
    exact ⟨s, os, hrun⟩
  · obtain ⟨n, rfl⟩ : ∃ n : ℕ, z = n := ⟨z.toNat, by omega⟩
    obtain ⟨s, -, os, hrun, -⟩ := Renaming.lru_rename M M s₀ s₀ (show 1 ≤ n by omega)
      (Function.injective_id (α := Page)) tr
    exact ⟨s, os, hrun⟩

lemma arc_defined (s₀ : Arc.State) (hz : z ≠ 0) (tr : List Page) :
    ∃ s os, run (Arc.arcAccess M) (Arc.arcInit s₀ z) tr = some (s, os) := by
  rcases lt_or_gt_of_ne hz with hneg | hpos
  · have h0 : ArcFree (Arc.arcInit s₀ z) := ⟨hneg, _, ArcRefine.rep_init s₀ 0, rfl, rfl⟩
    obtain ⟨s, os, hrun, -⟩ := run_inv (f := Arc.arcAccess M) (I := fun _ => ArcFree) tr h0
      fun _ page _ _ h => arcFree_step h page
    exact ⟨s, os, hrun⟩
  · obtain ⟨n, rfl⟩ : ∃ n : ℕ, z = n := ⟨z.toNat, by omega⟩
    obtain ⟨s, -, os, hrun, -⟩ := Renaming.arc_rename M M s₀ s₀ (show 1 ≤ n by omega)
      (Function.injective_id (α := Page)) tr
    exact ⟨s, os, hrun⟩

/-! ### Counts that can be run -/

lemma safe_lru (M : Malloc) (σ : Statics) (hz : z ≠ 0) (W : ℤ) (tr : List Page) :
    SafeRun M σ .lru z W tr := by
  obtain ⟨s, os, hrun⟩ := lru_defined (M := M) σ.lru hz tr
  have hreplay : replay M σ .lru z W tr = some ({ σ with lru := s }, os) := by
    rw [replay_lru, hrun]
    rfl
  have hends := ends_of_replay hreplay rfl
  refine safeRun_of (I := fun _ => True) allSafe_nil hends (fun _ _ => trivial)
    (fun σ₁ page σ₂ r _ hacc => ⟨?_, trivial⟩) fun _ _ => allSafe_nil
  obtain ⟨p, hp, -⟩ := Option.map_eq_some_iff.mp hacc
  exact (lru_safe (M := M)).mpr (by simp [hp])

lemma safe_arc (M : Malloc) (σ : Statics) (hz : z ≠ 0) (W : ℤ) (tr : List Page) :
    SafeRun M σ .arc z W tr := by
  obtain ⟨s, os, hrun⟩ := arc_defined (M := M) σ.arc hz tr
  have hreplay : replay M σ .arc z W tr = some ({ σ with arc := s }, os) := by
    rw [replay_arc, hrun]
    rfl
  have hends := ends_of_replay hreplay rfl
  refine safeRun_of (I := fun _ => True) allSafe_nil hends (fun _ _ => trivial)
    (fun σ₁ page σ₂ r _ hacc => ⟨?_, trivial⟩) fun _ _ => allSafe_nil
  obtain ⟨p, hp, -⟩ := Option.map_eq_some_iff.mp hacc
  exact (arc_safe (M := M)).mpr (by simp [hp])

section Arrays

variable {n : ℕ}

lemma safe_lfu (M : Malloc) (σ : Statics) (hn : 1 ≤ n) (hn' : n ≤ maxFrames) (W : ℤ)
    (hlen : tr.length ≤ maxTrace) : SafeRun M σ .lfu n W tr := by
  obtain ⟨σ', os, σ'', hr, hs⟩ := Isolation.replay_defined M σ .lfu hn hn' W hlen
  refine safeRun_of (I := fun σ => σ.lfu.cap = n) ?_ (ends_of_replay hr hs) (fun σ₀ h => ?_)
    (fun σ₁ page σ₂ r hcap hacc => ?_) fun _ _ => allSafe_range.mpr le_rfl
  · exact allSafe_append.mpr ⟨allSafe_range.mpr le_rfl, allSafe_range.mpr hn'⟩
  · obtain ⟨s, hs, rfl⟩ := Option.map_eq_some_iff.mp h
    rw [LfuSteps.lfuInit_eq hn'] at hs
    obtain rfl := Option.some.inj hs
    rfl
  · obtain ⟨p, hp, he⟩ := Option.map_eq_some_iff.mp hacc
    cases he
    exact lfu_safe hcap hn' hp

lemma safe_tg (M : Malloc) (σ : Statics) (hn : 1 ≤ n) (hn' : n ≤ maxFrames) (W : ℤ)
    (hlen : tr.length ≤ maxTrace) : SafeRun M σ .tempograph n W tr := by
  obtain ⟨σ', os, σ'', hr, hs⟩ := Isolation.replay_defined M σ .tempograph hn hn' W hlen
  refine safeRun_of (I := fun σ => TgHazards.Bounded n σ.tg) (allSafe_range.mpr hn')
    (ends_of_replay hr hs) (fun σ₀ h => ?_) (fun σ₁ page σ₂ r hb hacc => ?_)
    fun _ _ => allSafe_nil
  · obtain ⟨s, hs, rfl⟩ := Option.map_eq_some_iff.mp h
    exact TgHazards.bounded_init σ.tg hn' W hs
  · obtain ⟨p, hp, he⟩ := Option.map_eq_some_iff.mp hacc
    cases he
    exact ⟨TgHazards.tg_safe hn hn' hb page, hb.step hn hp⟩

lemma memsetInts_nat (hn' : n ≤ maxFrames) : memsetInts n = n := by
  unfold memsetInts
  simp only [maxFrames] at hn'
  omega

lemma safe_sieve (M : Malloc) (σ : Statics) (hn : 1 ≤ n) (hn' : n ≤ maxFrames) (W : ℤ)
    (hlen : tr.length ≤ maxTrace) : SafeRun M σ .sieve n W tr := by
  obtain ⟨σ', os, σ'', hr, hs⟩ := Isolation.replay_defined M σ .sieve hn hn' W hlen
  have hmemset : AllSafe (sieveInitHazards n) := by
    rw [sieveInitHazards, memsetInts_nat hn']
    exact allSafe_range.mpr hn'
  refine safeRun_of (I := fun σ => σ.sieve.n = n ∧ σ.sieve.hand < σ.sieve.n) hmemset
    (ends_of_replay hr hs) (fun σ₀ h => ?_) (fun σ₁ page σ₂ r hI hacc => ?_) fun σ₁ hI => ?_
  · obtain ⟨s, hs, rfl⟩ := Option.map_eq_some_iff.mp h
    rw [SieveQueue.sieveInit_eq hn'] at hs
    obtain rfl := Option.some.inj hs
    exact ⟨rfl, hn⟩
  · obtain ⟨p, hp, he⟩ := Option.map_eq_some_iff.mp hacc
    cases he
    obtain ⟨hsize, hh⟩ := hI
    obtain ⟨h1, h2⟩ := sieve_hand hh hp
    exact ⟨sieve_safe hh (hsize.trans_le hn'), h1.trans hsize, h2⟩
  · rw [resetHazards, hI.1]
    exact hmemset

end Arrays

/-- **A count that a policy can run is safe.** -/
theorem safe_of_runnable (M : Malloc) (σ : Statics) (h : Runnable n algo) (W : ℤ)
    (hlen : tr.length ≤ maxTrace) : SafeRun M σ algo n W tr := by
  have hnat (h : 1 ≤ n ∧ n ≤ maxFrames) : ∃ m : ℕ, n = m ∧ 1 ≤ m ∧ m ≤ maxFrames :=
    ⟨n.toNat, by omega, by omega, by omega⟩
  cases algo with
  | lru => exact safe_lru M σ h W tr
  | arc => exact safe_arc M σ h W tr
  | lfu =>
    obtain ⟨m, rfl, h1, h2⟩ := hnat h
    exact safe_lfu M σ h1 h2 W hlen
  | tempograph =>
    obtain ⟨m, rfl, h1, h2⟩ := hnat h
    exact safe_tg M σ h1 h2 W hlen
  | sieve =>
    obtain ⟨m, rfl, h1, h2⟩ := hnat h
    exact safe_sieve M σ h1 h2 W hlen

/-! ### Counts that cannot -/

/-- The first access is reached if the initialisation is defined. -/
lemma first_hazard {σ₀ : Statics} (hi : initAlgo σ algo n W = some σ₀)
    (h : ¬AllSafe (accessHazards algo σ₀ page)) :
    ∃ x, Reached M σ algo n W (page :: tr) x ∧ ¬x.Safe := by
  have hr : replay M σ algo n W [] = some (σ₀, []) := by
    rw [replay, hi]
    rfl
  simp only [AllSafe, not_forall] at h
  obtain ⟨x, hx, hbad⟩ := h
  exact ⟨x, .access ⟨tr, rfl⟩ hr hx, hbad⟩

/-- Initialising more frames than the arrays have. -/
lemma frame_maxFrames {m : ℕ} (h : maxFrames < m) :
    frame maxFrames ∈ frames (List.range m) ∧ ¬(frame maxFrames).Safe :=
  ⟨List.mem_map.mpr ⟨maxFrames, List.mem_range.mpr h, rfl⟩, by simp⟩

/-- With no frames no slot is found. -/
lemma lfu_zero (s₀ : Lfu.State) (hn : n ≤ 0) (page : Page) :
    ∃ s, Lfu.lfuInit s₀ n = some s ∧ Lfu.lfuAccess s page = none := by
  have hmax : ¬n > maxFrames := by omega
  have hnat : n.toNat = 0 := by omega
  refine ⟨_, by rw [Lfu.lfuInit, if_neg hmax], ?_⟩
  simp [Lfu.lfuAccess, Lfu.find, Lfu.victim, Lfu.leastUsed, Lfu.lfuReset, hnat, not_lt.mpr hn]

/-- With no frames there is no tail. -/
lemma tg_zero (s₀ : TempoGraph.State) (hn : n ≤ 0) (W : ℤ) (page : Page) :
    ∃ s, TempoGraph.tgInit s₀ n W = some s ∧ TempoGraph.tgAccess s page = none := by
  have hmax : ¬n > maxFrames := by omega
  refine ⟨_, by rw [TempoGraph.tgInit, if_neg hmax], ?_⟩
  rw [TgSafe.access_eq]
  simp [TgSafe.prepare, TempoGraph.chooseVictim, TempoGraph.evictionVictim, TempoGraph.sample,
    TempoGraph.tgReset, TempoGraph.sampleSize, LinkedList.follow, LinkedList.Ends.empty,
    not_lt.mpr hn]

lemma memsetInts_large (h1 : -2 ^ 31 ≤ n) (h2 : n < 2 ^ 31) (h : ¬(0 ≤ n ∧ n ≤ maxFrames)) :
    maxFrames < memsetInts n := by
  unfold memsetInts
  simp only [maxFrames] at *
  omega

/-- No frames and a divisor of zero: the hand cannot step on. -/
lemma sieve_zero {s : Sieve.State} (hs : s.n = 0) (page : Page) :
    Hazard.divide 0 ∈ sieveAccessHazards s page := by
  have hf : Sieve.find s page = none := by simp [Sieve.find, hs]
  simp only [sieveAccessHazards, hf, hs]
  cases hv : s.visited s.hand with
  | true => simp [SieveHistory.passes, hv]
  | false => simp [Sieve.advance, hv, hs]

/-- Too many frames for an array, or none. -/
lemma too_many_or_none (h : ¬(1 ≤ n ∧ n ≤ maxFrames)) : maxFrames < n.toNat ∨ n ≤ 0 := by
  omega

/-- **A count that a policy cannot run leads to a hazard**: with no frames to a null tail, the
frame -1 or a remainder by zero, with too many to an entry after the last. -/
theorem hazard_of_not_runnable (M : Malloc) (σ : Statics) (hfit : LoadTrace.Fits n)
    (h : ¬Runnable n algo) (W : ℤ) (hne : tr ≠ []) :
    ∃ x, Reached M σ algo n W tr x ∧ ¬x.Safe := by
  obtain ⟨page, tr, rfl⟩ := List.exists_cons_of_ne_nil hne
  cases algo with
  | lru =>
    obtain rfl : n = 0 := not_not.mp h
    have hnone : Lru.lruAccess M (Lru.lruInit σ.lru 0) page = none := rfl
    have hbad : ¬AllSafe (lruAccessHazards (Lru.lruInit σ.lru 0) page) :=
      fun hsafe => lru_safe.mp hsafe hnone
    exact first_hazard rfl hbad
  | arc =>
    obtain rfl : n = 0 := not_not.mp h
    have hnone : Arc.arcAccess M (Arc.arcInit σ.arc 0) page = none := rfl
    have hbad : ¬AllSafe (arcAccessHazards (Arc.arcInit σ.arc 0) page) :=
      fun hsafe => arc_safe.mp hsafe hnone
    exact first_hazard rfl hbad
  | lfu =>
    rcases too_many_or_none h with hmax | hn
    · obtain ⟨hmem, hbad⟩ := frame_maxFrames hmax
      exact ⟨_, .init (List.mem_append_right _ hmem), hbad⟩
    · obtain ⟨s, hs, hnone⟩ := lfu_zero σ.lfu hn page
      have hi : initAlgo σ .lfu n W = some { σ with lfu := s } := by
        rw [initAlgo, hs, Option.map_some]
      exact first_hazard hi fun hsafe => frame_none (hsafe _ (lfu_undefined hnone))
  | tempograph =>
    rcases too_many_or_none h with hmax | hn
    · obtain ⟨hmem, hbad⟩ := frame_maxFrames hmax
      exact ⟨_, .init hmem, hbad⟩
    · obtain ⟨s, hs, hnone⟩ := tg_zero σ.tg hn W page
      have hi : initAlgo σ .tempograph n W = some { σ with tg := s } := by
        rw [initAlgo, hs, Option.map_some]
      exact first_hazard hi fun hsafe => frame_none (hsafe _ (TgHazards.tg_undefined hnone))
  | sieve =>
    by_cases hrange : 0 ≤ n ∧ n ≤ maxFrames
    · obtain rfl : n = 0 := by
        by_contra hpos
        exact h ⟨by omega, hrange.2⟩
      have hs : Sieve.sieveInit σ.sieve 0 = some (SieveQueue.initState σ.sieve 0) :=
        SieveQueue.sieveInit_eq (n := 0) (Nat.zero_le _) σ.sieve
      have hi : initAlgo σ .sieve 0 W =
          some { σ with sieve := SieveQueue.initState σ.sieve 0 } := by
        rw [initAlgo, hs, Option.map_some]
      exact first_hazard hi fun hsafe => hsafe _ (sieve_zero rfl page) rfl
    · obtain ⟨hmem, hbad⟩ := frame_maxFrames (memsetInts_large hfit.1 hfit.2 hrange)
      exact ⟨_, .init hmem, hbad⟩

/-- A pass is safe exactly if its policy can run its frame count. -/
theorem safeRun_iff (M : Malloc) (σ : Statics) (algo : Algo) (hfit : LoadTrace.Fits n) (W : ℤ)
    (hne : tr ≠ []) (hlen : tr.length ≤ maxTrace) :
    SafeRun M σ algo n W tr ↔ Runnable n algo := by
  refine ⟨fun h => ?_, fun h => safe_of_runnable M σ h W hlen⟩
  by_contra hn
  obtain ⟨x, hx, hbad⟩ := hazard_of_not_runnable M σ hfit hn W hne
  exact hbad (h.safe x hx)

lemma runnable_all : (∀ algo, Runnable n algo) ↔ 1 ≤ n ∧ n ≤ maxFrames := by
  refine ⟨fun h => h .lfu, fun h algo => ?_⟩
  have hne : n ≠ 0 := by omega
  cases algo with
  | lru => exact hne
  | arc => exact hne
  | lfu => exact h
  | tempograph => exact h
  | sieve => exact h

/-! ### The program -/

variable {overflow : List UInt8 → Int32} {files : Arg → Option (List UInt8)} {args : List Arg}
  {o : Options} {trace : List Page}

lemma accept_fits (h : accept overflow files args = .ok (o, trace)) :
    trace ≠ [] ∧ trace.length ≤ maxTrace := by
  obtain ⟨hne, file, rfl⟩ := accept_trace h
  exact ⟨hne, TraceFormat.loadTrace_length file⟩

/-- A program that can run its passes reports on each. -/
theorem main_ends (M : Malloc) (h : accept overflow files args = .ok (o, trace))
    (hrun : ∀ pass ∈ passes o, Runnable pass.nFrames pass.algo) :
    ∃ rs, main overflow M files args = .ok (some rs) ∧ rs.length = (passes o).length := by
  obtain ⟨-, hlen⟩ := accept_fits h
  obtain ⟨σ, rs, hrs, -⟩ : ∃ σ rs, run (simulate M trace) start (passes o) = some (σ, rs) ∧ True :=
    run_inv (I := fun _ _ => True) (passes o) trivial fun past pass σ hp _ => by
      have hpass := hrun pass (hp.subset (by simp))
      obtain ⟨p, hp⟩ := (safe_of_runnable M σ hpass pass.window hlen).ends
      exact ⟨p.1, p.2, hp, trivial⟩
  refine ⟨rs, ?_, run_length hrs⟩
  simp only [main, h, outputs_eq hrs]

/-- The frame count 0 is accepted, and SIEVE divides by it. -/
theorem frames_zero : ¬ ∀ (M : Malloc) (overflow : List UInt8 → Int32)
    (files : Arg → Option (List UInt8)) (args : List Arg) (o : Options) (trace : List Page),
    accept overflow files args = .ok (o, trace) →
      ∀ σ algo, SafeRun M σ algo o.nFrames.toInt o.window.toInt trace := by
  intro h
  have hload : LoadTrace.loadTrace (fun _ => 0) (some [49, 10]) = [1] := by decide
  have hacc := @accept_request (fun _ => 0) (fun _ => some [49, 10]) [116] (by decide)
    (by simp [hload]) 0 10
  obtain ⟨hne, hlen⟩ := accept_fits hacc
  have hrun : Runnable (0 : Int32).toInt .sieve :=
    (safeRun_iff Malloc.above start .sieve (fits_toInt 0) _ hne hlen).mp
      (h Malloc.above _ _ _ _ _ hacc start .sieve)
  exact absurd hrun.1 (by decide)

/-- **Frame counts.** `main` refuses no frame count, whatever the window. All five policies
run the trace safely exactly if there is a frame and the arrays have that many; each of them
does so exactly if it can run the count. -/
theorem frame_counts (M : Malloc) (overflow : List UInt8 → Int32)
    (files : Arg → Option (List UInt8)) :
    (∀ (path : Arg) (n w : Int32), path.head? ≠ some minus →
      LoadTrace.loadTrace overflow (files path) ≠ [] →
      accept overflow files (request n w path) =
        .ok (⟨n, w, none, some path⟩, LoadTrace.loadTrace overflow (files path))) ∧
    ∀ (args : List Arg) (o : Options) (trace : List Page),
      accept overflow files args = .ok (o, trace) →
      ((∀ σ algo, SafeRun M σ algo o.nFrames.toInt o.window.toInt trace) ↔
        1 ≤ o.nFrames.toInt ∧ o.nFrames.toInt ≤ maxFrames) ∧
      ∀ σ algo, SafeRun M σ algo o.nFrames.toInt o.window.toInt trace ↔
        Runnable o.nFrames.toInt algo := by
  refine ⟨fun path n w hpath hne => accept_request hpath hne n w, fun args o trace h => ?_⟩
  obtain ⟨hne, hlen⟩ := accept_fits h
  have hiff (σ : Statics) (algo : Algo) :=
    safeRun_iff M σ algo (fits_toInt o.nFrames) o.window.toInt hne hlen
  refine ⟨?_, hiff⟩
  rw [← runnable_all]
  exact ⟨fun hs algo => (hiff start algo).mp (hs start algo), fun hr σ algo =>
    (hiff σ algo).mpr (hr algo)⟩

/-- The theorem at a trace of one access: two frames are safe, and 513 are accepted. -/
theorem frame_counts_two :
    LoadTrace.loadTrace (fun _ => 0) (some [49, 10]) = [1] ∧
      (∀ σ algo, SafeRun Malloc.above σ algo 2 10 [1]) ∧
      ¬∀ σ algo, SafeRun Malloc.above σ algo 513 10 [1] := by
  have hload : LoadTrace.loadTrace (fun _ => 0) (some [49, 10]) = [1] := by decide
  obtain ⟨hacc, hiff⟩ := frame_counts Malloc.above (fun _ => 0) fun _ => some [49, 10]
  have hne : LoadTrace.loadTrace (fun _ => 0) (some [49, 10]) ≠ [] := by simp [hload]
  have h2 := (hiff _ _ _ (hacc [116] 2 10 (by decide) hne)).1
  have h513 := (hiff _ _ _ (hacc [116] 513 10 (by decide) hne)).1
  rw [hload] at h2 h513
  exact ⟨hload, h2.mpr (by decide), fun h => absurd (h513.mp h) (by decide)⟩

end Tempograph.FrameCounts
