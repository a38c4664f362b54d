import Tempograph.Renaming

/-!
Simulation passes do not see each other.

The policies keep their state in static variables, and a pass starts from whatever the pass
before it has left there. Initialising overwrites every variable that the answers depend on,
so a pass answers as it would in a program of its own.
-/

namespace Tempograph.Isolation

open Common Runs Sim CompulsoryMisses Renaming

variable {M M' : Malloc} {n : ℕ} {tr : List Page}

/-- The arguments of a simulation pass. -/
structure Pass where
  algo : Algo
  nFrames : ℤ
  window : ℤ

def simulate (M : Malloc) (tr : List Page) (σ : Statics) (pass : Pass) :
    Option (Statics × SimResult) := runSim M σ pass.algo pass.nFrames pass.window tr

/-- What the pass reports when it is the first. -/
def alone (M : Malloc) (tr : List Page) (pass : Pass) : Option SimResult :=
  (simulate M tr start pass).map Prod.snd

/-- The passes of `-a all`. -/
def allPasses (n_frames window : ℤ) : List Pass :=
  [.lru, .lfu, .arc, .tempograph, .sieve].map fun algo => ⟨algo, n_frames, window⟩

/-! ### One policy, from any state -/

lemma tg_init_same (s t : TempoGraph.State) (hn' : n ≤ maxFrames) (W : ℤ) :
    TempoGraph.tgInit s n W = TempoGraph.tgInit t n W := by
  rw [TgSafe.tgInit_eq s hn', TgSafe.tgInit_eq t hn']
  rfl

lemma tg_defined (s₀ : TempoGraph.State) (hn : 1 ≤ n) (hn' : n ≤ maxFrames) (W : ℤ)
    (tr : List Page) : ∃ s s' os, TempoGraph.tgInit s₀ n W = some s ∧
      run TempoGraph.tgAccess s tr = some (s', os) := by
  obtain ⟨s, he, hs⟩ := TgSafe.safe_init s₀ hn' W
  obtain ⟨s', os, hrun, -⟩ := TgSafe.safe_run hn hs tr
  exact ⟨s, s', os, he, hrun⟩

/-- **The answers do not depend on what the static variables held.** -/
lemma answers_same (M M' : Malloc) (σ σ' : Statics) (algo : Algo) (hn : 1 ≤ n)
    (hn' : n ≤ maxFrames) (W : ℤ) (tr : List Page) :
    answers M σ algo n W tr = answers M' σ' algo n W tr := by
  have hid := Function.injective_id (α := Page)
  cases algo with
  | lru =>
    obtain ⟨s, t, os, h1, h2⟩ := lru_rename M M' σ.lru σ'.lru hn hid tr
    rw [List.map_id] at h2
    rw [answers_lru, answers_lru, outputs_eq h1, outputs_eq h2]
  | lfu =>
    obtain ⟨s, e1, e2, -⟩ := lfu_rename σ.lfu σ'.lfu hn' hid rfl tr
    rw [answers_lfu e1, answers_lfu e2]
  | arc =>
    obtain ⟨s, t, os, h1, h2⟩ := arc_rename M M' σ.arc σ'.arc hn hid tr
    rw [List.map_id] at h2
    rw [answers_arc, answers_arc, outputs_eq h1, outputs_eq h2]
  | tempograph =>
    obtain ⟨s, -, -, e1, -⟩ := tg_defined σ.tg hn hn' W tr
    have e2 := (tg_init_same σ'.tg σ.tg hn' W).trans e1
    rw [answers_tg e1, answers_tg e2]
  | sieve =>
    obtain ⟨s, t, s', t', os, e1, e2, h1, h2, -⟩ :=
      sieve_rename σ.sieve σ'.sieve hn hn' hid rfl tr
    rw [List.map_id] at h2
    rw [answers_sieve e1, answers_sieve e2, outputs_eq h1, outputs_eq h2]

/-- A pass over a trace that fits ends, and its policy can be reset. -/
lemma replay_defined (M : Malloc) (σ : Statics) (algo : Algo) (hn : 1 ≤ n) (hn' : n ≤ maxFrames)
    (W : ℤ) (hlen : tr.length ≤ maxTrace) :
    ∃ σ' os σ'', replay M σ algo n W tr = some (σ', os) ∧ resetAlgo σ' algo = some σ'' := by
  have hid := Function.injective_id (α := Page)
  cases algo with
  | lru =>
    obtain ⟨s, t, os, h1, -⟩ := lru_rename M M σ.lru σ.lru hn hid tr
    exact ⟨_, os, _, by rw [replay_lru, h1]; rfl, rfl⟩
  | lfu =>
    obtain ⟨s, s', os, e, h1⟩ := lfu_defined σ.lfu hn hn' hlen
    exact ⟨_, os, _, by rw [replay_lfu e, h1]; rfl, rfl⟩
  | arc =>
    obtain ⟨s, t, os, h1, -⟩ := arc_rename M M σ.arc σ.arc hn hid tr
    exact ⟨_, os, _, by rw [replay_arc, h1]; rfl, rfl⟩
  | tempograph =>
    obtain ⟨s, s', os, e, h1⟩ := tg_defined σ.tg hn hn' W tr
    exact ⟨_, os, _, by rw [replay_tg e, h1]; rfl, rfl⟩
  | sieve =>
    obtain ⟨s, t, s', t', os, e, -, h1, -, hs⟩ :=
      sieve_rename σ.sieve σ.sieve hn hn' hid rfl tr
    have hreset : Sieve.sieveReset s' = some (SieveQueue.initState s' s'.n) :=
      SieveQueue.sieveInit_eq (hs.size.trans_le hn') s'
    exact ⟨_, os, _, by rw [replay_sieve e, h1]; rfl, by simp only [resetAlgo, hreset]; rfl⟩

/-! ### Passes one after another -/

/-- One pass, from any state. -/
lemma simulate_same (M M' : Malloc) (σ : Statics) {pass : Pass} (hn : 1 ≤ pass.nFrames)
    (hn' : pass.nFrames ≤ maxFrames) (hlen : tr.length ≤ maxTrace) :
    ∃ σ' r, simulate M tr σ pass = some (σ', r) ∧ alone M' tr pass = some r := by
  obtain ⟨algo, n_frames, W⟩ := pass
  obtain ⟨n, rfl⟩ : ∃ n : ℕ, n_frames = n := ⟨n_frames.toNat, by simp only at hn; omega⟩
  have h1 : 1 ≤ n := by simp only at hn; omega
  have h2 : n ≤ maxFrames := by simp only at hn'; omega
  obtain ⟨σ₁, os₁, σ₂, hr, hs⟩ := replay_defined M σ algo h1 h2 W hlen
  obtain ⟨τ₁, os₂, τ₂, hr', hs'⟩ := replay_defined M' start algo h1 h2 W hlen
  have hos := answers_same M M' σ start algo h1 h2 W tr
  rw [answers, answers, hr, hr'] at hos
  obtain rfl : os₁ = os₂ := Option.some.inj hos
  refine ⟨σ₂, ⟨tr.length, os₁.count .fault⟩, ?_, ?_⟩
  · simp only [simulate, runSim, hr, Option.bind_some, hs, Option.map_some]
  · simp only [alone, simulate, runSim, hr', Option.bind_some, hs', Option.map_some]

/-- **Runs are isolated.** Initialised in any state, a policy answers as it does at the start
of the program; and the passes of a program, those of `-a all` or any others, report what
each reports alone. -/
theorem runs_isolated (M M' : Malloc) (tr : List Page) :
    (∀ (σ : Statics) (algo : Algo) (n : ℕ) (W : ℤ), 1 ≤ n → n ≤ maxFrames →
      answers M σ algo n W tr = answers M' start algo n W tr ∧
        (tr.length ≤ maxTrace → (answers M σ algo n W tr).isSome)) ∧
    (tr.length ≤ maxTrace → ∀ (σ : Statics) (passes : List Pass),
      (∀ pass ∈ passes, 1 ≤ pass.nFrames ∧ pass.nFrames ≤ maxFrames) →
      ∃ σ' rs, run (simulate M tr) σ passes = some (σ', rs) ∧
        rs.map some = passes.map (alone M' tr)) := by
  refine ⟨fun σ algo n W hn hn' => ⟨answers_same M M' σ start algo hn hn' W tr, fun hlen => ?_⟩,
    fun hlen σ passes hp => ?_⟩
  · obtain ⟨σ', os, σ'', h, -⟩ := replay_defined M σ algo hn hn' W hlen
    rw [answers, h]
    rfl
  · induction passes generalizing σ with
    | nil => exact ⟨σ, [], rfl, rfl⟩
    | cons pass passes ih =>
      obtain ⟨hn, hn'⟩ := hp pass List.mem_cons_self
      obtain ⟨σ', r, h1, h2⟩ := simulate_same M M' σ hn hn' hlen
      obtain ⟨σ'', rs, h3, h4⟩ := ih σ' fun q hq => hp q (List.mem_cons_of_mem _ hq)
      exact ⟨σ'', r :: rs, run_cons h1 h3, by rw [List.map_cons, List.map_cons, h2, h4]⟩

/-- `-a all` with two frames and four accesses. -/
theorem runs_isolated_all : ∃ σ' rs,
    run (simulate Malloc.above [1, 2, 3, 1]) start (allPasses 2 10) = some (σ', rs) ∧
      rs.map some = (allPasses 2 10).map (alone Malloc.above [1, 2, 3, 1]) := by
  refine (runs_isolated Malloc.above Malloc.above [1, 2, 3, 1]).2 (by decide) start
    (allPasses 2 10) fun pass hp => ?_
  obtain ⟨algo, -, rfl⟩ := List.mem_map.mp hp
  constructor
  · show (1 : ℤ) ≤ 2
    decide
  · show (2 : ℤ) ≤ maxFrames
    decide

end Tempograph.Isolation
