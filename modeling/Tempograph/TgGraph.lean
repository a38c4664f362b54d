import Tempograph.EdgeRows
import Tempograph.TgSafe

/-!
The graph over whole runs of `tempograph.c`.

What an access learns is a function of the trace alone, and the graphs that are learned are
built from nothing by occurrences and sweeps. So a fact that both keep holds in every run:
no node has an edge to itself, and no weight is ever zero. Decay does not get there either,
for it takes nothing off a weight below 64.
-/

namespace Tempograph.TgGraph

open Common Tempograph.Graph LinkedList SlidingWindow Runs TempoGraph TgSafe EdgeRows

variable {n u v : ℕ} {g : Adj} {s s' : State} {page : Page} {r : Result}

/-! ### What is learned -/

/-- The part of the state that an access learns in. -/
structure Memory where
  graph : Adj
  win : Window ℕ
  accessCount : ℕ

def memory (s : State) : Memory := ⟨s.graph, s.win, s.accessCount⟩

/-- The memory that `tg_init` leaves. -/
def blank (W : ℤ) : Memory := ⟨Adj.zero, ⟨fun _ => 0, 0, 0, windowOf W⟩, 0⟩

def learn (m : Memory) (page : Page) : Memory where
  graph := addEdges
    (if (m.accessCount + 1) % decayInterval = 0 then applyDecay m.graph else m.graph)
    m.win.items (pageIdx page)
  win := m.win.slide (pageIdx page)
  accessCount := m.accessCount + 1

lemma memory_access (h : tgAccess s page = some (s', r)) : memory s' = learn (memory s) page := by
  obtain ⟨h1, h2, h3⟩ := access_learns h
  unfold memory
  rw [h1, h2, h3]
  rfl

lemma memory_run {tr : List Page} {os : List Result} (h : run tgAccess s tr = some (s', os)) :
    memory s' = tr.foldl learn (memory s) := by
  induction tr generalizing s os with
  | nil =>
    obtain ⟨rfl, -⟩ : s = s' ∧ [] = os := by simpa using h
    rfl
  | cons page tr ih =>
    obtain ⟨t, o, os', h1, h2, -⟩ := run_cons_inv h
    rw [ih h2, memory_access h1, List.foldl_cons]

lemma memory_init {s₀ : State} {n W : ℤ} (h : tgInit s₀ n W = some s) : memory s = blank W := by
  by_cases hn : n > maxFrames
  · simp only [tgInit, if_pos hn] at h
    cases h
  · simp only [tgInit, if_neg hn, Option.some.injEq] at h
    subst h
    rfl

/-- **The graph does not depend on the cache.** Two runs over one trace, with caches of any
two sizes, learn the same after every prefix, whatever hits and faults they differ in. -/
theorem graph_independent (s₀ s₀' : State) (n n' : ℕ) (hn : 1 ≤ n) (hn' : n ≤ maxFrames)
    (hm : 1 ≤ n') (hm' : n' ≤ maxFrames) (W : ℤ) (tr : List Page) :
    ∃ s₁ s₁', tgInit s₀ n W = some s₁ ∧ tgInit s₀' n' W = some s₁' ∧ ∀ past, past <+: tr →
      ∃ s os s' os', run tgAccess s₁ past = some (s, os) ∧
        run tgAccess s₁' past = some (s', os') ∧
        s.graph.edges = s'.graph.edges ∧ s.graph.edgeCnt = s'.graph.edgeCnt ∧
        s.win.buf = s'.win.buf ∧ s.win.head = s'.win.head ∧ s.win.size = s'.win.size ∧
        s.accessCount = s'.accessCount := by
  obtain ⟨s₁, e, h⟩ := safe_init s₀ hn' W
  obtain ⟨s₁', e', h'⟩ := safe_init s₀' hm' W
  refine ⟨s₁, s₁', e, e', fun past _ => ?_⟩
  obtain ⟨s, os, hs, -⟩ := safe_run hn h past
  obtain ⟨s', os', hs', -⟩ := safe_run hm h' past
  have hsame : memory s = memory s' := by
    rw [memory_run hs, memory_run hs', memory_init e, memory_init e']
  obtain ⟨hg, hw, hc⟩ : s.graph = s'.graph ∧ s.win = s'.win ∧ s.accessCount = s'.accessCount := by
    simpa only [memory, Memory.mk.injEq] using hsame
  exact ⟨s, os, s', os', hs, hs', by rw [hg], by rw [hg], by rw [hw], by rw [hw], by rw [hw], hc⟩

/-- The theorem at one frame and at two, which answer the third access differently. -/
theorem graph_independent_two :
    1 ≤ 1 ∧ 1 ≤ maxFrames ∧ 1 ≤ 2 ∧ 2 ≤ maxFrames ∧
      ∃ s₁ s₁', tgInit start (1 : ℕ) 10 = some s₁ ∧ tgInit start (2 : ℕ) 10 = some s₁' ∧
        ∃ s os s' os', run tgAccess s₁ [1, 2, 1] = some (s, os) ∧
          run tgAccess s₁' [1, 2, 1] = some (s', os') ∧ os ≠ os' ∧
          s.graph.edges = s'.graph.edges ∧ s.graph.edgeCnt = s'.graph.edgeCnt := by
  obtain ⟨s₁, s₁', e, e', h⟩ := graph_independent start start 1 2 (by decide) (by decide)
    (by decide) (by decide) 10 [1, 2, 1]
  obtain ⟨s, os, s', os', hs, hs', h1, h2, -⟩ := h _ (List.prefix_refl _)
  refine ⟨by decide, by decide, by decide, by decide, s₁, s₁', e, e', s, os, s', os', hs, hs',
    ?_, h1, h2⟩
  have hone : ((tgInit start (1 : ℕ) 10).bind fun s => outputs tgAccess s [1, 2, 1]) =
      some [.fault, .fault, .fault] := by decide
  have htwo : ((tgInit start (2 : ℕ) 10).bind fun s => outputs tgAccess s [1, 2, 1]) =
      some [.fault, .fault, .hit] := by decide
  rw [e, Option.bind_some, outputs_eq hs] at hone
  rw [e', Option.bind_some, outputs_eq hs'] at htwo
  rw [Option.some.inj hone, Option.some.inj htwo]
  decide

/-! ### The graphs that runs reach -/

/-- The graphs that occurrences and sweeps build from nothing. -/
inductive Grown : Adj → Prop
  | zero : Grown Adj.zero
  | inc {g : Adj} {u v : ℕ} : Grown g → u < maxUnique → v < maxUnique → u ≠ v →
    Grown (adjInc g u v)
  | sweep {g : Adj} : Grown g → Grown (applyDecay g)

/-- The states that runs reach, between two accesses. -/
def Reachable (s : State) : Prop :=
  ∃ (s₀ : State) (n W : ℤ) (s₁ : State) (tr : List Page) (os : List Result),
    tgInit s₀ n W = some s₁ ∧ run tgAccess s₁ tr = some (s, os)

lemma Grown.addEdges (hg : Grown g) {items : List ℕ} (hitems : ∀ u ∈ items, u < maxUnique)
    (hv : v < maxUnique) : Grown (addEdges g items v) :=
  addEdges_keeps hg fun _ u hu huv hg => hg.inc (hitems u hu) hv huv

/-- A memory that runs build. -/
structure Built (m : Memory) : Prop where
  grown : Grown m.graph
  /-- The window holds page indices. -/
  index : ∀ i, m.win.buf i < maxUnique

lemma built_blank (W : ℤ) : Built (blank W) := ⟨.zero, fun _ => by simp [blank, maxUnique]⟩

lemma Built.learn {m : Memory} (hm : Built m) (page : Page) : Built (learn m page) where
  grown := by
    refine Grown.addEdges ?_ (fun u hu => ?_) (pageIdx_lt page)
    · split_ifs
      · exact hm.grown.sweep
      · exact hm.grown
    · obtain ⟨i, -, rfl⟩ := List.mem_map.mp hu
      exact hm.index _
  index i := by
    simp only [TgGraph.learn, Window.slide, Function.update_apply]
    split_ifs
    · exact pageIdx_lt page
    · exact hm.index i

lemma Reachable.grown (hs : Reachable s) : Grown s.graph := by
  obtain ⟨s₀, n, W, s₁, tr, os, e, h⟩ := hs
  have hfold : ∀ (tr : List Page) (m : Memory), Built m → Built (tr.foldl learn m) := by
    intro tr
    induction tr with
    | nil => exact fun m hm => hm
    | cons page tr ih => exact fun m hm => ih _ (hm.learn page)
  have hm : Built (memory s) := by
    rw [memory_run h, memory_init e]
    exact hfold tr _ (built_blank W)
  exact hm.grown

/-! ### Well-formed nodes -/

/-- What counting an occurrence of `v` after `u` does to the graph. -/
structure Counted (g g' : Adj) (u v : ℕ) : Prop where
  ok : Ok g'
  present : v ∈ targets g u → adjWeight g' u v = min (adjWeight g u v + 1) 65535
  absent : v ∉ targets g u → adjWeight g' u v = 1
  /-- With the edge there or a slot for it, no edge is lost and no other weight changes. -/
  kept : v ∈ targets g u ∨ g.edgeCnt u < 64 → targets g' u = insert v (targets g u) ∧
    ∀ x < 65536, x ≠ v → adjWeight g' u x = adjWeight g u x
  /-- Without, one edge of minimal weight is lost. -/
  overflow : v ∉ targets g u → g.edgeCnt u = 64 → ∃ d ∈ targets g u,
    (∀ x ∈ targets g u, adjWeight g u d ≤ adjWeight g u x) ∧
    targets g' u = insert v ((targets g u).erase d) ∧ adjWeight g' u d = 0 ∧
    ∀ x < 65536, x ≠ v → x ≠ d → adjWeight g' u x = adjWeight g u x
  frame : ∀ x ≠ u, g'.edges x = g.edges x ∧ g'.edgeCnt x = g.edgeCnt x

lemma counted_adjInc (h : Ok g) (hv : v < 65536) : Counted g (adjInc g u v) u v := by
  have hle : g.edgeCnt u ≤ 64 := (h u).le
  have hframe : ∀ x ≠ u, (adjInc g u v).edges x = g.edges x ∧
      (adjInc g u v).edgeCnt x = g.edgeCnt x := fun x hx => adjInc_row_of_ne hx v
  by_cases hroom : v ∈ targets g u ∨ g.edgeCnt u < maxEdgesPerNode
  · obtain ⟨h1, h2, h3⟩ := adjInc_spec h hv hroom
    have hw : adjWeight (adjInc g u v) u v = min (adjWeight g u v + 1) 65535 := by
      rw [h3 u v hv, if_pos ⟨rfl, rfl⟩]
    refine ⟨h1, fun _ => hw, fun hm => ?_, fun _ => ⟨?_, fun x hx hxv => ?_⟩, fun hm hfull => ?_,
      hframe⟩
    · rw [hw, adjWeight_of_not_mem hv hm]
      rfl
    · rw [h2 u, if_pos rfl]
    · rw [h3 u x hx, if_neg (by tauto)]
    · have : g.edgeCnt u < 64 := hroom.resolve_left hm
      omega
  · obtain ⟨hm, hfull⟩ := not_or.mp hroom
    obtain ⟨h1, d, hd, hleast, htar, hw⟩ := adjInc_overflow h hv hm hfull
    have hd' : d < 65536 := by
      obtain ⟨i, hi, rfl⟩ := mem_targets.mp hd
      exact (h u).dst i hi
    have hdv : d ≠ v := by rintro rfl; exact hm hd
    refine ⟨h1, fun hm' => absurd hm' hm, fun _ => ?_, fun hr => absurd hr hroom, fun _ _ =>
      ⟨d, hd, hleast, htar, ?_, fun x hx hxv hxd => ?_⟩, hframe⟩
    · rw [hw v hv, if_pos rfl]
    · rw [hw d hd', if_neg hdv, if_pos rfl]
    · rw [hw x hx, if_neg hxv, if_neg hxd]

lemma Counted.targets_subset {g' : Adj} (h : Counted g g' u v) (hg : Ok g) (x : ℕ) :
    targets g' x ⊆ if x = u then insert v (targets g u) else targets g x := by
  by_cases hx : x = u
  · subst hx
    rw [if_pos rfl]
    have hle : g.edgeCnt x ≤ 64 := (hg x).le
    by_cases hroom : v ∈ targets g x ∨ g.edgeCnt x < 64
    · exact (h.kept hroom).1.subset
    · obtain ⟨hm, hfull⟩ := not_or.mp hroom
      obtain ⟨d, -, -, htar, -⟩ := h.overflow hm (by omega)
      rw [htar]
      exact Finset.insert_subset_insert v (Finset.erase_subset _ _)
  · rw [if_neg hx, targets, targets, (h.frame x hx).1, (h.frame x hx).2]

/-- The graphs of runs are well formed, and no node of them has an edge to itself. -/
lemma Grown.ok (hg : Grown g) : Ok g ∧ ∀ u, u ∉ targets g u := by
  induction hg with
  | zero => exact ⟨ok_zero, fun u => by simp [targets_zero]⟩
  | @inc g a b _ ha hb hab ih =>
    obtain ⟨hok, hloop⟩ := ih
    have hc := counted_adjInc (u := a) hok (show b < 65536 by simp only [maxUnique] at hb; omega)
    refine ⟨hc.ok, fun x hx => ?_⟩
    have := hc.targets_subset hok x hx
    split_ifs at this with hxa
    · rcases Finset.mem_insert.mp this with h | h
      · exact hab (hxa.symm.trans h)
      · exact hloop a (hxa ▸ h)
    · exact hloop x this
  | sweep _ ih =>
    obtain ⟨h1, h2, -⟩ := applyDecay_spec ih.1
    exact ⟨h1, fun u => by rw [h2 u]; exact ih.2 u⟩

/-- **Counting an occurrence** is exact on every well-formed graph, and the graphs of runs are
well formed. -/
theorem adjInc_wellFormed :
    (∀ (g : Adj) (u v : ℕ), Ok g → u < maxUnique → v < maxUnique → u ≠ v →
      Counted g (adjInc g u v) u v) ∧
    ∀ s, Reachable s → Ok s.graph ∧ ∀ u, u ∉ targets s.graph u := by
  refine ⟨fun g u v hg _ hv _ => counted_adjInc hg ?_, fun s hs => hs.grown.ok⟩
  simp only [maxUnique] at hv
  omega

/-- The theorem at nodes that are full, and at a state that a trace of three accesses leaves. -/
theorem adjInc_wellFormed_full :
    Ok ⟨fun _ i => ⟨i + 1, i + 1⟩, fun _ => 64⟩ ∧
      Counted ⟨fun _ i => ⟨i + 1, i + 1⟩, fun _ => 64⟩
        (adjInc ⟨fun _ i => ⟨i + 1, i + 1⟩, fun _ => 64⟩ 0 100) 0 100 ∧
      ∃ s s' os, tgInit start 1 10 = some s ∧ run tgAccess s [1, 2, 1] = some (s', os) ∧
        (s'.graph.edgeCnt 1, s'.graph.edgeCnt 2) = (1, 1) ∧ Ok s'.graph ∧
        1 ∉ targets s'.graph 1 := by
  have hok : Ok ⟨fun _ i => ⟨i + 1, i + 1⟩, fun _ => 64⟩ := by
    intro u
    refine ⟨le_rfl, fun i _ j _ e => Nat.succ_injective e, fun i hi => ?_, fun i _ => ?_,
      fun i hi => ?_⟩ <;> simp only at * <;> omega
  obtain ⟨s, hs, hsafe⟩ := safe_init start (show 1 ≤ maxFrames by decide) 10
  obtain ⟨s', os, hrun, -⟩ := safe_run le_rfl hsafe [1, 2, 1]
  have hval : ((tgInit start 1 10).bind fun s => (run tgAccess s [1, 2, 1]).map fun p =>
      (p.1.graph.edgeCnt 1, p.1.graph.edgeCnt 2)) = some (1, 1) := by decide
  rw [Nat.cast_one] at hs
  rw [hs, Option.bind_some, hrun, Option.map_some, Option.some.injEq] at hval
  obtain ⟨hgraph, hself⟩ := adjInc_wellFormed.2 s' ⟨start, 1, 10, s, [1, 2, 1], os, hs, hrun⟩
  exact ⟨hok, adjInc_wellFormed.1 _ 0 100 hok (by decide) (by decide) (by decide), s, s', os, hs,
    hrun, hval, hgraph, hself 1⟩

/-! ### Decay without end -/

/-- No number of sweeps takes an edge out of its slot, or takes a weight below 63. -/
lemma applyDecay_iterate (hg : Ok g) (k : ℕ) :
    Ok (applyDecay^[k] g) ∧ ∀ u i, i < g.edgeCnt u → i < (applyDecay^[k] g).edgeCnt u ∧
      ((applyDecay^[k] g).edges u i).dst = (g.edges u i).dst ∧
      min (g.edges u i).w 63 ≤ ((applyDecay^[k] g).edges u i).w := by
  induction k with
  | zero => exact ⟨hg, fun u i hi => ⟨hi, rfl, min_le_left _ _⟩⟩
  | succ k ih =>
    rw [Function.iterate_succ_apply']
    obtain ⟨hok, hk⟩ := ih
    obtain ⟨hcnt, hrow⟩ := applyDecay_rows hok
    refine ⟨(applyDecay_spec hok).1, fun u i hi => ?_⟩
    obtain ⟨h1, h2, h3⟩ := hk u i hi
    refine ⟨by rw [hcnt]; exact h1, ?_, ?_⟩
    · rw [hrow]
      split_ifs <;> exact h2
    · rw [hrow]
      split_ifs
      · dsimp only
        rw [decay_eq ((hok u).w_le i h1)]
        omega
      · exact h3

/-- An edge outlives every number of sweeps. -/
lemma edge_lasts (hg : Ok g) {i : ℕ} (hi : i < g.edgeCnt u) (hd : (g.edges u i).dst = v)
    (k : ℕ) : adjWeight (applyDecay^[k] g) u v ≠ 0 ∧ i < (applyDecay^[k] g).edgeCnt u ∧
      ((applyDecay^[k] g).edges u i).dst = v := by
  obtain ⟨hok, hk⟩ := applyDecay_iterate hg k
  obtain ⟨h1, h2, h3⟩ := hk u i hi
  have hv : v < 65536 := hd ▸ (hg u).dst i hi
  have hpos := (hg u).w_pos i hi
  refine ⟨?_, h1, h2.trans hd⟩
  rw [adjWeight_of_slot hok hv h1 (h2.trans hd)]
  omega

/-- The trace 1, 2 leaves an edge that does not decay to nothing. -/
theorem decay_forgets_false :
    ¬ ∀ s, Reachable s → ∀ u < maxUnique, ∀ v ∈ targets s.graph u,
      ∃ k, adjWeight (applyDecay^[k] s.graph) u v = 0 ∧ v ∉ targets (applyDecay^[k] s.graph) u := by
  intro h
  obtain ⟨s₁, e, hsafe⟩ := safe_init start (show 1 ≤ maxFrames by decide) 10
  obtain ⟨s, os, hs, -⟩ := safe_run le_rfl hsafe [1, 2]
  have hval : ((tgInit start (1 : ℕ) 10).bind fun s => (run tgAccess s [1, 2]).map fun p =>
      adjWeight p.1.graph 1 2) = some 1 := by decide
  rw [e, Option.bind_some, hs] at hval
  have hw : adjWeight s.graph 1 2 = 1 := Option.some.inj hval
  have hreach : Reachable s := ⟨start, _, 10, s₁, [1, 2], os, e, hs⟩
  have hm : 2 ∈ targets s.graph 1 := by
    by_contra hm
    rw [adjWeight_of_not_mem (by decide) hm] at hw
    cases hw
  obtain ⟨k, hk, -⟩ := h s hreach 1 (by decide) 2 hm
  obtain ⟨i, hi, hd⟩ := mem_targets.mp hm
  exact (edge_lasts hreach.grown.ok.1 hi hd k).1 hk

/-- **Decay never forgets.** Of the states that a run reaches, sweeps alone clear those that
have no edge to begin with; an edge keeps its slot and a weight for ever. -/
theorem decay_never_forgets (s : State) (hs : Reachable s) :
    ((∀ u < maxUnique, ∀ v ∈ targets s.graph u, ∃ k,
        adjWeight (applyDecay^[k] s.graph) u v = 0 ∧ v ∉ targets (applyDecay^[k] s.graph) u) ↔
      ∀ u < maxUnique, s.graph.edgeCnt u = 0) ∧
    ∀ u v i, i < s.graph.edgeCnt u → (s.graph.edges u i).dst = v → ∀ k,
      adjWeight (applyDecay^[k] s.graph) u v ≠ 0 ∧ i < (applyDecay^[k] s.graph).edgeCnt u ∧
        ((applyDecay^[k] s.graph).edges u i).dst = v := by
  have hlast : ∀ u v i, i < s.graph.edgeCnt u → (s.graph.edges u i).dst = v → ∀ k,
      adjWeight (applyDecay^[k] s.graph) u v ≠ 0 ∧ i < (applyDecay^[k] s.graph).edgeCnt u ∧
        ((applyDecay^[k] s.graph).edges u i).dst = v :=
    fun u v i hi hd k => edge_lasts hs.grown.ok.1 hi hd k
  refine ⟨⟨fun h u hu => ?_, fun h u hu v hv => ?_⟩, hlast⟩
  · by_contra hne
    have hpos : 0 < s.graph.edgeCnt u := Nat.pos_of_ne_zero hne
    obtain ⟨k, hk, -⟩ := h u hu _ (mem_targets.mpr ⟨0, hpos, rfl⟩)
    exact (hlast u _ 0 hpos rfl k).1 hk
  · obtain ⟨i, hi, -⟩ := mem_targets.mp hv
    rw [h u hu] at hi
    exact absurd hi (Nat.not_lt_zero i)

/-- The theorem at the edge that the trace 1, 2 leaves. -/
theorem decay_never_forgets_two : ∃ s, Reachable s ∧ 0 < s.graph.edgeCnt 1 ∧
    (s.graph.edges 1 0).dst = 2 ∧ ∀ k, adjWeight (applyDecay^[k] s.graph) 1 2 ≠ 0 := by
  obtain ⟨s₁, e, hsafe⟩ := safe_init start (show 1 ≤ maxFrames by decide) 10
  obtain ⟨s, os, hs, -⟩ := safe_run le_rfl hsafe [1, 2]
  have hval : ((tgInit start (1 : ℕ) 10).bind fun s => (run tgAccess s [1, 2]).map fun p =>
      (p.1.graph.edgeCnt 1, (p.1.graph.edges 1 0).dst)) = some (1, 2) := by decide
  rw [e, Option.bind_some, hs, Option.map_some, Option.some.injEq, Prod.mk.injEq] at hval
  have hreach : Reachable s := ⟨start, _, 10, s₁, [1, 2], os, e, hs⟩
  have hcnt : 0 < s.graph.edgeCnt 1 := by rw [hval.1]; exact Nat.one_pos
  exact ⟨s, hreach, hcnt, hval.2, fun k =>
    ((decay_never_forgets s hreach).2 1 2 0 hcnt hval.2 k).1⟩

end Tempograph.TgGraph
