import Mathlib.Data.List.GetD
import Tempograph.TgSafe

/-!
The graph that `tempograph.c` learns is the sliding-window co-occurrence graph.

The reference is a recurrence over the history of page indices: every access first decays
the weights if it is time, then adds to the edge from each index in the window. The stored
graph follows it as long as no node needs more slots than it has.
-/

namespace Tempograph.TgWeights

open Common Tempograph.Graph LinkedList SlidingWindow Runs TempoGraph TgSafe

variable {W n u v : ℕ} {h : List ℕ} {g : Adj} {s : State}

/-- The weights after an access to `v` behind the history `past`. -/
def refStep (W : ℕ) (past : List ℕ) (w : ℕ → ℕ → ℕ) (v : ℕ) : ℕ → ℕ → ℕ :=
  let w' := if (past.length + 1) % 2000 = 0 then fun a b => w a b - w a b / 64 else w
  fun a b =>
    if b = v ∧ a ≠ v then min (w' a b + (past.reverse.take W).count a) 65535 else w' a b

/-- The weights after a history. -/
def reference (W : ℕ) (h : List ℕ) : ℕ → ℕ → ℕ :=
  (h.foldl (fun p v => (p.1 ++ [v], refStep W p.1 p.2 v)) (([] : List ℕ), fun _ _ => 0)).2

/-- The indices accessed within `W` accesses after an access to `u`, but `u` itself. -/
def successors (W : ℕ) (h : List ℕ) (u : ℕ) : Finset ℕ :=
  ((Finset.range h.length).filter fun k =>
    u ≠ h.getD k 0 ∧ u ∈ (h.take k).reverse.take W).image fun k => h.getD k 0

lemma reference_snoc (W : ℕ) (h : List ℕ) (v : ℕ) :
    reference W (h ++ [v]) = refStep W h (reference W h) v := by
  have hfst : ∀ h : List ℕ, (h.foldl (fun p v => (p.1 ++ [v], refStep W p.1 p.2 v))
      (([] : List ℕ), fun _ _ => 0)).1 = h := by
    intro h
    induction h using List.reverseRecOn with
    | nil => rfl
    | append_singleton h v ih => rw [List.foldl_append]; simp [ih]
  unfold reference
  rw [List.foldl_append]
  simp [hfst]

lemma successors_mono {h h' : List ℕ} (hp : h <+: h') (u : ℕ) :
    successors W h u ⊆ successors W h' u := by
  obtain ⟨t, rfl⟩ := hp
  intro v hv
  simp only [successors, Finset.mem_image, Finset.mem_filter, Finset.mem_range] at hv ⊢
  obtain ⟨k, ⟨hk, hu⟩, e⟩ := hv
  refine ⟨k, ⟨by simp; omega, ?_⟩, ?_⟩
  · rwa [List.getD_append _ _ _ _ hk, List.take_append_of_le_length hk.le]
  · rwa [List.getD_append _ _ _ _ hk]

lemma mem_successors_snoc (hu : u ≠ v) (hm : u ∈ h.reverse.take W) :
    v ∈ successors W (h ++ [v]) u := by
  simp only [successors, Finset.mem_image, Finset.mem_filter, Finset.mem_range]
  exact ⟨h.length, ⟨by simp, by simp [hu, hm]⟩, by simp⟩

/-! ### Adding the edges of one access -/

lemma adjWeight_le (hg : Ok g) (u : ℕ) (hv : v < 65536) : adjWeight g u v ≤ 65535 := by
  by_cases hm : v ∈ targets g u
  · obtain ⟨i, hi, hd⟩ := mem_targets.mp hm
    rw [adjWeight_of_slot hg hv hi hd]
    exact (hg u).w_le i hi
  · rw [adjWeight_of_not_mem hv hm]
    exact Nat.zero_le _

/-- A target that is to come leaves a free slot if all of them fit. -/
lemma room {S : Finset ℕ} (hg : Ok g) (hsub : targets g u ⊆ S) (hv : v ∈ S)
    (hS : S.card ≤ maxEdgesPerNode) : v ∈ targets g u ∨ g.edgeCnt u < maxEdgesPerNode := by
  by_cases hm : v ∈ targets g u
  · exact Or.inl hm
  · have hcard := Finset.card_le_card (Finset.insert_subset hv hsub)
    rw [Finset.card_insert_of_notMem hm, card_targets hg] at hcard
    exact Or.inr (by omega)

/-- Adding an edge to `v` from each item: with room for all targets, each weight grows by
the number of times its source occurs. -/
lemma addEdges_spec {S : ℕ → Finset ℕ} (hS : ∀ u, (S u).card ≤ maxEdgesPerNode) (hv : v < 65536)
    (items : List ℕ) (hitems : ∀ u ∈ items, u ≠ v → v ∈ S u) (hg : Ok g)
    (hsub : ∀ u, targets g u ⊆ S u) :
    Ok (addEdges g items v) ∧ (∀ u, targets (addEdges g items v) u ⊆ S u) ∧
      ∀ x y, y < 65536 → adjWeight (addEdges g items v) x y =
        if y = v ∧ x ≠ v then min (adjWeight g x y + items.count x) 65535 else adjWeight g x y := by
  induction items generalizing g with
  | nil =>
    refine ⟨hg, hsub, fun x y hy => ?_⟩
    have := adjWeight_le hg x hy
    simp only [addEdges, List.foldl_nil, List.count_nil, Nat.add_zero]
    rw [Nat.min_eq_left this, ite_self]
  | cons u items ih =>
    have hrest : ∀ u ∈ items, u ≠ v → v ∈ S u := fun u hu => hitems u (List.mem_cons_of_mem _ hu)
    simp only [addEdges, List.foldl_cons]
    by_cases huv : u = v
    · subst huv
      simp only [ne_eq, not_true_eq_false, if_false]
      obtain ⟨h1, h2, h3⟩ := ih hrest hg hsub
      refine ⟨h1, h2, fun x y hy => ?_⟩
      rw [← addEdges, h3 x y hy]
      by_cases hx : x = u
      · simp [hx]
      · rw [List.count_cons_of_ne (Ne.symm hx)]
    · have hvS := hitems u List.mem_cons_self huv
      obtain ⟨h1, h2, h3⟩ := adjInc_spec hg hv (room hg (hsub u) hvS (hS u))
      have hsub' : ∀ x, targets (adjInc g u v) x ⊆ S x := by
        intro x y hy
        rw [h2 x] at hy
        split_ifs at hy with hx
        · subst hx
          rcases Finset.mem_insert.mp hy with rfl | hm
          · exact hvS
          · exact hsub x hm
        · exact hsub x hy
      simp only [ne_eq, huv, not_false_eq_true, if_true]
      obtain ⟨h4, h5, h6⟩ := ih hrest h1 hsub'
      refine ⟨h4, h5, fun x y hy => ?_⟩
      rw [← addEdges, h6 x y hy, h3 x y hy]
      by_cases hy' : y = v
      · subst hy'
        by_cases hx : x = u
        · subst hx
          simp only [ne_eq, huv, not_false_eq_true, and_self, if_true, List.count_cons_self]
          omega
        · rw [List.count_cons_of_ne (Ne.symm hx)]
          simp [hx]
      · simp [hy']

/-! ### Whole runs -/

/-- The window and the graph have learned the history `h` of page indices. -/
structure Learned (W : ℕ) (h : List ℕ) (s : State) : Prop where
  window : Holds W h s.win
  count : s.accessCount = h.length
  ok : Ok s.graph
  targets : ∀ u, targets s.graph u ⊆ successors W h u
  weight : ∀ u v, u < maxUnique → v < 65536 → adjWeight s.graph u v = reference W h u v

lemma learned_init (s₀ : State) (hn : n ≤ maxFrames) (hW : 1 ≤ W) (hW' : W ≤ maxWindow) :
    ∃ s, tgInit s₀ n W = some s ∧ Safe n s ∧ Learned W [] s := by
  obtain ⟨s, he, hs⟩ := safe_init s₀ hn W
  refine ⟨s, he, hs, ?_⟩
  rw [tgInit_eq s₀ hn] at he
  obtain rfl := Option.some.inj he
  have hwin : windowOf W = W := by
    unfold windowOf
    rw [if_pos ⟨by omega, by omega⟩, Int.toNat_natCast]
  refine ⟨?_, rfl, ok_zero, fun u => ?_, fun u v _ _ => ?_⟩
  · simp only [hwin]
    exact holds_nil W 0
  · show Graph.targets Adj.zero u ⊆ _
    rw [targets_zero]
    exact Finset.empty_subset _
  · exact adjWeight_of_not_mem (by omega) (by simp [tgReset, targets_zero])

/-- The decay an access starts with, against the reference. -/
lemma Learned.decayed (hl : Learned W h s) :
    Ok (decayed s) ∧ (∀ u, Graph.targets (decayed s) u = Graph.targets s.graph u) ∧
      ∀ u v, u < maxUnique → v < 65536 → adjWeight (decayed s) u v =
        if (h.length + 1) % 2000 = 0 then reference W h u v - reference W h u v / 64
        else reference W h u v := by
  unfold TgSafe.decayed decayInterval
  rw [hl.count]
  split_ifs
  · obtain ⟨h1, h2, h3⟩ := applyDecay_spec hl.ok
    refine ⟨h1, h2, fun u v hu hv => ?_⟩
    rw [h3 u v hu hv, hl.weight u v hu hv]
  · exact ⟨hl.ok, fun _ => rfl, hl.weight⟩

/-- **One access** learns its index, if no node runs out of slots. -/
theorem learned_step {s' : State} {r : Result} {page : Page}
    (hS : ∀ u, (successors W (h ++ [pageIdx page]) u).card ≤ maxEdgesPerNode)
    (hl : Learned W h s) (ha : tgAccess s page = some (s', r)) :
    Learned W (h ++ [pageIdx page]) s' := by
  have hidx := pageIdx_lt page
  simp only [maxUnique] at hidx
  obtain ⟨e1, e2, e3⟩ := access_learns ha
  obtain ⟨h1, h2, h3⟩ := hl.decayed
  have hitems := hl.window.items
  obtain ⟨h4, h5, h6⟩ := addEdges_spec hS (by omega) s.win.items
    (fun u hu huv => mem_successors_snoc huv (hitems ▸ hu)) h1
    fun u => by
      rw [h2 u]
      exact (hl.targets u).trans (successors_mono (List.prefix_append _ _) u)
  refine ⟨?_, ?_, ?_, ?_, fun u v hu hv => ?_⟩
  · rw [e2]; exact hl.window.slide _
  · rw [e3, hl.count]; simp
  · rwa [e1]
  · rwa [e1]
  · rw [e1, h6 u v hv, h3 u v hu hv, reference_snoc, hitems]
    unfold refStep
    split_ifs <;> rfl

/-- **The stored graph is the sliding-window co-occurrence graph.** For every window, frame
count and trace in which no index has more successors than a node has slots, the stored
weights are the ones of the reference recurrence after every prefix. -/
theorem weights_reference (s₀ : State) (n : ℕ) (hn : 1 ≤ n) (hn' : n ≤ maxFrames) (W : ℕ)
    (hW : 1 ≤ W) (hW' : W ≤ maxWindow) (tr : List Page)
    (hS : ∀ u, (successors W (tr.map pageIdx) u).card ≤ maxEdgesPerNode) :
    ∃ s, tgInit s₀ n W = some s ∧ ∀ past, past <+: tr →
      ∃ s' os, run tgAccess s past = some (s', os) ∧ ∀ u v, u < maxUnique → v < maxUnique →
        adjWeight s'.graph u v = reference W (past.map pageIdx) u v := by
  obtain ⟨s, he, hs, hl⟩ := learned_init s₀ hn' hW hW'
  refine ⟨s, he, fun past hpast => ?_⟩
  obtain ⟨s', os, hrun, -, hl'⟩ := run_inv
    (I := fun past s => Safe n s ∧ Learned W (past.map pageIdx) s) past ⟨hs, hl⟩
    fun past' page s hp hi => by
      obtain ⟨s', r, ha, hs', -⟩ := safe_step hn hi.1 page
      refine ⟨s', r, ha, hs', ?_⟩
      rw [List.map_append]
      refine learned_step (fun u => ?_) hi.2 ha
      have hpre : past'.map pageIdx ++ [pageIdx page] <+: tr.map pageIdx := by
        have := (hp.trans hpast).map pageIdx
        rwa [List.map_append] at this
      exact (Finset.card_le_card (successors_mono hpre u)).trans (hS u)
  exact ⟨s', os, hrun, fun u v hu hv => hl'.weight u v hu (by simp only [maxUnique] at hv; omega)⟩

/-- The theorem at two frames, a window of three and a trace of four pages. -/
theorem weights_reference_two :
    1 ≤ 2 ∧ 2 ≤ maxFrames ∧ 1 ≤ 3 ∧ 3 ≤ maxWindow ∧
      (∀ u, (successors 3 ([7, 9, 7, -1].map pageIdx) u).card ≤ maxEdgesPerNode) ∧
      ∃ s, tgInit start 2 3 = some s ∧ ∃ s' os, run tgAccess s [7, 9, 7, -1] = some (s', os) ∧
        ∀ u v, u < maxUnique → v < maxUnique →
          adjWeight s'.graph u v = reference 3 ([7, 9, 7, -1].map pageIdx) u v := by
  have hS : ∀ u, (successors 3 ([7, 9, 7, -1].map pageIdx) u).card ≤ maxEdgesPerNode := by
    intro u
    refine Finset.card_image_le.trans ((Finset.card_filter_le _ _).trans ?_)
    decide
  obtain ⟨s, hs, h⟩ := weights_reference start 2 (by decide) (by decide) 3 (by decide) (by decide)
    [7, 9, 7, -1] hS
  exact ⟨by decide, by decide, by decide, by decide, hS, s, hs, h _ (List.prefix_refl _)⟩

end Tempograph.TgWeights
