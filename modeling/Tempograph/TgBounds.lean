import Tempograph.TgGraph
import Tempograph.TgWeights

/-!
What the bound on the edges of a node costs.

A node with more successors than slots loses edges. What is left is never more than the
sliding-window co-occurrence graph has, and the loss stays where it is: the row of a node
that never had more than 64 successors is exact, whatever other nodes lose.
-/

namespace Tempograph.TgBounds

open Common Tempograph.Graph SlidingWindow Runs TempoGraph TgSafe TgGraph TgWeights

variable {W n u v x y : ℕ} {h items : List ℕ} {g g' : Adj} {s s' : State} {page : Page}
  {r : Result}

/-- The weight after `k` more occurrences of the edge from `x` to `v`. -/
def raised (g : Adj) (v k x y : ℕ) : ℕ :=
  if y = v ∧ x ≠ v then min (adjWeight g x y + k) 65535 else adjWeight g x y

/-! ### One occurrence -/

/-- No weight but the one that is counted grows. -/
lemma adjInc_le (hg : Ok g) (hv : v < 65536) (huv : u ≠ v) (x : ℕ) (hy : y < 65536) :
    adjWeight (adjInc g u v) x y ≤ raised g v (if x = u then 1 else 0) x y := by
  have hc := counted_adjInc (u := u) hg hv
  have hle := adjWeight_le hg x hy
  unfold raised
  by_cases hx : x = u
  · subst hx
    by_cases hyv : y = v
    · subst hyv
      rw [if_pos ⟨rfl, huv⟩, if_pos rfl]
      by_cases hm : y ∈ targets g x
      · exact (hc.present hm).le
      · rw [hc.absent hm]
        omega
    · rw [if_neg fun h => hyv h.1]
      by_cases hroom : v ∈ targets g x ∨ g.edgeCnt x < 64
      · exact ((hc.kept hroom).2 y hy hyv).le
      · obtain ⟨hm, hfull⟩ := not_or.mp hroom
        have hcnt : g.edgeCnt x ≤ 64 := (hg x).le
        obtain ⟨d, -, -, -, hd, hother⟩ := hc.overflow hm (by omega)
        by_cases hyd : y = d
        · rw [hyd, hd]
          exact Nat.zero_le _
        · exact (hother y hy hyv hyd).le
  · have hsame : adjWeight (adjInc g u v) x y = adjWeight g x y := by
      obtain ⟨h1, h2⟩ := hc.frame x hx
      exact adjWeight_congr h1 h2 y
    rw [hsame, if_neg hx, Nat.add_zero, Nat.min_eq_left hle, ite_self]

/-- With a slot for the edge the row is exact. -/
lemma adjInc_eq (hg : Ok g) (hv : v < 65536) (huv : u ≠ v) {x : ℕ}
    (hroom : x = u → v ∈ targets g x ∨ g.edgeCnt x < maxEdgesPerNode) (hy : y < 65536) :
    adjWeight (adjInc g u v) x y = raised g v (if x = u then 1 else 0) x y := by
  have hc := counted_adjInc (u := u) hg hv
  have hle := adjWeight_le hg x hy
  unfold raised
  by_cases hx : x = u
  · subst hx
    by_cases hyv : y = v
    · subst hyv
      rw [if_pos ⟨rfl, huv⟩, if_pos rfl]
      by_cases hm : y ∈ targets g x
      · exact hc.present hm
      · rw [hc.absent hm, adjWeight_of_not_mem hy hm]
        rfl
    · rw [if_neg fun h => hyv h.1]
      exact (hc.kept (hroom rfl)).2 y hy hyv
  · have hsame : adjWeight (adjInc g u v) x y = adjWeight g x y := by
      obtain ⟨h1, h2⟩ := hc.frame x hx
      exact adjWeight_congr h1 h2 y
    rw [hsame, if_neg hx, Nat.add_zero, Nat.min_eq_left hle, ite_self]

/-! ### The edges of one access -/

lemma raised_trans {a k : ℕ} (h : adjWeight g' x y ≤ raised g v a x y) :
    raised g' v k x y ≤ raised g v (a + k) x y := by
  unfold raised at *
  split_ifs at * <;> omega

lemma raised_trans_eq {a k : ℕ} (h : adjWeight g' x y = raised g v a x y) :
    raised g' v k x y = raised g v (a + k) x y := by
  unfold raised at *
  split_ifs at * <;> omega

lemma count_cons_eq (u x : ℕ) (items : List ℕ) :
    (u :: items).count x = (if x = u then 1 else 0) + items.count x := by
  rw [List.count_cons]
  simp only [beq_iff_eq, eq_comm (a := u)]
  omega

/-- Adding an edge to `v` from each item: no weight grows by more than the occurrences of
its source, and a row grows by just these if it has room for its targets. -/
theorem addEdges_bounds (hv : v < 65536) (items : List ℕ) (hg : Ok g) :
    Ok (addEdges g items v) ∧ ∀ x S, (x ∈ items → x ≠ v → v ∈ S) → targets g x ⊆ S →
      targets (addEdges g items v) x ⊆ S ∧ ∀ y < 65536,
        adjWeight (addEdges g items v) x y ≤ raised g v (items.count x) x y ∧
        (S.card ≤ maxEdgesPerNode →
          adjWeight (addEdges g items v) x y = raised g v (items.count x) x y) := by
  induction items generalizing g with
  | nil =>
    refine ⟨hg, fun x S _ hsub => ⟨hsub, fun y hy => ?_⟩⟩
    have hsame : adjWeight (addEdges g [] v) x y = raised g v 0 x y := by
      have := adjWeight_le hg x hy
      unfold raised
      rw [Nat.add_zero, Nat.min_eq_left this, ite_self]
      rfl
    exact ⟨hsame.le, fun _ => hsame⟩
  | cons u items ih =>
    have hunfold : addEdges g (u :: items) v =
        addEdges (if u ≠ v then adjInc g u v else g) items v := rfl
    rw [hunfold]
    by_cases huv : u = v
    · subst huv
      simp only [ne_eq, not_true_eq_false, if_false]
      obtain ⟨h1, h2⟩ := ih hg
      refine ⟨h1, fun x S hS hsub => ?_⟩
      obtain ⟨h3, h4⟩ := h2 x S (fun hx => hS (List.mem_cons_of_mem _ hx)) hsub
      refine ⟨h3, fun y hy => ?_⟩
      -- the index itself is in the window, and gets no edge
      have hcount : raised g u ((u :: items).count x) x y = raised g u (items.count x) x y := by
        unfold raised
        by_cases hx : x = u
        · simp [hx]
        · rw [count_cons_eq, if_neg hx, Nat.zero_add]
      rw [hcount]
      exact h4 y hy
    · simp only [ne_eq, huv, not_false_eq_true, if_true]
      have hc := counted_adjInc (u := u) hg hv
      obtain ⟨h1, h2⟩ := ih hc.ok
      refine ⟨h1, fun x S hS hsub => ?_⟩
      have hvS : x = u → v ∈ S := fun hx => hS (by simp [hx]) (hx ▸ huv)
      have hsub' : targets (adjInc g u v) x ⊆ S := by
        refine (hc.targets_subset hg x).trans ?_
        split_ifs with hx
        · subst hx
          exact Finset.insert_subset (hvS rfl) hsub
        · exact hsub
      obtain ⟨h3, h4⟩ := h2 x S (fun hx => hS (List.mem_cons_of_mem _ hx)) hsub'
      refine ⟨h3, fun y hy => ⟨?_, fun hcard => ?_⟩⟩
      · rw [count_cons_eq]
        exact (h4 y hy).1.trans (raised_trans (adjInc_le hg hv huv x hy))
      · rw [count_cons_eq, (h4 y hy).2 hcard]
        exact raised_trans_eq (adjInc_eq hg hv huv (fun hx => room hg hsub (hvS hx) hcard) hy)

lemma mem_targets_adjInc (hg : Ok g) (hv : v < 65536) (h : x = u ∨ v ∈ targets g x) :
    v ∈ targets (adjInc g u v) x := by
  have hc := counted_adjInc (u := u) hg hv
  by_cases hx : x = u
  · subst hx
    have hcnt : g.edgeCnt x ≤ 64 := (hg x).le
    by_cases hroom : v ∈ targets g x ∨ g.edgeCnt x < 64
    · rw [(hc.kept hroom).1]
      exact Finset.mem_insert_self _ _
    · obtain ⟨hm, hfull⟩ := not_or.mp hroom
      obtain ⟨d, -, -, htar, -⟩ := hc.overflow hm (by omega)
      rw [htar]
      exact Finset.mem_insert_self _ _
  · obtain ⟨h1, h2⟩ := hc.frame x hx
    rw [targets, h1, h2]
    exact h.resolve_left hx

/-- What an access adds is not lost again in that access. -/
lemma mem_targets_addEdges (hv : v < 65536) (hxv : x ≠ v) (items : List ℕ) (hg : Ok g)
    (h : x ∈ items ∨ v ∈ targets g x) : v ∈ targets (addEdges g items v) x := by
  induction items generalizing g with
  | nil => exact h.resolve_left List.not_mem_nil
  | cons u items ih =>
    have hunfold : addEdges g (u :: items) v =
        addEdges (if u ≠ v then adjInc g u v else g) items v := rfl
    rw [hunfold, List.mem_cons, or_assoc] at *
    by_cases huv : u = v
    · simp only [ne_eq, huv, not_true_eq_false, if_false]
      exact ih hg (h.resolve_left fun e => hxv (e.trans huv))
    · simp only [ne_eq, huv, not_false_eq_true, if_true]
      refine ih (counted_adjInc hg hv).ok ?_
      rcases h with hx | hx | hx
      · exact Or.inr (mem_targets_adjInc hg hv (Or.inl hx))
      · exact Or.inl hx
      · exact Or.inr (mem_targets_adjInc hg hv (Or.inr hx))

/-! ### Whole runs -/

/-- The window and the graph after the history `h` of page indices. -/
structure Lossy (W : ℕ) (h : List ℕ) (s : State) : Prop where
  window : Holds W h s.win
  count : s.accessCount = h.length
  ok : Ok s.graph
  targets : ∀ u, targets s.graph u ⊆ successors W h u
  le : ∀ u v, u < maxUnique → v < 65536 → adjWeight s.graph u v ≤ reference W h u v
  exact : ∀ u v, u < maxUnique → v < 65536 → (successors W h u).card ≤ maxEdgesPerNode →
    adjWeight s.graph u v = reference W h u v

/-- Decay keeps the order of weights. -/
lemma decay_mono {a b : ℕ} (h : a ≤ b) : a - a / 64 ≤ b - b / 64 := by omega

/-- The decay an access starts with, against the reference. -/
lemma Lossy.decayed (hl : Lossy W h s) {w : ℕ → ℕ → ℕ}
    (hw : w = if (h.length + 1) % 2000 = 0
      then fun a b => reference W h a b - reference W h a b / 64 else reference W h) :
    Ok (decayed s) ∧ (∀ u, Graph.targets (decayed s) u = Graph.targets s.graph u) ∧
      ∀ u v, u < maxUnique → v < 65536 → adjWeight (decayed s) u v ≤ w u v ∧
        ((successors W h u).card ≤ maxEdgesPerNode → adjWeight (decayed s) u v = w u v) := by
  subst hw
  unfold TgSafe.decayed decayInterval
  rw [hl.count]
  split_ifs
  · obtain ⟨h1, h2, h3⟩ := applyDecay_spec hl.ok
    refine ⟨h1, h2, fun u v hu hv => ?_⟩
    rw [h3 u v hu hv]
    exact ⟨decay_mono (hl.le u v hu hv), fun hcard => by rw [hl.exact u v hu hv hcard]⟩
  · exact ⟨hl.ok, fun _ => rfl, fun u v hu hv => ⟨hl.le u v hu hv, hl.exact u v hu hv⟩⟩

/-- **One access** keeps the bound, and the rows that are exact. -/
theorem lossy_step (hl : Lossy W h s) (ha : tgAccess s page = some (s', r)) :
    Lossy W (h ++ [pageIdx page]) s' := by
  have hidx := pageIdx_lt page
  simp only [maxUnique] at hidx
  obtain ⟨e1, e2, e3⟩ := access_learns ha
  obtain ⟨h1, h2, h3⟩ := hl.decayed rfl
  have hitems := hl.window.items
  obtain ⟨h4, h5⟩ := addEdges_bounds (v := pageIdx page) (by omega) s.win.items h1
  have hrow (u : ℕ) := h5 u (successors W (h ++ [pageIdx page]) u)
    (fun hu huv => mem_successors_snoc huv (hitems ▸ hu))
    (by rw [h2 u]; exact (hl.targets u).trans (successors_mono (List.prefix_append _ _) u))
  have hmono (u : ℕ) : (successors W h u).card ≤ (successors W (h ++ [pageIdx page]) u).card :=
    Finset.card_le_card (successors_mono (List.prefix_append _ _) u)
  refine ⟨?_, ?_, ?_, fun u => ?_, fun u v hu hv => ?_, fun u v hu hv hcard => ?_⟩
  · rw [e2]; exact hl.window.slide _
  · rw [e3, hl.count]; simp
  · rwa [e1]
  · rw [e1]; exact (hrow u).1
  · rw [e1, reference_snoc]
    refine ((hrow u).2 v hv).1.trans ?_
    have := (h3 u v hu hv).1
    unfold raised refStep
    rw [hitems]
    split_ifs at * <;> omega
  · rw [e1, reference_snoc, ((hrow u).2 v hv).2 hcard]
    have := (h3 u v hu hv).2 ((hmono u).trans hcard)
    unfold raised refStep
    rw [hitems, this]

lemma lossy_init (s₀ : State) (hn : n ≤ maxFrames) (hW : 1 ≤ W) (hW' : W ≤ maxWindow) :
    ∃ s, tgInit s₀ n W = some s ∧ Safe n s ∧ Lossy W [] s := by
  obtain ⟨s, he, hs, hl⟩ := learned_init s₀ hn hW hW'
  exact ⟨s, he, hs, hl.window, hl.count, hl.ok, hl.targets,
    fun u v hu hv => (hl.weight u v hu hv).le, fun u v hu hv _ => hl.weight u v hu hv⟩

/-- The edges to the index just accessed are there, from all of the window. -/
lemma Lossy.fresh (hl : Lossy W h s) (ha : tgAccess s page = some (s', r))
    (hu : u ∈ h.reverse.take W) (huv : u ≠ pageIdx page) :
    1 ≤ adjWeight s'.graph u (pageIdx page) := by
  have hidx := pageIdx_lt page
  simp only [maxUnique] at hidx
  have hok := (lossy_step hl ha).ok
  have hm : pageIdx page ∈ Graph.targets s'.graph u := by
    rw [(access_learns ha).1]
    rw [← hl.window.items] at hu
    exact mem_targets_addEdges (by omega) huv _ (hl.decayed rfl).1 (Or.inl hu)
  obtain ⟨i, hi, hd⟩ := mem_targets.mp hm
  rw [adjWeight_of_slot hok (by omega) hi hd]
  exact (hok u).w_pos i hi

/-- **What the bound on the edges costs.** After every trace the stored weights are at most
the ones of the co-occurrence graph, and exact for each index that had no more successors
than a node has slots, whatever other nodes have lost. The edges from the window to the page
of the next access are all there after it. -/
theorem weights_at_most (s₀ : State) (n : ℕ) (hn : 1 ≤ n) (hn' : n ≤ maxFrames) (W : ℕ)
    (hW : 1 ≤ W) (hW' : W ≤ maxWindow) (tr : List Page) :
    ∃ s s' os, tgInit s₀ n W = some s ∧ run tgAccess s tr = some (s', os) ∧
      (∀ u v, u < maxUnique → v < maxUnique →
        adjWeight s'.graph u v ≤ reference W (tr.map pageIdx) u v) ∧
      (∀ u < maxUnique, (successors W (tr.map pageIdx) u).card ≤ maxEdgesPerNode →
        ∀ v < maxUnique, adjWeight s'.graph u v = reference W (tr.map pageIdx) u v) ∧
      ∀ page, ∃ s'' r, tgAccess s' page = some (s'', r) ∧
        ∀ u ∈ (tr.map pageIdx).reverse.take W, u ≠ pageIdx page →
          1 ≤ adjWeight s''.graph u (pageIdx page) := by
  obtain ⟨s, he, hs, hl⟩ := lossy_init s₀ hn' hW hW'
  obtain ⟨s', os, hrun, hs', hl'⟩ := run_inv
    (I := fun past s => Safe n s ∧ Lossy W (past.map pageIdx) s) tr ⟨hs, hl⟩
    fun past page s _ hi => by
      obtain ⟨s', r, ha, hs', -⟩ := safe_step hn hi.1 page
      exact ⟨s', r, ha, hs', by simpa using lossy_step hi.2 ha⟩
  have hlt {v : ℕ} (hv : v < maxUnique) : v < 65536 := hv.trans (by decide)
  refine ⟨s, s', os, he, hrun, fun u v hu hv => hl'.le u v hu (hlt hv),
    fun u hu hcard v hv => hl'.exact u v hu (hlt hv) hcard, fun page => ?_⟩
  obtain ⟨s'', r, ha, -⟩ := safe_step hn hs' page
  exact ⟨s'', r, ha, fun u hu huv => hl'.fresh ha hu huv⟩

/-- Accesses to 65 pages, and one to the page 0 before each and after the last. -/
def star : List Page := ((List.range 65).flatMap fun k => [0, Int32.ofNat (k + 1)]) ++ [0]

/-- The theorem there: the node 0 has a successor more than slots, the node 1 has one. -/
theorem weights_at_most_star : 1 ≤ 2 ∧ 2 ≤ maxFrames ∧ 1 ≤ 1 ∧ 1 ≤ maxWindow ∧
    maxEdgesPerNode < (successors 1 (star.map pageIdx) 0).card ∧
    (successors 1 (star.map pageIdx) 1).card ≤ maxEdgesPerNode ∧
    ∃ s s' os, tgInit start 2 1 = some s ∧ run tgAccess s star = some (s', os) ∧
      (∀ v < maxUnique, adjWeight s'.graph 0 v ≤ reference 1 (star.map pageIdx) 0 v) ∧
      (∀ v < maxUnique, adjWeight s'.graph 1 v = reference 1 (star.map pageIdx) 1 v) ∧
      ∃ s'' r, tgAccess s' 66 = some (s'', r) ∧ 1 ≤ adjWeight s''.graph 0 66 := by
  have hmany : maxEdgesPerNode < (successors 1 (star.map pageIdx) 0).card := by decide +kernel
  have hone : (successors 1 (star.map pageIdx) 1).card ≤ maxEdgesPerNode := by decide +kernel
  have hlast : 0 ∈ (star.map pageIdx).reverse.take 1 := by decide +kernel
  obtain ⟨s, s', os, h1, h2, h3, h4, h5⟩ := weights_at_most start 2 (by decide) (by decide) 1
    (by decide) (by decide) star
  obtain ⟨s'', r, ha, hfresh⟩ := h5 66
  exact ⟨by decide, by decide, le_rfl, by decide, hmany, hone, s, s', os, h1, h2,
    fun v hv => h3 0 v (by decide) hv, h4 1 (by decide) hone, s'', r, ha,
    hfresh 0 hlast (by decide)⟩

end Tempograph.TgBounds
