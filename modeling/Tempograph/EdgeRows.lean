import Tempograph.ArgMin
import Tempograph.Graph
import Tempograph.SwapRemove

/-!
What `adj_inc` and `apply_decay` do to any row of edges.

The rows here are as full, as light and as worn as the fields of `tempograph.c` allow: an
increment may have to replace the weakest edge, and a sweep may find weights that decay to
zero anywhere in a row.
-/

namespace Tempograph.EdgeRows

open Common Tempograph.Graph SwapRemove

variable {g : Adj} {u v x : ℕ}

/-- The live edges of a node, in slot order. -/
def liveEdges (g : Adj) (u : ℕ) : List Edge := (List.range (g.edgeCnt u)).map (g.edges u)

lemma length_liveEdges (g : Adj) (u : ℕ) : (liveEdges g u).length = g.edgeCnt u := by
  simp [liveEdges]

lemma mem_liveEdges {e : Edge} : e ∈ liveEdges g u ↔ ∃ i < g.edgeCnt u, g.edges u i = e := by
  simp [liveEdges]

/-- The weight of the first edge to `d`, or 0. -/
def weightTo (l : List Edge) (d : ℕ) : ℕ :=
  match l.find? fun e => e.dst == d with
  | some e => e.w
  | none => 0

lemma adjWeight_eq (g : Adj) (u v : ℕ) :
    adjWeight g u v = weightTo (liveEdges g u) (v % 65536) := by
  unfold adjWeight adjGet weightTo liveEdges
  rw [List.find?_map]
  unfold Function.comp
  cases (List.range (g.edgeCnt u)).find? fun i => (g.edges u i).dst == v % 65536 <;> rfl

lemma weightTo_of_mem {l : List Edge} (hl : (l.map Edge.dst).Nodup) {e : Edge} (he : e ∈ l) :
    weightTo l e.dst = e.w := by
  unfold weightTo
  cases hf : l.find? fun a => a.dst == e.dst with
  | none => simpa using List.find?_eq_none.mp hf e he
  | some a =>
    have ha := List.mem_of_find?_eq_some hf
    have hd : a.dst = e.dst := by simpa using List.find?_some hf
    rw [List.inj_on_of_nodup_map hl ha he hd]

lemma weightTo_of_not_mem {l : List Edge} {d : ℕ} (h : d ∉ l.map Edge.dst) :
    weightTo l d = 0 := by
  unfold weightTo
  rw [List.find?_eq_none.mpr]
  intro e he hd
  exact h (List.mem_map.mpr ⟨e, he, by simpa using hd⟩)

/-! ### The sweep -/

/-- What decay leaves of an edge. -/
def worn (e : Edge) : Option Edge := if decay e.w = 0 then none else some { e with w := decay e.w }

/-- The loop of `apply_decay` is a sweep with swap-remove. -/
lemma decayRow_eq_sweep (row : ℕ → Edge) (i r : ℕ) : decayRow row i r = sweep worn row i r := by
  induction r generalizing row i with
  | zero => rfl
  | succ r ih =>
    by_cases h : decay (row i).w = 0
    · simp only [decayRow, sweep, worn, h, if_true, ih]
    · simp only [decayRow, sweep, worn, h, if_false, ih]

lemma entries_zero (row : ℕ → Edge) (n : ℕ) : entries row 0 n = (List.range n).map row := by
  rw [entries, List.range_eq_range']

/-- Nodes with at most 64 edges, to different targets, and with any 16-bit weights. -/
structure Shaped (row : ℕ → Edge) (n : ℕ) : Prop where
  le : n ≤ maxEdgesPerNode
  inj : ∀ i < n, ∀ j < n, (row i).dst = (row j).dst → i = j
  w_le : ∀ i < n, (row i).w ≤ 65535

lemma Shaped.nodup (h : Shaped (g.edges u) (g.edgeCnt u)) :
    ((liveEdges g u).map Edge.dst).Nodup := by
  rw [liveEdges, List.map_map]
  refine List.Nodup.map_on (fun i hi j hj e => ?_) List.nodup_range
  exact h.inj i (List.mem_range.mp hi) j (List.mem_range.mp hj) e

lemma Shaped.light (h : Shaped (g.edges u) (g.edgeCnt u)) :
    ∀ e ∈ liveEdges g u, e.w ≤ 65535 := by
  intro e he
  obtain ⟨i, hi, rfl⟩ := mem_liveEdges.mp he
  exact h.w_le i hi

/-- The live edges after a sweep are what decay leaves of the live edges before it. -/
lemma liveEdges_applyDecay (h : Shaped (g.edges u) (g.edgeCnt u)) (hu : u < maxUnique) :
    (liveEdges (applyDecay g) u).Perm ((liveEdges g u).filterMap worn) := by
  obtain ⟨-, h2, -, h4⟩ := sweep_spec worn (g.edges u) 0 (g.edgeCnt u)
  have hle : g.edgeCnt u ≤ 64 := h.le
  have hcnt : (applyDecay g).edgeCnt u = (sweep worn (g.edges u) 0 (g.edgeCnt u)).2 := by
    simp only [applyDecay, if_pos hu, decayRow_eq_sweep]
    exact Nat.mod_eq_of_lt (by omega)
  have hrow : (applyDecay g).edges u = (sweep worn (g.edges u) 0 (g.edgeCnt u)).1 := by
    simp only [applyDecay, if_pos hu, decayRow_eq_sweep]
  rw [entries_zero, Nat.sub_zero, entries_zero] at h4
  rwa [liveEdges, hcnt, hrow]

lemma worn_eq_some {e a : Edge} (he : e.w ≤ 65535) :
    worn e = some a ↔ a = ⟨e.dst, e.w - e.w / 64⟩ ∧ e.w - e.w / 64 ≠ 0 := by
  unfold worn
  rw [decay_eq he]
  split_ifs with h0
  · simp [h0]
  · simp [h0, eq_comm]

lemma worn_dst {e a : Edge} (h : worn e = some a) : a.dst = e.dst := by
  unfold worn at h
  split_ifs at h
  exact (congrArg Edge.dst (Option.some.inj h)).symm

lemma map_dst_sublist (l : List Edge) :
    ((l.filterMap worn).map Edge.dst).Sublist (l.map Edge.dst) := by
  induction l with
  | nil => exact List.Sublist.refl _
  | cons e l ih =>
    cases h : worn e with
    | none => simpa [List.filterMap_cons, h] using ih.cons _
    | some a => simpa [List.filterMap_cons, h, worn_dst h] using ih

/-- The targets stay different. -/
lemma nodup_applyDecay (h : Shaped (g.edges u) (g.edgeCnt u)) (hu : u < maxUnique) :
    ((liveEdges (applyDecay g) u).map Edge.dst).Nodup :=
  ((liveEdges_applyDecay h hu).map _).nodup_iff.mpr (h.nodup.sublist (map_dst_sublist _))

lemma mem_applyDecay (h : Shaped (g.edges u) (g.edgeCnt u)) (hu : u < maxUnique) {a : Edge} :
    a ∈ liveEdges (applyDecay g) u ↔
      ∃ e ∈ liveEdges g u, a = ⟨e.dst, e.w - e.w / 64⟩ ∧ e.w - e.w / 64 ≠ 0 := by
  rw [(liveEdges_applyDecay h hu).mem_iff, List.mem_filterMap]
  constructor
  · rintro ⟨e, he, hw⟩
    exact ⟨e, he, (worn_eq_some (h.light e he)).mp hw⟩
  · rintro ⟨e, he, hw⟩
    exact ⟨e, he, (worn_eq_some (h.light e he)).mpr hw⟩

/-- A sweep takes a 64th off every weight, rounded down; an edge that is not there weighs
nothing before and after it. -/
lemma adjWeight_applyDecay (h : Shaped (g.edges u) (g.edgeCnt u)) (hu : u < maxUnique) (v : ℕ) :
    adjWeight (applyDecay g) u v = adjWeight g u v - adjWeight g u v / 64 := by
  rw [adjWeight_eq, adjWeight_eq]
  by_cases hm : v % 65536 ∈ (liveEdges g u).map Edge.dst
  · obtain ⟨e, he, hd⟩ := List.mem_map.mp hm
    rw [← hd, weightTo_of_mem h.nodup he]
    by_cases h0 : e.w - e.w / 64 = 0
    · -- a dead edge is gone: no other edge has its target
      rw [h0]
      refine weightTo_of_not_mem fun hm' => ?_
      obtain ⟨a, ha, had⟩ := List.mem_map.mp hm'
      obtain ⟨e', he', rfl, hne⟩ := (mem_applyDecay h hu).mp ha
      obtain rfl := List.inj_on_of_nodup_map h.nodup he' he had
      exact hne h0
    · have ha := (mem_applyDecay h hu).mpr ⟨e, he, rfl, h0⟩
      exact weightTo_of_mem (nodup_applyDecay h hu) ha
  · rw [weightTo_of_not_mem hm, Nat.zero_div, Nat.sub_zero]
    refine weightTo_of_not_mem fun hm' => hm ?_
    obtain ⟨a, ha, had⟩ := List.mem_map.mp hm'
    obtain ⟨e, he, rfl, -⟩ := (mem_applyDecay h hu).mp ha
    exact List.mem_map.mpr ⟨e, he, had⟩

lemma sub_div_mono {a b : ℕ} (h : a ≤ b) : a - a / 64 ≤ b - b / 64 := by omega

/-- **A decay sweep**, over nodes with any 16-bit weights: every weight loses a 64th, the live
edges are the old ones whose weight is not zero then, each once, and a heavier edge stays
at least as heavy as a lighter one. -/
theorem applyDecay_sweep (g : Adj) (h : ∀ u < maxUnique, Shaped (g.edges u) (g.edgeCnt u)) :
    (∀ u < maxUnique,
      (∀ v, adjWeight (applyDecay g) u v = adjWeight g u v - adjWeight g u v / 64) ∧
      (∀ a, a ∈ liveEdges (applyDecay g) u ↔
        ∃ e ∈ liveEdges g u, a = ⟨e.dst, e.w - e.w / 64⟩ ∧ e.w - e.w / 64 ≠ 0) ∧
      ((liveEdges (applyDecay g) u).map Edge.dst).Nodup ∧
      (applyDecay g).edgeCnt u = (liveEdges g u).countP fun e => e.w - e.w / 64 ≠ 0) ∧
    ∀ u v u' v', u < maxUnique → u' < maxUnique → adjWeight g u v ≤ adjWeight g u' v' →
      adjWeight (applyDecay g) u v ≤ adjWeight (applyDecay g) u' v' := by
  refine ⟨fun u hu => ⟨adjWeight_applyDecay (h u hu) hu, fun a => mem_applyDecay (h u hu) hu,
    nodup_applyDecay (h u hu) hu, ?_⟩, fun u v u' v' hu hu' hle => ?_⟩
  · rw [← length_liveEdges, (liveEdges_applyDecay (h u hu) hu).length_eq,
      List.length_filterMap_eq_countP]
    refine List.countP_congr fun e he => ?_
    by_cases h0 : e.w - e.w / 64 = 0
    · simp [worn, decay_eq ((h u hu).light e he), h0]
    · simp [worn, decay_eq ((h u hu).light e he), h0]
  · rw [adjWeight_applyDecay (h u hu) hu, adjWeight_applyDecay (h u' hu') hu']
    exact sub_div_mono hle

/-- The theorem at nodes with three edges, the first of them dead. -/
theorem applyDecay_sweep_three :
    (∀ u < maxUnique, Shaped ((⟨fun _ i => ⟨i, 64 * i⟩, fun _ => 3⟩ : Adj).edges u)
      ((⟨fun _ i => ⟨i, 64 * i⟩, fun _ => 3⟩ : Adj).edgeCnt u)) ∧
    (applyDecay ⟨fun _ i => ⟨i, 64 * i⟩, fun _ => 3⟩).edgeCnt 7 =
      (liveEdges ⟨fun _ i => ⟨i, 64 * i⟩, fun _ => 3⟩ 7).countP fun e => e.w - e.w / 64 ≠ 0 := by
  have h : ∀ u < maxUnique, Shaped ((⟨fun _ i => ⟨i, 64 * i⟩, fun _ => 3⟩ : Adj).edges u)
      ((⟨fun _ i => ⟨i, 64 * i⟩, fun _ => 3⟩ : Adj).edgeCnt u) := by
    intro u _
    refine ⟨by simp [maxEdgesPerNode], fun i _ j _ e => e, fun i hi => ?_⟩
    have hi : i < 3 := hi
    show 64 * i ≤ 65535
    omega
  exact ⟨h, ((applyDecay_sweep _ h).1 7 (by simp [maxUnique])).2.2.2⟩

end Tempograph.EdgeRows
