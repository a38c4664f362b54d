import Mathlib.Data.List.Find
import Tempograph.TgFrames

/-!
Renaming the pages does not change what `tempograph.c` answers.

Two states are the same up to a renaming of pages, and of indices with them, if the tables
and the graph of one are those of the other under the renaming. The frames keep their
numbers, so the list, the times and the counters are equal, and so is every choice made by
them and by the weights.
-/

namespace Tempograph.TgRename

open Common Tempograph.Graph LinkedList SlidingWindow Recency Runs TempoGraph TgSafe TgFrames

variable {f : Page → Page} {τ : ℕ → ℕ} {P : Page → Prop} {n W v : ℕ} {h : List ℕ} {page : Page}

/-- A renaming of the pages with `P`, and of the indices along with it. -/
structure Renames (f : Page → Page) (τ : ℕ → ℕ) (P : Page → Prop) : Prop where
  page_inj : Function.Injective f
  index_inj : Function.Injective τ
  mark : f (-1) = -1
  index_lt : ∀ i, τ i < maxUnique ↔ i < maxUnique
  index : ∀ p, P p → pageIdx (f p) = τ (pageIdx p)

/-! ### The graph -/

/-- The edge with its target renamed. -/
def rename (τ : ℕ → ℕ) (e : Edge) : Edge := ⟨τ e.dst, e.w⟩

@[simp] lemma rename_w (τ : ℕ → ℕ) (e : Edge) : (rename τ e).w = e.w := rfl

/-- The live edges of a node are those of the renamed node. -/
structure SameGraph (τ : ℕ → ℕ) (g g' : Adj) : Prop where
  count : ∀ u, g'.edgeCnt (τ u) = g.edgeCnt u
  edge : ∀ u, ∀ i < g.edgeCnt u, g'.edges (τ u) i = rename τ (g.edges u i)

variable {g g' : Adj}

lemma mod_of_index {i : ℕ} (hi : i < maxUnique) : i % 65536 = i :=
  Nat.mod_eq_of_lt (by simp only [maxUnique] at hi; omega)

lemma SameGraph.adjGet (hg : SameGraph τ g g') (hf : Renames f τ P) (u : ℕ) {x : ℕ}
    (hx : x < maxUnique) : adjGet g' (τ u) (τ x) = adjGet g u x := by
  unfold Graph.adjGet
  rw [hg.count, mod_of_index hx, mod_of_index ((hf.index_lt x).mpr hx)]
  refine List.find?_congr fun i hi => ?_
  rw [hg.edge u i (List.mem_range.mp hi)]
  simp [rename, hf.index_inj.eq_iff]

lemma adjGet_lt {u x i : ℕ} (h : adjGet g u x = some i) : i < g.edgeCnt u :=
  List.mem_range.mp (List.mem_of_find?_eq_some h)

lemma SameGraph.adjWeight (hg : SameGraph τ g g') (hf : Renames f τ P) (u : ℕ) {x : ℕ}
    (hx : x < maxUnique) : adjWeight g' (τ u) (τ x) = adjWeight g u x := by
  unfold Graph.adjWeight
  rw [hg.adjGet hf u hx]
  cases hi : Graph.adjGet g u x with
  | none => rfl
  | some i => simp only [hg.edge u i (adjGet_lt hi), rename]

/-- Writing a slot, a live one or the next free one. -/
lemma SameGraph.write (hg : SameGraph τ g g') (hf : Renames f τ P) (u i m : ℕ) (e : Edge)
    (hm : ∀ j < m, j ≠ i → j < g.edgeCnt u) :
    SameGraph τ { g.set u i e with edgeCnt := Function.update g.edgeCnt u m }
      { g'.set (τ u) i (rename τ e) with edgeCnt := Function.update g'.edgeCnt (τ u) m } := by
  refine ⟨fun x => ?_, fun x j hj => ?_⟩
  · simp only [Function.update_apply, hf.index_inj.eq_iff, hg.count]
  · by_cases hx : x = u
    · subst hx
      simp only [Function.update_self] at hj
      simp only [Adj.set, Function.update_self, Function.update_apply]
      split_ifs with hji
      · rfl
      · exact hg.edge x j (hm j hj hji)
    · have hx' : τ x ≠ τ u := fun e => hx (hf.index_inj e)
      simp only [Function.update_of_ne hx] at hj
      simp only [Adj.set, Function.update_of_ne hx, Function.update_of_ne hx']
      exact hg.edge x j hj

/-- Writing a live slot. -/
lemma SameGraph.set (hg : SameGraph τ g g') (hf : Renames f τ P) (u i : ℕ) (e : Edge) :
    SameGraph τ (g.set u i e) (g'.set (τ u) i (rename τ e)) := by
  have h := hg.write hf u i (g.edgeCnt u) e fun j hj _ => hj
  have e1 : Function.update g.edgeCnt u (g.edgeCnt u) = g.edgeCnt := Function.update_eq_self _ _
  have e2 : Function.update g'.edgeCnt (τ u) (g.edgeCnt u) = g'.edgeCnt := by
    rw [← hg.count, Function.update_eq_self]
  rw [e1, e2] at h
  exact h

lemma foldl_weakest {w w' : ℕ → ℕ} (l : List ℕ) (m : ℕ) (hm : w' m = w m)
    (hl : ∀ i ∈ l, w' i = w i) :
    l.foldl (fun mi i => if w' i < w' mi then i else mi) m =
      l.foldl (fun mi i => if w i < w mi then i else mi) m := by
  induction l generalizing m with
  | nil => rfl
  | cons a l ih =>
    have ha := hl a List.mem_cons_self
    have hl' : ∀ i ∈ l, w' i = w i := fun i hi => hl i (List.mem_cons_of_mem _ hi)
    rw [List.foldl_cons, List.foldl_cons, ha, hm]
    split_ifs
    · exact ih a ha hl'
    · exact ih m hm hl'

lemma SameGraph.weakest (hg : SameGraph τ g g') {u : ℕ} (hn : maxEdgesPerNode ≤ g.edgeCnt u) :
    weakest g' (τ u) = weakest g u := by
  have hw : ∀ i < maxEdgesPerNode, (g'.edges (τ u) i).w = (g.edges u i).w := fun i hi => by
    rw [hg.edge u i (by omega)]
    rfl
  refine foldl_weakest _ 0 (hw 0 (by decide)) fun i hi => hw i ?_
  have := List.mem_range'_1.mp hi
  simp only [maxEdgesPerNode] at *
  omega

lemma SameGraph.adjInc (hg : SameGraph τ g g') (hf : Renames f τ P) (u : ℕ) {x : ℕ}
    (hx : x < maxUnique) : SameGraph τ (adjInc g u x) (adjInc g' (τ u) (τ x)) := by
  have hedge : (⟨τ x % 65536, 1⟩ : Edge) = rename τ ⟨x % 65536, 1⟩ := by
    rw [mod_of_index hx, mod_of_index ((hf.index_lt x).mpr hx)]
    rfl
  unfold Graph.adjInc
  rw [hg.adjGet hf u hx]
  cases hi : Graph.adjGet g u x with
  | some i =>
    simp only [hg.edge u i (adjGet_lt hi), rename_w]
    split_ifs
    · exact hg.set hf u i _
    · exact hg
  | none =>
    simp only [hg.count, hedge]
    split_ifs with hn
    · apply hg.write hf u _ _ _
      intro j hj hne
      have := Nat.mod_le (g.edgeCnt u + 1) 256
      omega
    · rw [hg.weakest (by omega)]
      exact hg.set hf u _ _

lemma decayRow_rename {row row' : ℕ → Edge} (i r : ℕ)
    (hrow : ∀ j < i + r, row' j = rename τ (row j)) :
    (decayRow row' i r).2 = (decayRow row i r).2 ∧ (decayRow row i r).2 ≤ i + r ∧
      ∀ j < (decayRow row i r).2, (decayRow row' i r).1 j = rename τ ((decayRow row i r).1 j) := by
  induction r generalizing row row' i with
  | zero => exact ⟨rfl, le_rfl, hrow⟩
  | succ r ih =>
    have hi := hrow i (by omega)
    simp only [decayRow, hi, rename]
    split_ifs with hw
    · have hlast : ∀ j < i + r, Function.update row' i (row' (i + r)) j =
          rename τ (Function.update row i (row (i + r)) j) := fun j hj => by
        simp only [Function.update_apply]
        split_ifs
        · exact hrow _ (by omega)
        · exact hrow j (by omega)
      obtain ⟨h1, h2, h3⟩ := ih i hlast
      exact ⟨h1, h2.trans (by omega), h3⟩
    · have hkept : ∀ j < i + 1 + r,
          Function.update row' i ⟨τ (row i).dst, decay (row i).w⟩ j =
            rename τ (Function.update row i { row i with w := decay (row i).w } j) := fun j hj => by
        simp only [Function.update_apply]
        split_ifs
        · rfl
        · exact hrow j (by omega)
      obtain ⟨h1, h2, h3⟩ := ih (i + 1) hkept
      exact ⟨h1, h2.trans (by omega), h3⟩

lemma SameGraph.applyDecay (hg : SameGraph τ g g') (hf : Renames f τ P) :
    SameGraph τ (applyDecay g) (applyDecay g') := by
  have hlive (u : ℕ) : ∀ j < 0 + g.edgeCnt u, g'.edges (τ u) j = rename τ (g.edges u j) :=
    fun j hj => hg.edge u j (by omega)
  have hrow (u : ℕ) := decayRow_rename 0 (g.edgeCnt u) (hlive u)
  refine ⟨fun u => ?_, fun u i hi => ?_⟩
  · simp only [Graph.applyDecay, hf.index_lt, hg.count, (hrow u).1]
  · simp only [Graph.applyDecay, hf.index_lt, hg.count] at hi ⊢
    split_ifs at hi ⊢
    · exact (hrow u).2.2 i (hi.trans_le (Nat.mod_le _ _))
    · exact hg.edge u i hi

lemma SameGraph.addEdges (hg : SameGraph τ g g') (hf : Renames f τ P) (items : List ℕ) {x : ℕ}
    (hx : x < maxUnique) :
    SameGraph τ (addEdges g items x) (addEdges g' (items.map τ) (τ x)) := by
  unfold TempoGraph.addEdges
  induction items generalizing g g' with
  | nil => exact hg
  | cons u items ih =>
    simp only [List.map_cons, List.foldl_cons, ne_eq, hf.index_inj.eq_iff]
    split_ifs
    · exact ih hg
    · exact ih (hg.adjInc hf u hx)

/-! ### The state -/

/-- The state `t` is `s` with the pages and indices renamed, after a history `h` of indices
and the renamed one. -/
structure Same (f : Page → Page) (τ : ℕ → ℕ) (P : Page → Prop) (W : ℕ) (h : List ℕ)
    (s t : State) : Prop where
  graph : SameGraph τ s.graph t.graph
  links : t.links = s.links
  ends : t.ends = s.ends
  frames : ∀ i, t.frames i = f (s.frames i)
  named : ∀ i, s.frames i ≠ -1 → P (s.frames i)
  inFrames : ∀ i, t.inFrames (τ i) = s.inFrames i
  frameOf : ∀ i, t.frameOf (τ i) = s.frameOf i
  cap : t.cap = s.cap
  size : t.size = s.size
  mruTime : t.mruTime = s.mruTime
  globalTime : t.globalTime = s.globalTime
  accessCount : t.accessCount = s.accessCount
  window : Holds W h s.win
  window' : Holds W (h.map τ) t.win

variable {s t : State}

lemma Same.items (hs : Same f τ P W h s t) : t.win.items = s.win.items.map τ := by
  rw [hs.window.items, hs.window'.items, ← List.map_reverse, List.map_take]

/-- A frame is empty in both states or in neither. -/
lemma Same.empty_iff (hs : Same f τ P W h s t) (hf : Renames f τ P) (i : ℕ) :
    t.frames i = -1 ↔ s.frames i = -1 := by
  rw [hs.frames]
  constructor
  · intro e
    exact hf.page_inj (e.trans hf.mark.symm)
  · intro e
    rw [e, hf.mark]

lemma Same.held (hs : Same f τ P W h s t) (hf : Renames f τ P) {i : ℕ}
    (hi : s.frames i ≠ -1) : held t i = τ (held s i) := by
  unfold TgFrames.held
  rw [hs.frames, hf.index _ (hs.named i hi)]

lemma Same.prepare (hs : Same f τ P W h s t) (hf : Renames f τ P) {idx : ℕ}
    (hidx : idx < maxUnique) : Same f τ P W h (prepare s idx) (prepare t (τ idx)) := by
  refine ⟨?_, hs.links, hs.ends, hs.frames, hs.named, hs.inFrames, hs.frameOf, hs.cap, hs.size,
    hs.mruTime, congrArg (· + 1) hs.globalTime, congrArg (· + 1) hs.accessCount, hs.window,
    hs.window'⟩
  have hdecay : SameGraph τ (decayed s) (decayed t) := by
    unfold decayed
    rw [hs.accessCount]
    split_ifs
    · exact hs.graph.applyDecay hf
    · exact hs.graph
  simp only [TgSafe.prepare, hs.items]
  exact hdecay.addEdges hf _ hidx

/-- **The renamed state makes the same choice**, if no empty frame is sampled. -/
lemma Same.chooseVictim (hs : Same f τ P W h s t) (hf : Renames f τ P)
    (hocc : ∀ i ∈ sample s, s.frames i ≠ -1) : chooseVictim t = chooseVictim s := by
  have hsample : sample t = sample s := by rw [sample, sample, hs.links, hs.ends]
  have hscore : ∀ i ∈ sample s, scorePage t (TgFrames.held t i) = scorePage s (TgFrames.held s i) :=
    fun i hi => by
      unfold scorePage
      rw [hs.items, List.map_map, hs.held hf (hocc i hi)]
      exact congrArg List.sum (List.map_congr_left fun u _ =>
        hs.graph.adjWeight hf u (pageIdx_lt _))
  have hfold : (sample s).foldl (consider t) ⟨none, longMax, -1⟩ =
      (sample s).foldl (consider s) ⟨none, longMax, -1⟩ := by
    apply List.foldl_ext _ _ _
    intro b i hi
    have := hscore i hi
    unfold TgFrames.held at this
    simp only [consider, this, hs.mruTime]
  have hevict : evictionVictim t = evictionVictim s := by
    simp only [evictionVictim, hsample, hfold, hs.ends]
  have hfind : (List.range s.cap.toNat).find? (fun i => t.frames i == -1) =
      (List.range s.cap.toNat).find? fun i => s.frames i == -1 :=
    List.find?_congr fun i _ => by
      rw [Bool.eq_iff_iff, beq_iff_eq, beq_iff_eq]
      exact hs.empty_iff hf i
  simp only [TempoGraph.chooseVictim, hs.size, hs.cap, hevict, hfind]

lemma Same.slide (hs : Same f τ P W h s t) (idx : ℕ) :
    Holds W (h ++ [idx]) (s.win.slide idx) ∧
      Holds W ((h ++ [idx]).map τ) (t.win.slide (τ idx)) := by
  refine ⟨hs.window.slide idx, ?_⟩
  rw [List.map_append]
  exact hs.window'.slide (τ idx)

lemma Same.hit (hs : Same f τ P W h s t) (hf : Renames f τ P) (v : ℕ) {idx : ℕ}
    (hidx : idx < maxUnique) :
    Same f τ P W (h ++ [idx]) (hitState s v idx) (hitState t v (τ idx)) := by
  obtain ⟨hw, hw'⟩ := hs.slide idx
  obtain ⟨e1, e2⟩ := lruTouch_links s v
  obtain ⟨e3, e4⟩ := lruTouch_links t v
  rw [hs.links, hs.ends] at e3 e4
  exact ⟨(hs.prepare hf hidx).graph, e3.trans e1.symm, e4.trans e2.symm, hs.frames, hs.named,
    hs.inFrames, hs.frameOf, hs.cap, hs.size, by simp only [hitState, hs.mruTime, hs.globalTime],
    congrArg (· + 1) hs.globalTime, congrArg (· + 1) hs.accessCount, hw, hw'⟩

/-- Evicting the same frame takes the same index out of the table. -/
lemma Same.evict (hs : Same f τ P W h s t) (hf : Renames f τ P) (v : ℕ) :
    (evict t v).links = (evict s v).links ∧ (evict t v).ends = (evict s v).ends ∧
      (∀ i, (evict t v).inFrames (τ i) = (evict s v).inFrames i) ∧
      ∀ i, (evict t v).frameOf (τ i) = (evict s v).frameOf i := by
  obtain ⟨e1, e2⟩ := evict_links s v
  obtain ⟨e3, e4⟩ := evict_links t v
  simp only [hs.links, hs.ends, ne_eq, hs.empty_iff hf] at e3 e4
  refine ⟨e3.trans e1.symm, e4.trans e2.symm, fun i => ?_, fun i => ?_⟩
  all_goals
    by_cases hv : s.frames v = -1
    · have hv' := (hs.empty_iff hf v).mpr hv
      simp only [TempoGraph.evict, hv, hv', ne_eq, not_true_eq_false, if_false, hs.inFrames,
        hs.frameOf]
    · have hv' : ¬t.frames v = -1 := fun e => hv ((hs.empty_iff hf v).mp e)
      have hheld := hs.held hf hv
      unfold TgFrames.held at hheld
      simp only [TempoGraph.evict, hv, hv', ne_eq, not_false_eq_true, if_true, lruUnlink, hheld,
        Function.update_apply, hf.index_inj.eq_iff, hs.inFrames, hs.frameOf]

lemma Same.fault (hs : Same f τ P W h s t) (hf : Renames f τ P) (v : ℕ) (hp : P page) :
    Same f τ P W (h ++ [pageIdx page]) (faultState s v page) (faultState t v (f page)) := by
  have hidx := hf.index page hp
  obtain ⟨hw, hw'⟩ := hs.slide (pageIdx page)
  obtain ⟨e1, e2, e3, e4⟩ := hs.evict hf v
  have hgraph := (hs.prepare hf (pageIdx_lt page)).graph
  rw [← hidx] at hgraph hw'
  refine ⟨hgraph, ?_, ?_, fun i => ?_, fun i hi => ?_, fun i => ?_, fun i => ?_, hs.cap, ?_, ?_,
    congrArg (· + 1) hs.globalTime, congrArg (· + 1) hs.accessCount, hw, hw'⟩
  · simp only [faultState, e1, e2]
  · simp only [faultState, e2]
  · simp only [faultState, Function.update_apply]
    split_ifs
    · rfl
    · exact hs.frames i
  · simp only [faultState, Function.update_apply] at hi ⊢
    split_ifs at hi ⊢
    · exact hp
    · exact hs.named i hi
  · simp only [faultState, hidx, Function.update_apply, hf.index_inj.eq_iff, e3]
  · simp only [faultState, hidx, Function.update_apply, hf.index_inj.eq_iff, e4]
  · simp only [faultState, hs.size, hs.cap]
  · simp only [faultState, hs.mruTime, hs.globalTime]

/-! ### Runs -/

/-- **One access** to a page and to the renamed page have the same answer. -/
lemma same_step (hn : 1 ≤ n) (hf : Renames f τ P) (hi : Inv n h s) (hs : Same f τ P W h s t)
    (hp : P page) (hne : page ≠ -1) :
    ∃ s' t' r, tgAccess s page = some (s', r) ∧ tgAccess t (f page) = some (t', r) ∧
      Inv n (h ++ [pageIdx page]) s' ∧ Same f τ P W (h ++ [pageIdx page]) s' t' := by
  obtain ⟨s', r, ha, hi', -⟩ := TgFrames.inv_step hn hi hne
  obtain ⟨-, l, hr⟩ := hi
  have hidx := hf.index page hp
  have ha' := ha
  rw [access_eq] at ha'
  split_ifs at ha' with hin
  · obtain ⟨v, hv, e⟩ := Option.map_eq_some_iff.mp ha'
    obtain ⟨rfl, rfl⟩ := Prod.mk.inj e
    refine ⟨_, _, _, ha, ?_, hi', hs.hit hf v (pageIdx_lt page)⟩
    rw [access_eq, hidx, hs.inFrames, if_pos hin, hs.frameOf, hv]
    rfl
  · obtain ⟨v, hv, e⟩ := Option.map_eq_some_iff.mp ha'
    obtain ⟨rfl, rfl⟩ := Prod.mk.inj e
    have hocc : ∀ i ∈ sample (prepare s (pageIdx page)),
        (prepare s (pageIdx page)).frames i ≠ -1 := fun i hm => by
      have hm : i ∈ sample s := hm
      rw [sample, hr.list.follow_prev] at hm
      exact ((hr.occupied i).mp (List.mem_reverse.mp (List.mem_of_mem_take hm))).2
    have hchoose := (hs.prepare hf (pageIdx_lt page)).chooseVictim hf hocc
    refine ⟨_, _, _, ha, ?_, hi', hs.fault hf v hp⟩
    rw [access_eq, hidx, hs.inFrames, if_neg hin, hchoose, hv]
    rfl

lemma same_init (hf : Renames f τ P) (s₀ t₀ : State) (hn' : n ≤ maxFrames) (W : ℤ) :
    ∃ s t, tgInit s₀ n W = some s ∧ tgInit t₀ n W = some t ∧ Inv n [] s ∧
      Same f τ P (windowOf W) [] s t := by
  obtain ⟨s, he, hs, hr⟩ := rep_init s₀ hn' W
  refine ⟨s, _, he, tgInit_eq t₀ hn' W, ⟨hs, [], hr⟩, ?_⟩
  rw [tgInit_eq s₀ hn'] at he
  obtain rfl := Option.some.inj he
  refine ⟨⟨fun _ => rfl, fun u i hi => absurd hi (Nat.not_lt_zero i)⟩, rfl, rfl, fun _ => ?_,
    fun _ hi => absurd rfl hi, fun _ => rfl, fun _ => rfl, rfl, rfl, rfl, rfl, rfl, ?_, ?_⟩
  · exact hf.mark.symm
  · exact holds_nil _ 0
  · exact holds_nil _ 0

/-- **TempoGraph gives a trace and its renamed image the same answers.** -/
theorem tg_rename (hf : Renames f τ P) (s₀ t₀ : State) (hn : 1 ≤ n) (hn' : n ≤ maxFrames) (W : ℤ)
    (tr : List Page) (hP : ∀ p ∈ tr, P p ∧ p ≠ -1) :
    ∃ s t s' t' os, tgInit s₀ n W = some s ∧ tgInit t₀ n W = some t ∧
      run tgAccess s tr = some (s', os) ∧ run tgAccess t (tr.map f) = some (t', os) := by
  obtain ⟨s, t, he, he', hi, hs⟩ := same_init hf s₀ t₀ hn' W
  obtain ⟨s', t', os, h1, h2, -⟩ := run_sim (g := fun t page => tgAccess t (f page))
    (R := fun past s t => Inv n (past.map pageIdx) s ∧
      Same f τ P (windowOf W) (past.map pageIdx) s t) tr ⟨hi, hs⟩ fun past page s t hp hR => by
    obtain ⟨hp, hne⟩ := hP page (hp.subset (by simp))
    obtain ⟨s', t', r, h1, h2, h3, h4⟩ := same_step hn hf hR.1 hR.2 hp hne
    rw [List.map_append]
    exact ⟨s', t', r, h1, h2, h3, h4⟩
  rw [run_comap] at h2
  exact ⟨s, t, s', t', os, he, he', h1, h2⟩

end Tempograph.TgRename
