import Tempograph.TgPluginPaging
import Tempograph.TgWeights

/-!
The plugin agrees with `tempograph.c`.

The two programs are written apart. The plugin evicts before it learns an access, and
`tempograph.c` learns first; the plugin has no frames, stamps indices, not frames, and sweeps
over more nodes. On pages that are their own indices, with objects of one size and with no
node out of slots, they still give the same answer to every access.
-/

namespace Tempograph.TgAgreement

open Common Tempograph.Graph LinkedList SlidingWindow Recency Runs TempoGraph TgSafe TgFrames
open TgWeights CacheSim TgPluginPaging
open CacheLru (objId toNat_objId result)
open TgPlugin (Params maxUniqueNodes tempographInit tempographGet tempographToEvict)

variable {n u idx : ℕ} {z cap : ℤ} {h lf : List ℕ} {l : List ObjId} {s s' : State}
  {c : TgPlugin.State} {p : Params} {page : Page} {x y : ObjId}

/-- A request of the plugin for a page, answered as `tempograph.c` answers. -/
def access (z : ℤ) (c : TgPlugin.State) (page : Page) : Option (TgPlugin.State × Result) :=
  (get z c (objId page)).map fun a => (a.1, result a.2)

lemma pageIdx_of_lt (hx : x.toNat < maxUnique) : TgPlugin.pageIdx x = x.toNat := by
  simp only [maxUnique] at hx
  exact Nat.mod_eq_of_lt (by simp only [maxUniqueNodes]; omega)

lemma pageIdx_objId (hp : unsignedOf page < maxUnique) :
    TgPlugin.pageIdx (objId page) = pageIdx page := by
  rw [pageIdx_of_lt (by rwa [toNat_objId]), toNat_objId, pageIdx, Nat.mod_eq_of_lt hp]

/-! ### What is learned -/

/-- The plugin has learned the history `h` as `tempograph.c` has in the state `s`. -/
structure Synced (h : List ℕ) (s : State) (p : Params) : Prop where
  graph : p.graph = s.graph
  win : p.win = s.win
  count : p.accessCount = h.length
  clock : p.globalTime = h.length
  time : ∀ i, p.mruTime i = lastAccess h i

lemma successors_eq_empty (W : ℕ) (hh : u ∉ h) : successors W h u = ∅ := by
  rw [successors, Finset.image_eq_empty, Finset.filter_eq_empty_iff]
  rintro k - ⟨-, hm⟩
  exact hh (List.mem_of_mem_take (List.mem_reverse.mp (List.mem_of_mem_take hm)))

/-- The nodes that only the plugin sweeps over have no edges. -/
lemma applyDecay_eq {g : Adj} (hg : ∀ u, maxUnique ≤ u → g.edgeCnt u = 0) :
    TgPlugin.applyDecay g = applyDecay g := by
  unfold TgPlugin.applyDecay applyDecay
  congr 1
  all_goals
    funext u
    by_cases hu : u < maxUnique
    · have hu' : u < maxUniqueNodes := by
        simp only [maxUnique, maxUniqueNodes] at *
        omega
      rw [if_pos hu, if_pos hu']
    · rw [if_neg hu, hg u (by omega)]
      split_ifs <;> rfl

lemma decayed_eq (hl : Learned defaultWindow h s) (hh : ∀ i ∈ h, i < maxUnique)
    (hy : Synced h s p) : (TgPlugin.tick p).graph = decayed s := by
  have hg : ∀ u, maxUnique ≤ u → s.graph.edgeCnt u = 0 := by
    intro u hu
    have hsub := hl.targets u
    rw [successors_eq_empty _ fun hm => absurd (hh u hm) (by omega)] at hsub
    rw [← card_targets hl.ok, Finset.subset_empty.mp hsub, Finset.card_empty]
  unfold TgPlugin.tick decayed
  rw [hl.count, hy.count, hy.graph]
  dsimp only
  split_ifs
  · exact applyDecay_eq hg
  · rfl

lemma tick_rest (p : Params) : (TgPlugin.tick p).win = p.win ∧
    (TgPlugin.tick p).mruTime = p.mruTime ∧ (TgPlugin.tick p).accessCount = p.accessCount + 1 ∧
      (TgPlugin.tick p).globalTime = p.globalTime + 1 := by
  unfold TgPlugin.tick
  dsimp only
  split_ifs <;> exact ⟨rfl, rfl, rfl, rfl⟩

/-- **One access** teaches both programs the same. -/
lemma Synced.learn {r : Result} (hl : Learned defaultWindow h s) (hh : ∀ i ∈ h, i < maxUnique)
    (hy : Synced h s p) (ha : tgAccess s page = some (s', r)) (q : Ends ObjId) :
    Synced (h ++ [pageIdx page]) s'
      { TgPlugin.learn (TgPlugin.tick p) (pageIdx page) with q := q } := by
  obtain ⟨e1, e2, -⟩ := access_learns ha
  obtain ⟨h1, h2, h3, h4⟩ := tick_rest p
  refine ⟨?_, ?_, ?_, ?_, fun i => ?_⟩
  · show addEdges (TgPlugin.tick p).graph (TgPlugin.tick p).win.items _ = _
    rw [e1, decayed_eq hl hh hy, h1, hy.win]
  · show (TgPlugin.tick p).win.slide _ = _
    rw [e2, h1, hy.win]
  · show (TgPlugin.tick p).accessCount = _
    rw [h3, hy.count, List.length_append, List.length_singleton]
  · show (TgPlugin.tick p).globalTime = _
    rw [h4, hy.clock, List.length_append, List.length_singleton]
  · show Function.update (TgPlugin.tick p).mruTime _ (TgPlugin.tick p).globalTime i = _
    rw [lastAccess_snoc, h2, h4, hy.clock, Function.update_apply, hy.time]

/-! ### The victim -/

/-- The states of both programs after the history `h`. -/
structure Agree (n : ℕ) (z cap : ℤ) (h : List ℕ) (s : State) (c : TgPlugin.State) (lf : List ℕ)
    (l : List ObjId) : Prop where
  safe : Safe n s
  rep : Rep n h s lf
  learned : Learned defaultWindow h s
  uniform : Uniform z cap c l
  synced : Synced h s c.params
  /-- The queue of objects and the list of frames hold the same indices in the same order. -/
  queue : l.map TgPlugin.pageIdx = lf.map (held s)
  /-- The objects are their own indices. -/
  objects : ∀ x ∈ l, x.toNat < maxUnique

lemma Agree.length (ha : Agree n z cap h s c lf l) : l.length = lf.length := by
  have hlen := congrArg List.length ha.queue
  rwa [List.length_map, List.length_map] at hlen

lemma Agree.object_inj (ha : Agree n z cap h s c lf l) (hx : x.toNat < maxUnique) :
    ∀ y ∈ l, TgPlugin.pageIdx y = TgPlugin.pageIdx x → y = x := by
  intro y hy e
  rw [pageIdx_of_lt (ha.objects y hy), pageIdx_of_lt hx] at e
  exact UInt64.toNat_inj.mp e

/-- To learn the access of one index does not change the score of another one. -/
lemma score_eq (hl : Learned defaultWindow h s) (hh : ∀ i ∈ h, i < maxUnique)
    (hy : Synced h s p) (hidx : idx < maxUnique) (hu : u < maxUnique) (hne : u ≠ idx)
    (hS : ∀ i, (successors defaultWindow (h ++ [idx]) i).card ≤ maxEdgesPerNode) :
    TgPlugin.scorePage (TgPlugin.tick p) u = scorePage (prepare s idx) u := by
  simp only [maxUnique] at hidx hu
  obtain ⟨h1, h2, -⟩ := hl.decayed
  obtain ⟨-, -, h3⟩ := addEdges_spec hS (by omega) s.win.items
    (fun i hi hne => mem_successors_snoc hne (hl.window.items ▸ hi)) h1
    fun i => by
      rw [h2 i]
      exact (hl.targets i).trans (successors_mono (List.prefix_append _ _) i)
  have hweight : ∀ i, adjWeight (prepare s idx).graph i u = adjWeight (decayed s) i u := by
    intro i
    show adjWeight (addEdges (decayed s) s.win.items idx) i u = _
    rw [h3 i u (by omega), if_neg fun e => hne e.1]
  unfold TgPlugin.scorePage scorePage
  rw [decayed_eq hl hh hy, (tick_rest p).1, hy.win]
  simp only [hweight]
  rfl

/-- **The searches end at the same index**, though one of them looks at the graph before and
the other after the access is learned. -/
lemma Agree.victim (ha : Agree n z cap h s c lf l) (hh : ∀ i ∈ h, i < maxUnique)
    (hidx : idx < maxUnique) (hnew : idx ∉ lf.map (held s))
    (hS : ∀ i, (successors defaultWindow (h ++ [idx]) i).card ≤ maxEdgesPerNode)
    (hy : tempographToEvict { c with params := TgPlugin.tick c.params } = some y) :
    ∃ v, evictionVictim (prepare s idx) = some v ∧ held s v = TgPlugin.pageIdx y := by
  set start : ℕ ×ₗ ℤᵒᵈ := toLex (longMax, OrderDual.toDual (-1)) with hstart
  -- what both compare, as a function of the index
  let κ : ℕ → ℕ ×ₗ ℤᵒᵈ := fun i =>
    toLex (scorePage (prepare s idx) i, OrderDual.toDual (lastAccess h i : ℤ))
  have hobj : TgPlugin.sample { c with params := TgPlugin.tick c.params } =
      l.reverse.take sampleSize := by
    have hq : (TgPlugin.tick c.params).q = c.params.q := TgPlugin.tick_q c.params
    show follow c.queue.prev sampleSize (TgPlugin.tick c.params).q.tail = _
    rw [hq, ha.uniform.rep.list.follow_prev]
  have hfra : sample (prepare s idx) = lf.reverse.take sampleSize := ha.rep.list.follow_prev _
  have hplug : (ArgMin.search (fun x => κ (TgPlugin.pageIdx x)) start
      (l.reverse.take sampleSize)).2 = some y := by
    rw [← hy, TgPlugin.toEvict_eq, hobj]
    refine congrArg Prod.snd (ArgMin.search_congr fun x hx => ?_)
    have hx := List.mem_reverse.mp (List.mem_of_mem_take hx)
    have hlt : TgPlugin.pageIdx x < maxUnique := by
      rw [pageIdx_of_lt (ha.objects x hx)]
      exact ha.objects x hx
    have hne : TgPlugin.pageIdx x ≠ idx := fun e =>
      hnew (ha.queue ▸ e ▸ List.mem_map_of_mem hx)
    show toLex (scorePage (prepare s idx) _, _) = TgPlugin.key (TgPlugin.tick c.params) _
    rw [TgPlugin.key, score_eq ha.learned hh ha.synced hidx hlt hne hS, (tick_rest _).2.1,
      ha.synced.time]
  have hframes : ArgMin.search (TgVictim.key (prepare s idx)) start (sample (prepare s idx)) =
      ArgMin.search (fun f => κ (held s f)) start (lf.reverse.take sampleSize) := by
    rw [hfra]
    refine ArgMin.search_congr fun f hf => ?_
    have hf := List.mem_reverse.mp (List.mem_of_mem_take hf)
    show toLex (_, OrderDual.toDual (s.mruTime f : ℤ)) = κ (held s f)
    rw [ha.rep.time f hf]
    rfl
  have hmap : (l.reverse.take sampleSize).map TgPlugin.pageIdx =
      (lf.reverse.take sampleSize).map (held s) := by
    rw [List.map_take, List.map_take, List.map_reverse, List.map_reverse, ha.queue]
  have hsame := ArgMin.search_map TgPlugin.pageIdx κ start (l.reverse.take sampleSize)
  rw [hmap, ArgMin.search_map (held s) κ start, hplug, ← hframes] at hsame
  obtain ⟨v, hv, he⟩ := Option.map_eq_some_iff.mp hsame
  refine ⟨v, ?_, he⟩
  have hbest := congrArg Prod.snd (TgVictim.best_eq (prepare s idx))
  rw [← hstart, hv] at hbest
  have hframe : ((sample (prepare s idx)).foldl (consider (prepare s idx))
      ⟨none, longMax, -1⟩).frame = some v := hbest
  simp only [evictionVictim, hframe, Option.isSome_some, if_true]

/-! ### One access -/

lemma access_of_get {o : Bool} {c' : TgPlugin.State}
    (hg : tempographGet c ⟨objId page, z⟩ = some (c', o)) :
    access z c page = some (c', result o) := by
  simp only [access, TgPluginPaging.get, hg, Option.map_some]

/-- The index is in a frame exactly if the object is in the cache. -/
lemma Agree.resident_iff (ha : Agree n z cap h s c lf l) (hp : unsignedOf page < maxUnique) :
    s.inFrames (pageIdx page) = true ↔ objId page ∈ l := by
  have hx : (objId page).toNat < maxUnique := by rwa [toNat_objId]
  have hmem : objId page ∈ l ↔ pageIdx page ∈ lf.map (held s) := by
    rw [← ha.queue, ← pageIdx_objId hp]
    refine ⟨List.mem_map_of_mem, fun hm => ?_⟩
    obtain ⟨y, hy, e⟩ := List.mem_map.mp hm
    exact ha.object_inj hx y hy e ▸ hy
  rw [hmem, List.mem_map]
  constructor
  · exact ha.rep.table _
  · rintro ⟨f, hf, e⟩
    rw [← e]
    exact (ha.rep.found f hf).1

lemma Agree.hit (ha : Agree n z cap h s c lf l) (hp : unsignedOf page < maxUnique)
    (hx : objId page ∈ l) : ∃ s' f, f ∈ lf ∧ tgAccess s page = some (s', .hit) ∧ Safe n s' ∧
      Rep n (h ++ [pageIdx page]) s' (touch f lf) ∧
      (touch (objId page) l).map TgPlugin.pageIdx = (touch f lf).map (held s') := by
  have hin := (ha.resident_iff hp).mpr hx
  obtain ⟨f, hf, e⟩ := ha.rep.table _ hin
  have hof := (ha.rep.found f hf).2
  rw [e] at hof
  refine ⟨hitState s f (pageIdx page), f, hf, ?_, ?_, e ▸ ha.rep.hit hf, ?_⟩
  · rw [access_eq, if_pos hin, hof]
    rfl
  · exact ha.safe.hit ((ha.rep.occupied f).mp hf).1 _
  · have hinj := ha.object_inj (show (objId page).toNat < maxUnique by rwa [toNat_objId])
    show _ = (touch f lf).map (held s)
    rw [map_touch_of_injOn hinj, map_touch_of_injOn fun g hg e => ha.rep.held_inj hg hf e,
      ha.queue, pageIdx_objId hp, e]

lemma Agree.fault (ha : Agree n z cap h s c lf l) (hn : 1 ≤ n) (hh : ∀ i ∈ h, i < maxUnique)
    (hp : unsignedOf page < maxUnique) (hx : objId page ∉ l) {l' : List ObjId}
    (hS : ∀ i, (successors defaultWindow (h ++ [pageIdx page]) i).card ≤ maxEdgesPerNode)
    (hm : Moved n (tempographToEvict { c with params := TgPlugin.tick c.params }) l (objId page)
      false l') : ∃ s' lf', tgAccess s page = some (s', .fault) ∧ Safe n s' ∧
      Rep n (h ++ [pageIdx page]) s' lf' ∧ l'.map TgPlugin.pageIdx = lf'.map (held s') := by
  have hin : s.inFrames (pageIdx page) = false := by
    rw [← Bool.not_eq_true, ha.resident_iff hp]
    exact hx
  have hne : page ≠ -1 := by
    rintro rfl
    exact absurd hp (by decide)
  have hlen := ha.length
  have hsize := ha.rep.size
  have hnd := ha.rep.list.nodup
  obtain ⟨v, hv, he, hfree, hfull⟩ := chooseVictim_spec hn (ha.safe.prepare (pageIdx page))
  refine ⟨faultState s v page, touch v lf, ?_, ha.safe.fault hv page,
    ha.rep.fault hv hfree hfull hne hin, ?_⟩
  · rw [access_eq, if_neg (by simp [hin]), he]
    rfl
  rw [map_fault hnd]
  cases hm with
  | filled _ hlt =>
    have hempty : s.frames v = -1 := hfree (by show s.size < n; omega)
    have hout : v ∉ lf := fun hm => ((ha.rep.occupied v).mp hm).2 hempty
    rw [List.map_cons, List.erase_of_not_mem hout, ha.queue, pageIdx_objId hp]
  | @replaced y _ hall hev hy =>
    have hge : (n : ℤ) ≤ s.size := by omega
    have hnew : pageIdx page ∉ lf.map (held s) := by
      intro hm
      obtain ⟨f, hf, e⟩ := List.mem_map.mp hm
      exact ha.rep.held_ne hin f hf e
    obtain ⟨v', hv', hheld⟩ := ha.victim hh (pageIdx_lt page) hnew hS hev
    have hchoose : chooseVictim (prepare s (pageIdx page)) =
        evictionVictim (prepare s (pageIdx page)) := if_neg (by
      show ¬s.size < s.cap
      rw [ha.rep.cap]
      omega)
    obtain rfl : v = v' := by
      rw [hchoose, hv'] at he
      exact (Option.some.inj he).symm
    have hvl : v ∈ lf := (ha.rep.full_iff hv hfree hfull).mp hge
    rw [List.map_cons, map_erase_of_injOn (ha.object_inj (ha.objects y hy)),
      map_erase_of_injOn fun g hg e => ha.rep.held_inj hg hvl e, ha.queue, hheld,
      pageIdx_objId hp]

/-- **One access** gets the same answer and keeps the states in agreement. -/
lemma Agree.step (hf : Fits n z cap) (hn : 1 ≤ n) (ha : Agree n z cap h s c lf l)
    (hh : ∀ i ∈ h, i < maxUnique) (hp : unsignedOf page < maxUnique)
    (hS : ∀ i, (successors defaultWindow (h ++ [pageIdx page]) i).card ≤ maxEdgesPerNode) :
    ∃ s' c' r lf' l', tgAccess s page = some (s', r) ∧ access z c page = some (c', r) ∧
      Agree n z cap (h ++ [pageIdx page]) s' c' lf' l' := by
  obtain ⟨c', o, l', hg, hu, hm, hparams⟩ := ha.uniform.get hf hn (objId page)
  have hobj : ∀ y ∈ l', y.toNat < maxUnique := by
    intro y hy
    have hor : y = objId page ∨ y ∈ l := by
      cases hm with
      | hit => exact mem_touch.mp hy
      | filled => exact List.mem_cons.mp hy
      | replaced => exact (List.mem_cons.mp hy).imp_right List.mem_of_mem_erase
    rcases hor with rfl | hy
    · rwa [toNat_objId]
    · exact ha.objects y hy
  -- from here both answers and both queues are known
  have hagree : ∀ s' r lf', tgAccess s page = some (s', r) → Safe n s' →
      Rep n (h ++ [pageIdx page]) s' lf' → l'.map TgPlugin.pageIdx = lf'.map (held s') →
      Agree n z cap (h ++ [pageIdx page]) s' c' lf' l' := by
    intro s' r lf' hacc hsafe hrep hq
    refine ⟨hsafe, hrep, learned_step hS ha.learned hacc, hu, ?_, hq, hobj⟩
    rw [hparams, pageIdx_objId hp]
    exact ha.synced.learn ha.learned hh hacc _
  by_cases hx : objId page ∈ l
  · obtain ⟨s', f, -, hacc, hsafe, hrep, hq⟩ := ha.hit hp hx
    cases hm with
    | hit => exact ⟨s', c', .hit, _, _, hacc, access_of_get hg, hagree _ _ _ hacc hsafe hrep hq⟩
    | filled hx' => exact absurd hx hx'
    | replaced hx' => exact absurd hx hx'
  · obtain rfl : o = false := by
      cases hm with
      | hit hx' => exact absurd hx' hx
      | filled => rfl
      | replaced => rfl
    obtain ⟨s', lf', hacc, hsafe, hrep, hq⟩ := ha.fault hn hh hp hx hS hm
    exact ⟨s', c', .fault, lf', l', hacc, access_of_get hg, hagree _ _ _ hacc hsafe hrep hq⟩

/-! ### Whole traces -/

lemma agree_init (s₀ : State) (hf : Fits n z cap) (hn' : n ≤ maxFrames) :
    ∃ s, tgInit s₀ n defaultWindow = some s ∧
      Agree n z cap [] s (tempographInit cap) [] [] := by
  obtain ⟨s, he, hsafe, hl⟩ :=
    @learned_init defaultWindow n s₀ hn' (by decide) (by decide)
  obtain ⟨t, ht, -, hr⟩ := rep_init s₀ hn' defaultWindow
  obtain rfl : s = t := Option.some.inj (he.symm.trans ht)
  have heq := tgInit_eq s₀ hn' (defaultWindow : ℤ)
  rw [he] at heq
  obtain rfl := Option.some.inj heq
  refine ⟨_, he, hsafe, hr, hl, (inv_init hf).uniform, ⟨rfl, rfl, rfl, rfl, fun _ => rfl⟩, rfl, ?_⟩
  simp

/-- **The plugin agrees with `tempograph.c`.** If the pages are below 4096, the objects have one
size of which `n` fit, and no index has more successors in a window than a node has slots,
both programs give the same answer to every access of the trace. -/
theorem plugin_agrees (s₀ : State) (n : ℕ) (hn : 1 ≤ n) (hn' : n ≤ maxFrames) (z cap : ℤ)
    (hf : Fits n z cap) (tr : List Page) (htr : ∀ page ∈ tr, unsignedOf page < maxUnique)
    (hS : ∀ i, (successors defaultWindow (tr.map pageIdx) i).card ≤ maxEdgesPerNode) :
    ∃ s os, tgInit s₀ n defaultWindow = some s ∧ outputs tgAccess s tr = some os ∧
      outputs (access z) (tempographInit cap) tr = some os := by
  obtain ⟨s, he, ha⟩ := agree_init s₀ hf hn'
  obtain ⟨s', c', os, h1, h2, -⟩ := @run_sim _ _ _ _ tgAccess (access z)
    (fun past s c => ∃ lf l, Agree n z cap (past.map pageIdx) s c lf l) s (tempographInit cap) tr
    ⟨[], [], ha⟩ fun past page s c hpre ⟨lf, l, ha⟩ => by
      have hp := htr page (hpre.subset (by simp))
      have hh : ∀ i ∈ past.map pageIdx, i < maxUnique := by
        intro i hi
        obtain ⟨q, -, rfl⟩ := List.mem_map.mp hi
        exact pageIdx_lt q
      have hpre' := hpre.map pageIdx
      rw [List.map_append] at hpre'
      obtain ⟨s', c', r, lf', l', h1, h2, h3⟩ := ha.step hf hn hh hp fun i =>
        (Finset.card_le_card (successors_mono hpre' i)).trans (hS i)
      refine ⟨s', c', r, h1, h2, lf', l', ?_⟩
      rwa [List.map_append]
  exact ⟨s, os, he, outputs_eq h1, outputs_eq h2⟩

/-- The theorem at two frames, objects of 100 bytes and a trace with an eviction. -/
theorem plugin_agrees_two : 1 ≤ 2 ∧ 2 ≤ maxFrames ∧ Fits 2 100 250 ∧
    (∀ page ∈ ([7, 9, 7, 11] : List Page), unsignedOf page < maxUnique) ∧
    (∀ i, (successors defaultWindow ([7, 9, 7, 11].map pageIdx) i).card ≤ maxEdgesPerNode) ∧
    ∃ s os, tgInit start 2 defaultWindow = some s ∧ outputs tgAccess s [7, 9, 7, 11] = some os ∧
      outputs (access 100) (tempographInit 250) [7, 9, 7, 11] = some os := by
  have hf : Fits 2 100 250 := ⟨by norm_num, by norm_num, by norm_num, by norm_num⟩
  have htr : ∀ page ∈ ([7, 9, 7, 11] : List Page), unsignedOf page < maxUnique := by
    simp only [List.forall_mem_cons, List.not_mem_nil, false_implies, implies_true, and_true]
    decide
  have hS : ∀ i, (successors defaultWindow ([7, 9, 7, 11].map pageIdx) i).card ≤
      maxEdgesPerNode := by
    intro i
    refine Finset.card_image_le.trans ((Finset.card_filter_le _ _).trans ?_)
    decide
  exact ⟨by decide, by decide, hf, htr, hS,
    plugin_agrees start 2 (by decide) (by decide) 100 250 hf [7, 9, 7, 11] htr hS⟩

end Tempograph.TgAgreement
