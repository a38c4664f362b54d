import Tempograph.CacheLru
import Tempograph.Competitive
import Tempograph.TgPlugin

/-!
The plugin with objects of one size is demand paging.

A cache that fits `n` of the objects holds as many. When all places are taken, a request for
another object takes out one of the last 64 of the queue, so the `n - 63` objects that were
requested last stay. That is enough to compare the plugin with every other cache.
-/

namespace Tempograph.TgPluginPaging

open Recency Runs Paging CacheSim TgPlugin
open TempoGraph (sampleSize)

variable {n : ℕ} {s cap : ℤ} {c : State} {l rest h : List ObjId} {x y : ObjId}
  {T : ObjId → Option ℕ}

/-- What a request for `x` does to the queue; `v` is the object that would be evicted. -/
inductive Moved (n : ℕ) (v : Option ObjId) (l : List ObjId) (x : ObjId) :
    Bool → List ObjId → Prop
  | hit : x ∈ l → Moved n v l x true (touch x l)
  | filled : x ∉ l → l.length < n → Moved n v l x false (x :: l)
  | replaced {y : ObjId} : x ∉ l → l.length = n → v = some y → y ∈ l →
      y ∉ l.take (n - sampleSize) → Moved n v l x false (x :: l.erase y)

/-- All objects in the cache have the size `s`. -/
structure Uniform (s cap : ℤ) (c : State) (l : List ObjId) : Prop where
  rep : Rep c l
  cap : c.cacheSize = cap
  size : ∀ x ∈ l, c.hashtable x = some s.toNat

/-! ### One request -/

lemma Uniform.length_le (hf : Fits n s cap) (hu : Uniform s cap c l) : l.length ≤ n := by
  have hpos := hf.pos
  refine hu.rep.length_le (s := s) ?_ (by omega) hu.size
  rwa [hu.rep.noMd, add_zero, hu.cap]

/-- Objects of one size: nothing goes before all places are taken, and then one object. -/
lemma culled_of_size (hf : Fits n s cap) (hT : ∀ x ∈ l, T x = some s.toNat) (hlen : l.length ≤ n)
    (hcull : Culled T cap s l rest) (hroom : bytes 0 T rest + s ≤ cap) :
    rest = l ∧ l.length < n ∨ l.length = n ∧ ∀ y ∈ l, y ∉ rest →
      rest = l.erase y ∧ y ∉ l.take (n - sampleSize) := by
  have hrest : ∀ x ∈ rest, T x = some s.toNat := fun x hx => hT x (hcull.sub.subset hx)
  have hpos := hf.pos
  rw [← add_zero s] at hf
  have hlt := hf.length_lt (by omega) hrest (by rwa [add_zero])
  rcases hcull.needed with rfl | ⟨y, hy, hnot, hfull⟩
  · exact Or.inl ⟨rfl, by omega⟩
  · have hcons : ∀ x ∈ y :: rest, T x = some s.toNat := by
      intro x hx
      rcases List.mem_cons.mp hx with rfl | hx
      · exact hT x hy
      · exact hrest x hx
    have hgt := hf.le_length (by omega) hcons (by rwa [add_zero])
    rw [List.length_cons] at hgt
    have hne : rest.length ≠ l.length := fun e => hnot (hcull.sub.eq_of_length e ▸ hy)
    have hle := hcull.sub.length_le
    refine Or.inr ⟨by omega, fun y hy hnot => ⟨?_, fun hm => ?_⟩⟩
    · have hsub := hcull.sub.erase y
      rw [List.erase_of_not_mem hnot] at hsub
      refine hsub.eq_of_length ?_
      rw [List.length_erase_of_mem hy]
      omega
    · refine hnot (hcull.spared.subset ?_)
      rwa [show rest.length - (sampleSize - 1) = n - sampleSize by
        simp only [sampleSize]
        omega]

/-- **A request** for an object of the one size. -/
lemma Uniform.get (hf : Fits n s cap) (hn : 1 ≤ n) (hu : Uniform s cap c l) (x : ObjId) :
    ∃ c' o l', tempographGet c ⟨x, s⟩ = some (c', o) ∧ Uniform s cap c' l' ∧
      Moved n (tempographToEvict { c with params := tick c.params }) l x o l' ∧
      c'.params = { learn (tick c.params) (pageIdx x) with q := c'.params.q } := by
  by_cases hx : x ∈ l
  · obtain ⟨k, d, hg, hr⟩ := @Rep.hit c ⟨x, s⟩ l hu.rep hx
    refine ⟨_, true, _, hg, ⟨hr, hu.cap, fun y hy => hu.size y ?_⟩, .hit hx, rfl⟩
    rcases mem_touch.mp hy with rfl | hy
    · exact hx
    · exact hy
  · have hpos := hf.pos
    have hone : s ≤ c.cacheSize := hu.cap ▸ hf.one_le hn
    obtain ⟨c', rest, hg, hr, hcull, hroom, htab, hcap, hpar, hfirst⟩ :=
      @Rep.loaded c ⟨x, s⟩ l hu.rep hx (by show 0 ≤ s; omega) hone
    rw [hu.cap] at hcull hroom
    have hu' : Uniform s cap c' (x :: rest) := by
      refine ⟨hr, hcap.trans hu.cap, fun y hy => ?_⟩
      rw [htab]
      by_cases hyx : y = x
      · simp [hyx, storedSize_eq (show 0 ≤ s by omega) hf.lt]
      · have hm : y ∈ rest := (List.mem_cons.mp hy).resolve_left hyx
        simp only [hyx, if_false, hm, if_true]
        exact hu.size y (hcull.sub.subset hm)
    refine ⟨c', false, x :: rest, hg, hu', ?_, hpar⟩
    rcases culled_of_size hf hu.size (hu.length_le hf) hcull hroom with ⟨rfl, hlt⟩ | ⟨hfull, hone⟩
    · exact .filled hx hlt
    · obtain ⟨y, hy, hev, hnot⟩ := hfirst.resolve_left fun e => by
        obtain ⟨y, hy⟩ := List.exists_mem_of_length_pos (show 0 < l.length by omega)
        have := hr.list.nodup
        subst e
        have hlen := hu'.length_le hf
        simp only [List.length_cons] at hlen
        omega
      obtain ⟨rfl, hback⟩ := hone y hy hnot
      exact .replaced hx hfull hev hy hback

/-! ### The queue after a history -/

variable {v : Option ObjId} {o : Bool} {l' : List ObjId}

lemma Moved.order (hm : Moved n v l x o l') (ho : l.Sublist (recency h)) :
    l'.Sublist (recency (h ++ [x])) := by
  rw [recency_snoc]
  cases hm with
  | hit => exact sublist_touch ho
  | filled hx =>
    rw [← touch_of_not_mem hx]
    exact sublist_touch ho
  | @replaced y hx =>
    have hx' : x ∉ l.erase y := fun hm => hx (List.mem_of_mem_erase hm)
    rw [← touch_of_not_mem hx']
    exact sublist_touch (List.erase_sublist.trans ho)

/-- The objects requested last stay in the cache. -/
lemma Moved.recent (hm : Moved n v l x o l') (ho : l.Sublist (recency h))
    (hr : ∀ q ∈ (recency h).take (n - (sampleSize - 1)), q ∈ l) :
    ∀ q ∈ (recency (h ++ [x])).take (n - (sampleSize - 1)), q ∈ l' := by
  intro q hq
  rw [recency_snoc] at hq
  cases hm with
  | hit => exact mem_touch.mpr ((mem_take_touch hq).imp_right (hr q))
  | filled => exact List.mem_cons.mpr ((mem_take_touch hq).imp_right (hr q))
  | @replaced y hx hfull hv hy hback =>
    refine List.mem_cons.mpr ((mem_take_touch hq).imp_right fun hq' => ?_)
    refine (List.mem_erase_of_ne ?_).mpr (hr q hq')
    rintro rfl
    -- the first places and the victim keep their order behind the new object
    have hsplit : (l.take (n - sampleSize) ++ [q]).Sublist l := by
      have hdrop : q ∈ l.drop (n - sampleSize) := by
        rw [← List.take_append_drop (n - sampleSize) l, List.mem_append] at hy
        exact hy.resolve_left hback
      have happ := (List.Sublist.refl (l.take (n - sampleSize))).append
        (List.singleton_sublist.mpr hdrop)
      rwa [List.take_append_drop] at happ
    have hsub : (x :: l.take (n - sampleSize) ++ [q]).Sublist (touch x (recency h)) := by
      have herase := (hsplit.trans ho).erase x
      rw [List.erase_of_not_mem fun hm => hx (hsplit.subset hm)] at herase
      exact herase.cons_cons x
    refine not_mem_take_of_sublist hsub (nodup_touch (nodup_recency h)) ?_ hq
    rw [List.length_cons, List.length_take]
    simp only [sampleSize] at *
    omega

/-- A request is demand paging. -/
lemma Moved.served (hm : Moved n v l x o l') (hn : 1 ≤ n) :
    Served n l.toFinset x o l'.toFinset := by
  cases hm with
  | hit hx =>
    rw [toFinset_touch hx]
    exact .hit (List.mem_toFinset.mpr hx)
  | filled hx hlt =>
    refine .fault (by simpa using hx) (by simp) (by simp) ?_
    exact (List.toFinset_card_le _).trans hlt
  | @replaced y hx hfull _ hy =>
    refine .fault (by simpa using hx) (by simp) (fun z hz => ?_) ?_
    · rw [List.mem_toFinset, List.mem_cons] at hz
      rw [Finset.mem_insert, List.mem_toFinset]
      exact hz.imp_right List.mem_of_mem_erase
    · refine (List.toFinset_card_le _).trans ?_
      rw [List.length_cons, List.length_erase_of_mem hy]
      omega

/-- The queue and the cache after the history `h`. -/
structure Inv (n : ℕ) (s cap : ℤ) (h : List ObjId) (c : State) (l : List ObjId) : Prop where
  uniform : Uniform s cap c l
  order : l.Sublist (recency h)
  recent : ∀ q ∈ (recency h).take (n - (sampleSize - 1)), q ∈ l

/-! ### Whole traces -/

def get (s : ℤ) (c : State) (x : ObjId) : Option (State × Bool) := tempographGet c ⟨x, s⟩

lemma inv_init (hf : Fits n s cap) : Inv n s cap [] (tempographInit cap) [] :=
  ⟨⟨rep_init hf.nonneg, rfl, by simp⟩, List.Sublist.refl _, by simp⟩

lemma Inv.step (hf : Fits n s cap) (hn : 1 ≤ n) (hi : Inv n s cap h c l) (x : ObjId) :
    ∃ c' o l', get s c x = some (c', o) ∧ Inv n s cap (h ++ [x]) c' l' ∧
      Served n l.toFinset x o l'.toFinset := by
  obtain ⟨c', o, l', hg, hu, hm, -⟩ := hi.uniform.get hf hn x
  exact ⟨c', o, l', hg, ⟨hu, hm.order hi.order, hm.recent hi.order hi.recent⟩,
    hm.served hn⟩

/-- The objects requested last are in the cache after every trace. -/
lemma plugin_keeps (hf : Fits n s cap) (hn : 1 ≤ n) (past : List ObjId) :
    ∃ c os, run (get s) (tempographInit cap) past = some (c, os) ∧
      ∀ q ∈ (recency past).take (n - 63), c.hashtable q ≠ none := by
  obtain ⟨c, os, hrun, l, hi⟩ := @run_inv _ _ _ (get s) (fun past c => ∃ l, Inv n s cap past c l)
    (tempographInit cap) past ⟨[], inv_init hf⟩ fun past x c _ ⟨l, hi⟩ => by
      obtain ⟨c', o, l', hg, hi', -⟩ := hi.step hf hn x
      exact ⟨c', o, hg, l', hi'⟩
  exact ⟨c, os, hrun, fun q hq => (hi.uniform.rep.resident q).mp (hi.recent q hq)⟩

/-- Every request is served, and an object requested among the last `n - 63` is there. -/
lemma plugin_run (hf : Fits n s cap) (hn : 1 ≤ n) (tr : List ObjId) :
    ∃ os D, outputs (get s) (tempographInit cap) tr = some os ∧ Serves n ∅ tr os D ∧
      os.count false ≤ lruFaults (n - 63) tr := by
  obtain ⟨c, os, hrun, ⟨l, -, os', hrun', hserves⟩, hfault⟩ := @run_spec _ _ _ (get s)
    (fun past c => ∃ l, Inv n s cap past c l ∧ ∃ os,
      run (get s) (tempographInit cap) past = some (c, os) ∧ Serves n ∅ past os l.toFinset)
    (fun past x o => o = false → x ∉ (recency past).take (n - 63)) (tempographInit cap) tr
    ⟨[], inv_init hf, [], rfl, .nil ∅⟩ fun past x c _ ⟨l, hi, os, hrun, hserves⟩ => by
      obtain ⟨c', o, l', hg, hi', hserved⟩ := hi.step hf hn x
      refine ⟨c', o, hg, ⟨l', hi', os ++ [o], run_snoc hrun hg, hserves.snoc hserved⟩, ?_⟩
      rintro rfl hm
      have hheld := List.mem_toFinset.mpr (hi.recent x hm)
      exact Bool.false_ne_true (hserved.hit_iff.mpr hheld)
  obtain rfl : os = os' := by
    rw [hrun] at hrun'
    exact congrArg Prod.snd (Option.some.inj hrun')
  exact ⟨os, _, outputs_eq hrun, hserves, count_false_le_lruFaults (run_length hrun) hfault⟩

/-- **The plugin is competitive.** With objects of one size, of which `n` fit, it is demand
paging on every trace, and after every request the `n - 63` objects requested last are in the
cache. So it has no more faults than they alone would have, and at most
`(n - 63) / (n - 62 - k)` times the faults of a cache of `k ≤ n - 63` such objects, however
that one is run. -/
theorem plugin_rivals (n : ℕ) (s cap : ℤ) (hf : Fits n s cap) (hn : 1 ≤ n) (tr : List ObjId) :
    ∃ os D, outputs (get s) (tempographInit cap) tr = some os ∧ Serves n ∅ tr os D ∧
      (∀ past, past <+: tr → ∃ c us, run (get s) (tempographInit cap) past = some (c, us) ∧
        ∀ q ∈ (recency past).take (n - 63), c.hashtable q ≠ none) ∧
      os.count false ≤ lruFaults (n - 63) tr ∧
      ∀ k bs E, 1 ≤ k → k ≤ n - 63 → Serves k ∅ tr bs E →
        (n - 62 - k) * os.count false ≤ (n - 63) * bs.count false := by
  obtain ⟨os, D, hout, hserves, hle⟩ := plugin_run hf hn tr
  refine ⟨os, D, hout, hserves, fun past _ => plugin_keeps hf hn past, hle,
    fun k bs E h1 hk hs => ?_⟩
  have hlru := lru_competitive h1 hk hs
  calc (n - 62 - k) * os.count false
      ≤ (n - 63 + 1 - k) * lruFaults (n - 63) tr := Nat.mul_le_mul (by omega) hle
    _ ≤ (n - 63) * bs.count false := hlru

/-- The theorem at 64 objects of 100 bytes and a trace of three requests. -/
theorem plugin_rivals_three : Fits 64 100 6450 ∧ 1 ≤ 64 ∧
    ∃ os, ∃ D : Finset ObjId, outputs (get 100) (tempographInit 6450) [3, 5, 3] = some os ∧
      Serves 64 ∅ [3, 5, 3] os D ∧ ∀ bs, ∀ E : Finset ObjId, Serves 1 ∅ [3, 5, 3] bs E →
        os.count false ≤ bs.count false := by
  have hf : Fits 64 100 6450 := ⟨by norm_num, by norm_num, by norm_num, by norm_num⟩
  obtain ⟨os, D, h1, h2, -, -, h3⟩ := plugin_rivals 64 100 6450 hf (by decide) [3, 5, 3]
  exact ⟨hf, by decide, os, D, h1, h2, fun bs E hs => by simpa using h3 1 bs E le_rfl le_rfl hs⟩

/-- **The plugin against libCacheSim's LRU.** With objects of one size it has no more faults
than LRU in a cache for 63 objects fewer, whether LRU counts metadata or not. -/
theorem plugin_versus_lru (n m : ℕ) (b : Bool) (s cap cap' : ℤ) (hf : Fits n s cap)
    (hf' : Fits m (s + CacheLru.mdSize b) cap') (hm : 1 ≤ m) (hmn : m + 63 ≤ n)
    (tr : List ObjId) :
    ∃ os os', outputs (get s) (tempographInit cap) tr = some os ∧
      outputs (CacheLru.get s) (CacheLru.lruInit b cap') tr = some os' ∧
      os.count false ≤ os'.count false := by
  have hpos := hf.pos
  obtain ⟨os, -, hout, -, hle⟩ := plugin_run hf (by omega) tr
  refine ⟨os, lruHits m tr, hout, CacheLru.lru_run hf' (by omega) hm tr, hle.trans ?_⟩
  exact lruFaults_anti (by omega) tr

/-- The theorem at 64 objects of 100 bytes against one with metadata, and a trace of three
requests. -/
theorem plugin_versus_lru_three : Fits 64 100 6450 ∧ Fits 1 (100 + CacheLru.mdSize true) 150 ∧
    1 ≤ 1 ∧ 1 + 63 ≤ 64 ∧
    ∃ os os', outputs (get 100) (tempographInit 6450) [3, 5, 3] = some os ∧
      outputs (CacheLru.get 100) (CacheLru.lruInit true 150) [3, 5, 3] = some os' ∧
      os.count false ≤ os'.count false := by
  have hf : Fits 64 100 6450 := ⟨by norm_num, by norm_num, by norm_num, by norm_num⟩
  have hf' : Fits 1 (100 + CacheLru.mdSize true) 150 :=
    ⟨by decide, by decide, by decide, by decide⟩
  exact ⟨hf, hf', le_rfl, by decide,
    plugin_versus_lru 64 1 true 100 6450 150 hf hf' le_rfl (by decide) [3, 5, 3]⟩

end Tempograph.TgPluginPaging
