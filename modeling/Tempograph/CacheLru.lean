import Tempograph.CacheSim
import Tempograph.LruExact
import Tempograph.Paging

/-!
LRU as libCacheSim has it (`LRU.c`).

Objects of any sizes are kept in the order of their last requests, and room is made at the
end of the queue. With objects of one size this is the cache of the most recent ones. Whether
the two links of an object count as bytes of it is an option.
-/

namespace Tempograph.CacheLru

open Common LinkedList Recency Runs Paging CacheObj CacheSim

abbrev State := Cache (Ends ObjId)

def withQueue (c : State) (q : Links ObjId × Ends ObjId) : State :=
  { c with queue := q.1, params := q.2 }

def lruFind (c : State) (req : Request) : Option (State × Bool) :=
  if (cacheFindBase c req).isSome then
    (moveObjToHead c.queue c.params req.objId).map fun q => (withQueue c q, true)
  else some (c, false)

def lruInsert (c : State) (req : Request) : Option State :=
  (cacheInsertBase c req).map fun c =>
    withQueue c (prependObjToHead c.queue c.params req.objId)

/-- The queue without its tail `x`, as `LRU_evict` takes it off by hand. -/
def dropTail (k : Links ObjId) (d : Ends ObjId) (x : ObjId) : Links ObjId × Ends ObjId :=
  match k.prev x with
  | some t => ({ k with next := Function.update k.next t none }, { d with tail := some t })
  | none => (k, { head := none, tail := none })

/-- No result if the queue is empty. -/
def lruEvict (c : State) (_ : Request) : Option State :=
  match c.params.tail with
  | none => none
  | some obj_to_evict =>
    cacheEvictBase (withQueue c (dropTail c.queue c.params obj_to_evict)) obj_to_evict

def lruGet (c : State) (req : Request) : Option (State × Bool) :=
  cacheGetBase lruFind lruEvict lruInsert c req

/-- The bytes of metadata that each object takes. -/
def mdSize (consider_obj_metadata : Bool) : ℤ := if consider_obj_metadata then 8 * 2 else 0

def lruInit (consider_obj_metadata : Bool) (cache_size : ℤ) : State :=
  { cacheStructInit cache_size Ends.empty with objMdSize := mdSize consider_obj_metadata }

lemma mdSize_nonneg (b : Bool) : 0 ≤ mdSize b := by cases b <;> decide

variable {c : State} {req : Request} {l rest h : List ObjId} {x : ObjId} {k : Links ObjId}
  {d : Ends ObjId} {n : ℕ} {s m cap : ℤ} {b : Bool}

/-! ### The queue -/

lemma dropTail_spec (hl : IsList k d (l ++ [x])) :
    IsList (dropTail k d x).1 (dropTail k d x).2 l := by
  have hnd := (List.nodup_append.mp hl.nodup).1
  have hprev := (hl.links l x [] rfl).1
  unfold dropTail
  rw [hprev]
  cases l using List.reverseRecOn with
  | nil => exact isList_nil k
  | append_singleton a t =>
    rw [List.getLast?_concat]
    refine ⟨?_, by simp, hnd, fun b y r e => ?_⟩
    · rw [hl.head]
      cases a <;> simp
    · obtain ⟨hp, hn⟩ := hl.links b y (r ++ [x]) (by rw [e]; simp)
      refine ⟨hp, ?_⟩
      simp only [Function.update_apply]
      rcases List.eq_nil_or_concat' r with rfl | ⟨r, z, rfl⟩
      · have hyt : t = y := by
          have hlast := congrArg List.getLast? e
          simpa using hlast
        simp [hyt]
      · have hne : y ≠ t := by
          rintro rfl
          have hlast := congrArg List.getLast? e
          have hzt : y = z := by simpa [List.getLast?_append, List.getLast?_cons] using hlast
          rw [e, hzt] at hnd
          simp [List.nodup_append] at hnd
        rw [if_neg hne, hn]
        cases r <;> simp

lemma evict_spec (hk : Kept c c.params (l ++ [x])) (req : Request) :
    ∃ c', lruEvict c req = some c' ∧ Kept c' c'.params l ∧ c'.cacheSize = c.cacheSize ∧
      c'.objMdSize = c.objMdSize ∧ c'.hashtable = Function.update c.hashtable x none := by
  have htail : c.params.tail = some x := by rw [hk.list.tail]; simp
  have hnot : x ∉ l := fun hm => (List.nodup_append.mp hk.list.nodup).2.2 x hm x (by simp) rfl
  have herase : (l ++ [x]).erase x = l := by
    rw [List.erase_append_right _ hnot]
    simp
  have hl := dropTail_spec hk.list
  have hrem := hk.removeObjBase (show x ∈ l ++ [x] by simp) (dropTail c.queue c.params x).1
    (dropTail c.queue c.params x).2
  have hkept := hk.without (show x ∈ l ++ [x] by simp) (dropTail c.queue c.params x).2
    (herase.symm ▸ hl)
  rw [herase] at hkept
  refine ⟨_, ?_, hkept, rfl, rfl, rfl⟩
  simp only [lruEvict, htail, cacheEvictBase]
  exact hrem

/-! ### One request -/

/-- The objects that stay when room is made for one of some size, each with `m` bytes more. -/
structure Shortened (m : ℤ) (T : ObjId → Option ℕ) (cap size : ℤ) (l rest : List ObjId) :
    Prop where
  keeps : rest <+: l
  room : bytes m T rest + size + m ≤ cap
  needed : rest = l ∨ ∃ y, rest ++ [y] <+: l ∧ cap < bytes m T (rest ++ [y]) + size + m

lemma makeRoom_kept (hk : Kept c c.params l) (hcan : req.objSize + c.objMdSize ≤ c.cacheSize) :
    ∃ c' rest, makeRoom lruEvict (c.nObj.toNat + 1) c req = some c' ∧ Kept c' c'.params rest ∧
      c'.cacheSize = c.cacheSize ∧ c'.objMdSize = c.objMdSize ∧
      (∀ x ∈ rest, c'.hashtable x = c.hashtable x) ∧
      Shortened c.objMdSize c.hashtable c.cacheSize req.objSize l rest := by
  obtain ⟨c', hm, ⟨rest, hkept, hcap, hmd, htab, hpre, hneed⟩, hroom⟩ :=
    @makeRoom_spec _ c req _ lruEvict
    (fun c' => ∃ rest, Kept c' c'.params rest ∧ c'.cacheSize = c.cacheSize ∧
      c'.objMdSize = c.objMdSize ∧ (∀ x ∈ rest, c'.hashtable x = c.hashtable x) ∧ rest <+: l ∧
      (rest = l ∨ ∃ y, rest ++ [y] <+: l ∧
        c.cacheSize < bytes c.objMdSize c.hashtable (rest ++ [y]) + req.objSize + c.objMdSize))
    ⟨l, hk, rfl, rfl, fun _ _ => rfl, List.prefix_refl l, Or.inl rfl⟩ (Nat.lt_succ_self _)
    fun c₁ ⟨rest, hkept, hcap, hmd, htab, hpre, _⟩ hfull => by
      rw [hkept.occupied, hcap, hmd, bytes_congr htab] at hfull
      rcases List.eq_nil_or_concat' rest with rfl | ⟨rest, y, rfl⟩
      · rw [bytes_nil] at hfull
        omega
      · obtain ⟨c₂, he, hkept', hcap', hmd', htab'⟩ := evict_spec hkept req
        have hnd := hkept.list.nodup
        refine ⟨c₂, he, ⟨rest, hkept', hcap'.trans hcap, hmd'.trans hmd, fun x hx => ?_,
          (List.prefix_append _ _).trans hpre, Or.inr ⟨y, hpre, hfull⟩⟩, ?_⟩
        · have hne : x ≠ y := fun e =>
            (List.nodup_append.mp hnd).2.2 x hx y (by simp) e
          rw [htab', Function.update_of_ne hne]
          exact htab x (List.mem_append_left _ hx)
        · rw [hkept'.nObj, hkept.nObj, List.length_append, List.length_singleton]
          omega
  refine ⟨c', rest, hm, hkept, hcap, hmd, htab, hpre, ?_, hneed⟩
  rwa [hkept.occupied, hcap, hmd, bytes_congr htab] at hroom

lemma get_hit (hk : Kept c c.params l) (hx : req.objId ∈ l) :
    ∃ c', lruGet c req = some (c', true) ∧ Kept c' c'.params (touch req.objId l) ∧
      c'.cacheSize = c.cacheSize ∧ c'.objMdSize = c.objMdSize ∧ c'.hashtable = c.hashtable := by
  obtain ⟨k, d, hm, hl⟩ := moveObjToHead_spec hk.list hx
  have hfind := hk.present hx
  refine ⟨withQueue c (k, d), ?_, hk.touch hx d hl, rfl, rfl, rfl⟩
  simp [lruGet, cacheGetBase, lruFind, cacheFindBase, hfind, hm]

/-- A request whose object can be taken into a cache with `m` bytes of metadata. -/
structure Loadable (cap m : ℤ) (req : Request) : Prop where
  nonneg : 0 ≤ req.objSize
  lt : storedSize req.objSize + m < 2 ^ 32
  le : req.objSize + m ≤ cap

lemma get_loaded (hk : Kept c c.params l) (hx : req.objId ∉ l)
    (hload : Loadable c.cacheSize c.objMdSize req) :
    ∃ c' rest, lruGet c req = some (c', false) ∧ Kept c' c'.params (req.objId :: rest) ∧
      c'.cacheSize = c.cacheSize ∧ c'.objMdSize = c.objMdSize ∧
      c'.hashtable req.objId = some (storedSize req.objSize) ∧
      (∀ x ∈ rest, c'.hashtable x = c.hashtable x) ∧
      Shortened c.objMdSize c.hashtable c.cacheSize req.objSize l rest := by
  have hfit := hload.le
  have hfind : lruFind c req = some (c, false) := by simp [lruFind, cacheFindBase, hk.absent hx]
  have hcan : cacheCanInsertDefault c req = true := if_neg (by omega)
  obtain ⟨c₁, rest, hm, hkept, hcap, hmd, htab, hshort⟩ := makeRoom_kept hk hfit
  have hnew : req.objId ∉ rest := fun hm => hx (hshort.keeps.subset hm)
  have hroom : c₁.occupiedByte + req.objSize + c₁.objMdSize ≤ c₁.cacheSize := by
    rw [hkept.occupied, hmd, bytes_congr htab, hcap]
    exact hshort.room
  have hins : lruInsert c₁ req = some (withObj c₁ (prependObjToHead c₁.queue c₁.params req.objId).1
      (prependObjToHead c₁.queue c₁.params req.objId).2 req) := by
    simp only [lruInsert, hkept.insertBase hnew]
    rfl
  refine ⟨_, rest, ?_, hkept.withObj hnew hload.nonneg (hmd ▸ hload.lt) hroom _
    (prependObjToHead_spec hkept.list hnew), hcap, hmd, Function.update_self _ _ _,
    fun y hy => ?_, hshort⟩
  · simp only [lruGet, cacheGetBase, hfind, hcan, hm, hins, not_true_eq_false, Bool.false_eq_true,
      if_false, Option.map_some]
    rfl
  · have hne : y ≠ req.objId := by
      rintro rfl
      exact hnew hy
    show Function.update c₁.hashtable _ _ y = _
    rw [Function.update_of_ne hne, htab y hy]

/-! ### Whole traces -/

lemma touch_prefix {r : List ObjId} (x : ObjId) (hl : l <+: r) : touch x l <+: touch x r := by
  obtain ⟨t, rfl⟩ := hl
  refine (List.prefix_cons_inj x).mpr ?_
  by_cases hx : x ∈ l
  · rw [List.erase_append_left _ hx]
    exact List.prefix_append _ _
  · rw [List.erase_append_right _ hx, List.erase_of_not_mem hx]
    exact List.prefix_append _ _

/-- What a request does to the queue, and its answer. -/
inductive Got (m : ℤ) (T : ObjId → Option ℕ) (cap : ℤ) (l : List ObjId) (req : Request) :
    Bool → List ObjId → Prop
  | hit : req.objId ∈ l → Got m T cap l req true (touch req.objId l)
  | loaded {rest : List ObjId} : req.objId ∉ l → Shortened m T cap req.objSize l rest →
      Got m T cap l req false (req.objId :: rest)

/-- **A request** for an object that is not larger than the cache. -/
lemma get_spec (hk : Kept c c.params l) (hload : Loadable c.cacheSize c.objMdSize req)
    (ho : l <+: recency h) : ∃ c' o l', lruGet c req = some (c', o) ∧ Kept c' c'.params l' ∧
      c'.cacheSize = c.cacheSize ∧ c'.objMdSize = c.objMdSize ∧
      l' <+: recency (h ++ [req.objId]) ∧ Got c.objMdSize c.hashtable c.cacheSize l req o l' := by
  have htouch := touch_prefix req.objId ho
  rw [recency_snoc]
  by_cases hx : req.objId ∈ l
  · obtain ⟨c', hg, hk', hcap', hmd', -⟩ := get_hit hk hx
    exact ⟨c', true, _, hg, hk', hcap', hmd', htouch, .hit hx⟩
  · obtain ⟨c', rest, hg, hk', hcap', hmd', -, -, hr⟩ := get_loaded hk hx hload
    rw [touch_of_not_mem hx] at htouch
    exact ⟨c', false, _, hg, hk', hcap', hmd',
      ((List.prefix_cons_inj _).mpr hr.keeps).trans htouch, .loaded hx hr⟩

/-- **The order of the queue.** On every trace of objects that with their metadata are not
larger than the cache, every request returns, and the cache holds objects that come first in
the order of their last requests. A request hits exactly if its object is among them; else the
object is loaded, and no more objects leave at the end of the queue than have to. -/
theorem lru_order (b : Bool) (cap : ℤ) (hcap : 0 ≤ cap) (past : List Request) (req : Request)
    (hs : ∀ req' ∈ past ++ [req], Loadable cap (mdSize b) req') :
    ∃ c os c' o l l', run lruGet (lruInit b cap) past = some (c, os) ∧
      run lruGet (lruInit b cap) (past ++ [req]) = some (c', os ++ [o]) ∧
      Kept c c.params l ∧ l <+: recency (past.map Request.objId) ∧ Kept c' c'.params l' ∧
      Got (mdSize b) c.hashtable cap l req o l' := by
  obtain ⟨c, os, hrun, hc, hm, l, hk, ho⟩ := @run_inv _ _ _ lruGet
    (fun past c => c.cacheSize = cap ∧ c.objMdSize = mdSize b ∧ ∃ l, Kept c c.params l ∧
      l <+: recency (past.map Request.objId)) (lruInit b cap) past
    ⟨rfl, rfl, [], kept_init hcap (mdSize_nonneg b) _, List.nil_prefix⟩
    fun past' req' c hp ⟨hc, hm, l, hk, ho⟩ => by
      have hload := hs req' (List.mem_append_left _ (hp.subset (by simp)))
      obtain ⟨c', o, l', hg, hk', hcap', hmd', ho', -⟩ := get_spec hk (by rwa [hc, hm]) ho
      exact ⟨c', o, hg, hcap'.trans hc, hmd'.trans hm, l', hk', by rwa [List.map_append]⟩
  have hload := hs req (by simp)
  obtain ⟨c', o, l', hg, hk', -, -, -, hgot⟩ := get_spec hk (by rwa [hc, hm]) ho
  exact ⟨c, os, c', o, l, l', hrun, run_snoc hrun hg, hk, ho, hk', by rwa [hc, hm] at hgot⟩

/-- The theorem at a cache of 60 bytes, where an object of five bytes and 16 of metadata needs
one of six. -/
theorem lru_order_sixty : 0 ≤ (60 : ℤ) ∧
    (∀ req' ∈ [(⟨1, 6⟩ : Request), ⟨2, 4⟩] ++ [⟨3, 5⟩], Loadable 60 (mdSize true) req') ∧
    ∃ c os c' o l l', run lruGet (lruInit true 60) [⟨1, 6⟩, ⟨2, 4⟩] = some (c, os) ∧
      run lruGet (lruInit true 60) [⟨1, 6⟩, ⟨2, 4⟩, ⟨3, 5⟩] = some (c', os ++ [o]) ∧
      l <+: recency [1, 2] ∧ Kept c' c'.params l' ∧ Got 16 c.hashtable 60 l ⟨3, 5⟩ o l' := by
  have hs : ∀ req' ∈ [(⟨1, 6⟩ : Request), ⟨2, 4⟩] ++ [⟨3, 5⟩],
      Loadable 60 (mdSize true) req' := by
    intro req' hm
    simp only [List.cons_append, List.nil_append, List.mem_cons, List.not_mem_nil, or_false] at hm
    rcases hm with rfl | rfl | rfl <;> exact ⟨by decide, by decide, by decide⟩
  obtain ⟨c, os, c', o, l, l', h1, h2, -, h3, h4, h5⟩ := lru_order true 60 (by norm_num)
    [⟨1, 6⟩, ⟨2, 4⟩] ⟨3, 5⟩ hs
  exact ⟨by norm_num, hs, c, os, c', o, l, l', h1, h2, h3, h4, h5⟩

/-! ### Objects of one size -/

/-- All objects in the cache have the size `s`, and `m` bytes of metadata. -/
structure OneSize (s m cap : ℤ) (c : State) (l : List ObjId) : Prop where
  kept : Kept c c.params l
  cap : c.cacheSize = cap
  md : c.objMdSize = m
  size : ∀ x ∈ l, c.hashtable x = some s.toNat

/-- A request for an object of the one size. -/
def get (s : ℤ) (c : State) (x : ObjId) : Option (State × Bool) := lruGet c ⟨x, s⟩

lemma onesize_init (hf : Fits n (s + mdSize b) cap) : OneSize s (mdSize b) cap (lruInit b cap) [] :=
  ⟨kept_init hf.nonneg (mdSize_nonneg b) _, rfl, rfl, by simp⟩

lemma OneSize.length_le (hf : Fits n (s + m) cap) (hs : 0 ≤ s) (ho : OneSize s m cap c l) :
    l.length ≤ n :=
  ho.kept.length_le (ho.cap ▸ ho.md ▸ hf) hs ho.size

/-- With objects of one size, what is kept is all or one less than fit. -/
lemma Shortened.eq_take {T : ObjId → Option ℕ} (hf : Fits n (s + m) cap) (hs : 0 ≤ s) (hx : x ∉ l)
    (hT : ∀ x ∈ l, T x = some s.toNat) (hr : Shortened m T cap s l rest) :
    x :: rest = (touch x l).take n := by
  have hlt := hf.length_lt hs (fun y hy => hT y (hr.keeps.subset hy)) hr.room
  rw [touch_of_not_mem hx]
  rcases hr.needed with rfl | ⟨y, hpre, hfull⟩
  · rw [List.take_of_length_le (by simpa using hlt)]
  · have hge := hf.le_length hs (fun z hz => hT z (hpre.subset hz)) hfull
    rw [List.length_append, List.length_singleton] at hge
    have hn : n = rest.length + 1 := by omega
    rw [hn, List.take_succ_cons, ← List.prefix_iff_eq_take.mp hr.keeps]

lemma OneSize.get (hf : Fits n (s + m) cap) (hs : 0 ≤ s) (hn : 1 ≤ n) (ho : OneSize s m cap c l)
    (x : ObjId) :
    ∃ c', get s c x = some (c', decide (x ∈ l)) ∧ OneSize s m cap c' ((touch x l).take n) := by
  by_cases hx : x ∈ l
  · obtain ⟨c', hg, hk, hcap, hmd, htab⟩ := @get_hit c ⟨x, s⟩ l ho.kept hx
    have hlen := ho.length_le hf hs
    rw [List.take_of_length_le (by rwa [length_touch_of_mem hx])]
    refine ⟨c', by rw [CacheLru.get, hg, decide_eq_true hx], hk, hcap.trans ho.cap,
      hmd.trans ho.md, fun y hy => ?_⟩
    rw [htab]
    exact ho.size y ((mem_touch_of_mem hx).mp hy)
  · have hm : 0 ≤ m := ho.md ▸ ho.kept.md
    have hlt := hf.lt
    have hstored : storedSize s = s.toNat := storedSize_eq hs (by omega)
    have hload : Loadable c.cacheSize c.objMdSize ⟨x, s⟩ := by
      rw [ho.cap, ho.md]
      refine ⟨hs, ?_, hf.one_le hn⟩
      rwa [hstored, Int.toNat_of_nonneg hs]
    obtain ⟨c', rest, hg, hk, hcap, hmd, hnew, htab, hr⟩ := @get_loaded c ⟨x, s⟩ l ho.kept hx hload
    rw [ho.cap, ho.md] at hr
    rw [← hr.eq_take hf hs hx ho.size]
    refine ⟨c', by rw [CacheLru.get, hg, decide_eq_false hx], hk, hcap.trans ho.cap,
      hmd.trans ho.md, fun y hy => ?_⟩
    rcases List.mem_cons.mp hy with rfl | hy
    · rw [← hstored]
      exact hnew
    · rw [htab y hy]
      exact ho.size y (hr.keeps.subset hy)

/-- The hits of libCacheSim's LRU on objects of one size. -/
lemma lru_run (hf : Fits n (s + mdSize b) cap) (hs : 0 ≤ s) (hn : 1 ≤ n) (tr : List ObjId) :
    outputs (get s) (lruInit b cap) tr = some (lruHits n tr) := by
  obtain ⟨c, l, os, h1, h2, -⟩ := @run_sim _ _ _ _ (get s) (fun l x => some (lruStep n l x))
    (fun _ c l => OneSize s (mdSize b) cap c l) (lruInit b cap) [] tr (onesize_init hf)
    fun _ x c l _ ho => by
      obtain ⟨c', hg, ho'⟩ := ho.get hf hs hn x
      exact ⟨c', _, _, hg, rfl, ho'⟩
  rw [run_total] at h2
  rw [outputs_eq h1, lruHits]
  exact congrArg some (congrArg Prod.snd (Option.some.inj h2)).symm

/-! ### The two LRUs -/

/-- The object that is requested for a page. -/
def objId (page : Page) : ObjId := UInt64.ofNat (unsignedOf page)

lemma toNat_objId (page : Page) : (objId page).toNat = unsignedOf page := by
  have hlt : unsignedOf page < 2 ^ 32 := page.toUInt32.toNat_lt
  rw [objId, UInt64.toNat_ofNat']
  exact Nat.mod_eq_of_lt (by omega)

lemma objId_injective : Function.Injective objId := by
  rintro ⟨p⟩ ⟨q⟩ e
  have hnat := congrArg UInt64.toNat e
  rw [toNat_objId, toNat_objId] at hnat
  exact congrArg Int32.ofUInt32 (UInt32.toNat_inj.mp hnat)

/-- The answer of a cache as the policies of this repository give it. -/
def result (hit : Bool) : Result := if hit then .hit else .fault

/-- A request of libCacheSim's LRU for a page. -/
def access (s : ℤ) (c : State) (page : Page) : Option (State × Result) :=
  (get s c (objId page)).map fun a => (a.1, result a.2)

/-- **The two LRUs agree.** With objects of one size, of which `n` fit with their metadata,
libCacheSim's LRU gives the answers of `lru.c` with `n` frames, on every trace of pages. -/
theorem lru_agrees (M : Malloc) (s₀ : Lru.State) (n : ℕ) (hn : 1 ≤ n) (b : Bool) (s cap : ℤ)
    (hs : 0 ≤ s) (hf : Fits n (s + mdSize b) cap) (tr : List Page) :
    ∃ os, outputs (Lru.lruAccess M) (Lru.lruInit s₀ n) tr = some os ∧
      outputs (access s) (lruInit b cap) tr = some os := by
  obtain ⟨t, c, os, h1, h2, -⟩ := @run_sim _ _ _ _ (Lru.lruAccess M) (access s)
    (fun past t c => LruExact.Inv n past t ∧
      OneSize s (mdSize b) cap c (((recency past).take n).map objId))
    (Lru.lruInit s₀ n) (lruInit b cap) tr
    ⟨LruExact.inv_init s₀ n, by simpa using onesize_init hf⟩
    fun past page t c _ ⟨hi, ho⟩ => by
      obtain ⟨t', r, ha, hi', hhit⟩ := LruExact.inv_step M hn hi page
      obtain ⟨c', hg, ho'⟩ := ho.get hf hs hn (objId page)
      have hr : result (decide (objId page ∈ ((recency past).take n).map objId)) = r := by
        simp only [List.mem_map_of_injective objId_injective, ← hhit]
        cases r <;> rfl
      refine ⟨t', c', r, ha, by rw [access, hg, Option.map_some, hr], hi', ?_⟩
      rwa [← map_touch_of_injOn fun _ _ e => objId_injective e, ← List.map_take, ← take_touch,
        ← recency_snoc] at ho'
  exact ⟨os, outputs_eq h1, outputs_eq h2⟩

/-- The theorem at two frames, objects of 100 bytes with metadata and a trace with an
eviction. -/
theorem lru_agrees_two : 1 ≤ 2 ∧ (0 : ℤ) ≤ 100 ∧ Fits 2 (100 + mdSize true) 250 ∧
    ∃ os, outputs (Lru.lruAccess Malloc.above) (Lru.lruInit Lru.start 2) [7, -1, 7, 11] = some os ∧
      outputs (access 100) (lruInit true 250) [7, -1, 7, 11] = some os := by
  have hf : Fits 2 (100 + mdSize true) 250 := ⟨by decide, by decide, by decide, by decide⟩
  exact ⟨by decide, by norm_num, hf,
    lru_agrees Malloc.above Lru.start 2 (by decide) true 100 250 (by norm_num) hf [7, -1, 7, 11]⟩

end Tempograph.CacheLru
