import Tempograph.CacheLru
import Tempograph.SieveReference

/-!
SIEVE as libCacheSim has it (`Sieve.c`).

The queue is in the order of insertion, and a pointer into it walks towards the head. With
objects of one size this is the published algorithm, step by step; so `sieve.c` and `Sieve.c`
give different answers to some trace as soon as there are three frames.
-/

namespace Tempograph.CacheSieve

open Common LinkedList Recency Runs CacheObj CacheSim SieveQueue
open SieveReference (Ref refAccess victim split_at)
open CacheLru (objId objId_injective result)

structure Params where
  pointer : Option ObjId
  q : Ends ObjId
  freq : ObjId → ℕ

abbrev State := Cache Params

def withQueue (c : State) (q : Links ObjId × Ends ObjId) : State :=
  { c with queue := q.1, params := { c.params with q := q.2 } }

def setFreq (c : State) (x : ObjId) (freq : ℕ) : State :=
  { c with params := { c.params with freq := Function.update c.params.freq x freq } }

def sieveFind (c : State) (req : Request) : Option (State × Bool) :=
  if (cacheFindBase c req).isSome then some (setFreq c req.objId 1, true) else some (c, false)

def sieveInsert (c : State) (req : Request) : Option State :=
  (cacheInsertBase c req).map fun c =>
    setFreq (withQueue c (prependObjToHead c.queue c.params.q req.objId)) req.objId 0

/-- The loop of `Sieve_evict`, from the object `obj` on. Frequencies are 0 or 1, so one test
more than there are objects is enough. -/
def scan (k : Links ObjId) (tail : Option ObjId) :
    ℕ → (ObjId → ℕ) → Option ObjId → Option ((ObjId → ℕ) × ObjId)
  | fuel + 1, freq, some obj =>
    if freq obj > 0 then
      scan k tail fuel (Function.update freq obj (freq obj - 1))
        (if k.prev obj = none then tail else k.prev obj)
    else some (freq, obj)
  | _, _, _ => none

/-- No result if the queue is empty. -/
def sieveEvict (c : State) (_ : Request) : Option State :=
  let obj := if c.params.pointer = none then c.params.q.tail else c.params.pointer
  match scan c.queue c.params.q.tail (c.nObj.toNat + 1) c.params.freq obj with
  | none => none
  | some (freq, obj) =>
    let c := { c with params := { c.params with freq := freq, pointer := c.queue.prev obj } }
    cacheEvictBase (withQueue c (removeObjFromList c.queue c.params.q obj)) obj

def sieveGet (c : State) (req : Request) : Option (State × Bool) :=
  cacheGetBase sieveFind sieveEvict sieveInsert c req

/-- The bytes of metadata that each object takes. -/
def mdSize (consider_obj_metadata : Bool) : ℤ := if consider_obj_metadata then 1 else 0

def sieveInit (consider_obj_metadata : Bool) (cache_size : ℤ) : State :=
  { cacheStructInit cache_size ⟨none, Ends.empty, fun _ => 0⟩ with
    objMdSize := mdSize consider_obj_metadata }

lemma mdSize_nonneg (b : Bool) : 0 ≤ mdSize b := by cases b <;> decide

variable {c : State} {n i : ℕ} {s m cap : ℤ} {b : Bool} {rev : List Page} {page : Page} {r : Ref}
  {k : Links ObjId} {d : Ends ObjId} {freq : ObjId → ℕ}

/-! ### The queue from the tail -/

/-- The queue of the pages `rev`, read from the tail, with the bits. -/
def view (freq : ObjId → ℕ) (rev : List Page) : List Entry :=
  rev.map fun p => (p, decide (0 < freq (objId p)))

@[simp] lemma length_view (freq : ObjId → ℕ) (rev : List Page) :
    (view freq rev).length = rev.length := List.length_map _

lemma view_append (freq : ObjId → ℕ) (a b : List Page) :
    view freq (a ++ b) = view freq a ++ view freq b := List.map_append

lemma view_congr {freq' : ObjId → ℕ} (h : ∀ p ∈ rev, freq' (objId p) = freq (objId p)) :
    view freq' rev = view freq rev :=
  List.map_congr_left fun p hp => by rw [h p hp]

/-- What the links say of an object in the queue. -/
lemma prev_of_split {a b : List Page} {p : Page}
    (hl : IsList k d ((a ++ p :: b).reverse.map objId)) :
    k.prev (objId p) = b.head?.map objId := by
  have e : (a ++ p :: b).reverse.map objId =
      b.reverse.map objId ++ objId p :: a.reverse.map objId := by simp
  rw [(hl.links _ _ _ e).1, List.getLast?_map, List.getLast?_reverse]

lemma tail_of_list (hl : IsList k d (rev.reverse.map objId)) :
    d.tail = rev.head?.map objId := by
  rw [hl.tail, List.getLast?_map, List.getLast?_reverse]

lemma view_update (freq : ObjId → ℕ) {a b : List Page} {p : Page} (hnd : (a ++ p :: b).Nodup)
    (m : ℕ) :
    view (Function.update freq (objId p) m) (a ++ p :: b) =
      view freq a ++ (p, decide (0 < m)) :: view freq b := by
  obtain ⟨-, hb, hab⟩ := List.nodup_append.mp hnd
  have hne : ∀ q ∈ a ++ b, objId q ≠ objId p := by
    intro q hq e
    obtain rfl := objId_injective e
    rcases List.mem_append.mp hq with hq | hq
    · exact hab q hq q List.mem_cons_self rfl
    · exact (List.nodup_cons.mp hb).1 hq
  have hold : ∀ l, l ⊆ a ++ b → view (Function.update freq (objId p) m) l = view freq l :=
    fun l hl => view_congr fun q hq => Function.update_of_ne (hne q (hl hq)) _ _
  rw [view, List.map_append, List.map_cons, Function.update_self]
  exact congrArg₂ (fun x y => x ++ (p, decide (0 < m)) :: y)
    (hold a (List.subset_append_left _ _)) (hold b (List.subset_append_right _ _))

/-- **The loop walks as the published hand does.** -/
lemma scan_view (fuel : ℕ) (hl : IsList k d (rev.reverse.map objId)) (hnd : rev.Nodup)
    (hbit : ∀ p ∈ rev, freq (objId p) ≤ 1) (hi : i < rev.length)
    (hf : (view freq rev).countP (·.2) < fuel) :
    ∃ freq' a p b, scan k d.tail fuel freq (some (objId rev[i])) = some (freq', objId p) ∧
      rev = a ++ p :: b ∧
      SieveReference.scan fuel (view freq rev) i = (view freq' rev, a.length) ∧
      ∀ p ∈ rev, freq' (objId p) ≤ 1 := by
  induction fuel generalizing freq i with
  | zero => omega
  | succ fuel ih =>
    obtain ⟨a, p, b, rfl, rfl⟩ := split_at hi
    have hget : (a ++ p :: b)[a.length] = p := by simp
    have hview : view freq (a ++ p :: b) =
        view freq a ++ (p, decide (0 < freq (objId p))) :: view freq b := by
      simp [view]
    have hlen : (view freq a).length = a.length := length_view _ _
    have hat : (view freq (a ++ p :: b))[a.length]? = some (p, decide (0 < freq (objId p))) := by
      rw [hview, ← hlen, List.getElem?_append_right le_rfl, Nat.sub_self,
        List.getElem?_cons_zero]
    rw [hget]
    by_cases hv : 0 < freq (objId p)
    · have hone := hbit p (by simp)
      have hstep := view_update freq hnd (freq (objId p) - 1)
      have hzero : decide (0 < freq (objId p) - 1) = false := by
        rw [decide_eq_false_iff_not]
        omega
      rw [hzero] at hstep
      have hset : (view freq (a ++ p :: b)).set a.length (p, false) =
          view (Function.update freq (objId p) (freq (objId p) - 1)) (a ++ p :: b) := by
        rw [hstep, hview, ← hlen]
        simp
      have hcount : (view (Function.update freq (objId p) (freq (objId p) - 1))
          (a ++ p :: b)).countP (·.2) < fuel := by
        rw [hview] at hf
        rw [hstep]
        simp only [List.countP_append, List.countP_cons, decide_eq_true hv, if_true] at hf
        simp only [List.countP_append, List.countP_cons, Bool.false_eq_true, if_false]
        omega
      have hbit' : ∀ q ∈ a ++ p :: b,
          Function.update freq (objId p) (freq (objId p) - 1) (objId q) ≤ 1 := by
        intro q hq
        have := hbit q hq
        rw [Function.update_apply]
        split_ifs <;> omega
      have hprev := prev_of_split hl
      simp only [scan, if_pos (show freq (objId p) > 0 from hv), hprev, SieveReference.scan, hat,
        decide_eq_true hv, hset, length_view]
      cases b with
      | nil =>
        have hlast : ¬a.length + 1 < (a ++ [p]).length := by simp
        rw [if_neg hlast, tail_of_list hl]
        obtain ⟨y, hy⟩ : ∃ y, (a ++ [p]).head? = some y := by cases a <;> simp
        have h0 : (a ++ [p])[0] = y := by
          rw [List.head?_eq_getElem?] at hy
          exact (List.getElem?_eq_some_iff.mp hy).2
        obtain ⟨freq', a', p', b', h1, h2, h3, h4⟩ := ih hbit' (i := 0) (by simp) hcount
        rw [h0] at h1
        rw [tail_of_list hl, hy] at h1
        refine ⟨freq', a', p', b', ?_, h2, h3, h4⟩
        simpa [hy] using h1
      | cons y b =>
        have hlt : a.length + 1 < (a ++ p :: y :: b).length := by simp
        have hy : (a ++ p :: y :: b)[a.length + 1] = y := by simp
        obtain ⟨freq', a', p', b', h1, h2, h3, h4⟩ := ih hbit' hlt hcount
        rw [hy] at h1
        rw [if_pos hlt]
        exact ⟨freq', a', p', b', by simpa using h1, h2, h3, h4⟩
    · refine ⟨freq, a, p, b, ?_, rfl, ?_, hbit⟩
      · simp only [scan, if_neg hv]
      · simp only [SieveReference.scan, hat, decide_eq_false hv]

/-! ### One request -/

/-- The cache and the published queue are the same. -/
structure Same (s m cap : ℤ) (r : Ref) (c : State) (rev : List Page) : Prop where
  kept : Kept c c.params.q (rev.reverse.map objId)
  cap : c.cacheSize = cap
  md : c.objMdSize = m
  size : ∀ p ∈ rev, c.hashtable (objId p) = some s.toNat
  bits : ∀ p ∈ rev, c.params.freq (objId p) ≤ 1
  queue : r.queue = view c.params.freq rev
  hand : c.params.pointer = r.hand.bind fun i => rev[i]?.map objId
  within : ∀ i, r.hand = some i → i < rev.length

lemma Same.nodup (h : Same s m cap r c rev) : rev.Nodup :=
  List.nodup_reverse.mp h.kept.list.nodup.of_map

lemma Same.mem_iff (h : Same s m cap r c rev) (page : Page) :
    page ∈ r.queue.map Prod.fst ↔ page ∈ rev := by
  rw [h.queue, view, List.map_map]
  simp [Function.comp_def]

lemma Same.resident_iff (h : Same s m cap r c rev) (page : Page) :
    (c.hashtable (objId page)).isSome = true ↔ page ∈ rev := by
  rw [Option.isSome_iff_ne_none, ← h.kept.resident, List.mem_map_of_injective objId_injective,
    List.mem_reverse]

/-- The object the loop of an eviction starts at. -/
lemma Same.start (h : Same s m cap r c rev) (hi : r.hand.getD 0 < rev.length) :
    (if c.params.pointer = none then c.params.q.tail else c.params.pointer) =
      some (objId rev[r.hand.getD 0]) := by
  have hsome : rev[r.hand.getD 0]?.map objId = some (objId rev[r.hand.getD 0]) := by
    rw [List.getElem?_eq_getElem hi, Option.map_some]
  rw [← hsome, h.hand, tail_of_list h.kept.list]
  cases hh : r.hand with
  | none => simp [List.head?_eq_getElem?]
  | some i => simp [h.within i hh]

lemma Same.evict (h : Same s m cap r c rev) (hne : rev ≠ []) (req : Request) :
    ∃ c' rev', sieveEvict c req = some c' ∧ Same s m cap (SieveReference.evict r) c' rev' ∧
      rev'.length + 1 = rev.length ∧ rev' ⊆ rev := by
  have hnd := h.nodup
  have hpos := List.length_pos_of_ne_nil hne
  have hi : r.hand.getD 0 < rev.length := by
    cases hh : r.hand with
    | none => exact hpos
    | some i => exact h.within i hh
  have hn : c.nObj.toNat = rev.length := by
    rw [h.kept.nObj, List.length_map, List.length_reverse, Int.toNat_natCast]
  obtain ⟨freq', a, p, b, h1, rfl, h3, h4⟩ := scan_view (rev.length + 1) h.kept.list hnd
    h.bits hi (by
      have := List.countP_le_length (p := (·.2)) (l := view c.params.freq rev)
      rw [length_view] at this
      omega)
  have hvictim : victim r = (view freq' (a ++ p :: b), a.length) := by
    rw [← h3, victim, h.queue, length_view]
  have hevict : SieveReference.evict r = ⟨view freq' (a ++ b),
      if a.length + 1 < (a ++ p :: b).length then some a.length else none⟩ := by
    have herase : (view freq' (a ++ p :: b)).eraseIdx a.length = view freq' (a ++ b) := by
      rw [view, List.map_append, List.eraseIdx_append_of_length_le (by simp)]
      simp [view]
    simp only [SieveReference.evict, hvictim, herase, length_view]
  have hx : objId p ∈ (a ++ p :: b).reverse.map objId := List.mem_map_of_mem (by simp)
  have herase : ((a ++ p :: b).reverse.map objId).erase (objId p) =
      (a ++ b).reverse.map objId := by
    have hnd' : (b.reverse ++ p :: a.reverse).Nodup := by simpa using List.nodup_reverse.mpr hnd
    rw [← List.map_erase objId_injective]
    simp [split_erase hnd']
  have hlist := removeObjFromList_spec h.kept.list hx
  rw [herase] at hlist
  have hkept : Kept { c with params := { c.params with
      freq := freq', pointer := c.queue.prev (objId p) } } c.params.q
      ((a ++ p :: b).reverse.map objId) := h.kept.withParams _
  have hkept' := hkept.without hx (p := { c.params with
    freq := freq', pointer := c.queue.prev (objId p)
    q := (removeObjFromList c.queue c.params.q (objId p)).2 }) (herase.symm ▸ hlist)
  rw [herase] at hkept'
  refine ⟨_, a ++ b, ?_, ⟨hkept', h.cap, h.md, fun q hq => ?_, fun q hq => h4 q ?_, ?_, ?_, ?_⟩, ?_, ?_⟩
  · rw [sieveEvict, h.start hi, hn, h1]
    exact hkept.removeObjBase hx _ _
  · have hq' : q ∈ a ++ p :: b := by
      rcases List.mem_append.mp hq with hq | hq <;> simp [hq]
    have hqp : objId q ≠ objId p := by
      intro e
      obtain rfl := objId_injective e
      obtain ⟨-, hb, hab⟩ := List.nodup_append.mp hnd
      rcases List.mem_append.mp hq with hq | hq
      · exact hab q hq q List.mem_cons_self rfl
      · exact (List.nodup_cons.mp hb).1 hq
    show Function.update c.hashtable _ _ _ = _
    rw [Function.update_of_ne hqp]
    exact h.size q hq'
  · rcases List.mem_append.mp hq with hq | hq <;> simp [hq]
  · rw [hevict]
    rfl
  · rw [hevict]
    show c.queue.prev (objId p) = _
    rw [prev_of_split h.kept.list]
    cases b <;> simp
  · rw [hevict]
    intro i hi
    split_ifs at hi with hlt
    · obtain rfl : a.length = i := by simpa using hi
      simp only [List.length_append, List.length_cons] at hlt ⊢
      omega
  · simp only [List.length_append, List.length_cons]
    omega
  · intro q hq
    rcases List.mem_append.mp hq with hq | hq <;> simp [hq]

/-- There is no room for one more object exactly if `n` are there. -/
lemma Same.full_iff (hf : Fits n (s + m) cap) (hs : 0 ≤ s) (h : Same s m cap r c rev) :
    c.occupiedByte + s + c.objMdSize > c.cacheSize ↔ n ≤ rev.length := by
  have hsize : ∀ x ∈ rev.reverse.map objId, c.hashtable x = some s.toNat := by
    intro x hx
    obtain ⟨p, hp, rfl⟩ := List.mem_map.mp hx
    exact h.size p (List.mem_reverse.mp hp)
  simpa using h.kept.full_iff (h.cap ▸ h.md ▸ hf) hs hsize

lemma Same.insert (hf : Fits n (s + m) cap) (hs : 0 ≤ s) (h : Same s m cap r c rev) (hp : page ∉ rev)
    (hlt : rev.length < n) : ∃ c', sieveInsert c ⟨objId page, s⟩ = some c' ∧
      Same s m cap (SieveReference.insert r page) c' (rev ++ [page]) := by
  have hm : 0 ≤ m := h.md ▸ h.kept.md
  have hsmall := hf.lt
  have hstored : storedSize s = s.toNat := storedSize_eq hs (by omega)
  have hnew : objId page ∉ rev.reverse.map objId := by
    rw [List.mem_map_of_injective objId_injective, List.mem_reverse]
    exact hp
  have hother : ∀ q ∈ rev, objId q ≠ objId page := fun q hq e => hp (objId_injective e ▸ hq)
  have hroom : c.occupiedByte + s + c.objMdSize ≤ c.cacheSize :=
    not_lt.mp (mt (h.full_iff hf hs).mp (by omega))
  have hlist := prependObjToHead_spec h.kept.list hnew
  have hbits : (storedSize s : ℤ) + c.objMdSize < 2 ^ 32 := by
    rwa [h.md, hstored, Int.toNat_of_nonneg hs]
  have hkept := @Kept.withObj _ c ⟨objId page, s⟩ _ _ _ _ h.kept hnew hs hbits hroom
    { c.params with
      q := (prependObjToHead c.queue c.params.q (objId page)).2
      freq := Function.update c.params.freq (objId page) 0 } hlist
  have hrev : objId page :: rev.reverse.map objId = (rev ++ [page]).reverse.map objId := by simp
  rw [hrev] at hkept
  refine ⟨_, ?_, hkept, h.cap, h.md, fun q hq => ?_, fun q hq => ?_, ?_, ?_, fun i hi => ?_⟩
  · simp only [sieveInsert, @Kept.insertBase _ c ⟨objId page, s⟩ _ _ h.kept hnew]
    rfl
  · show Function.update c.hashtable _ (some (storedSize s)) _ = _
    rcases List.mem_append.mp hq with hq | hq
    · rw [Function.update_of_ne (hother q hq)]
      exact h.size q hq
    · rw [List.mem_singleton.mp hq, Function.update_self, hstored]
  · show Function.update c.params.freq _ _ _ ≤ 1
    rcases List.mem_append.mp hq with hq | hq
    · rw [Function.update_of_ne (hother q hq)]
      exact h.bits q hq
    · rw [List.mem_singleton.mp hq, Function.update_self]
      exact Nat.zero_le 1
  · have hold := @view_congr rev c.params.freq (Function.update c.params.freq (objId page) 0)
      fun q hq => Function.update_of_ne (hother q hq) _ _
    show r.queue ++ [(page, false)] = view (Function.update c.params.freq (objId page) 0) _
    rw [h.queue, view_append, hold]
    simp [view]
  · show c.params.pointer = r.hand.bind _
    rw [h.hand]
    cases hh : r.hand with
    | none => rfl
    | some i =>
      have hi := h.within i hh
      simp [List.getElem?_append_left hi]
  · have := h.within i hi
    rw [List.length_append]
    omega

lemma Same.hit (h : Same s m cap r c rev) (page : Page) :
    Same s m cap { r with queue := r.queue.map (mark page) } (setFreq c (objId page) 1) rev := by
  refine ⟨h.kept.withParams _, h.cap, h.md, h.size, fun q hq => ?_, ?_, h.hand, h.within⟩
  · show Function.update c.params.freq _ _ _ ≤ 1
    have := h.bits q hq
    rw [Function.update_apply]
    split_ifs <;> omega
  · show r.queue.map (mark page) = view (Function.update c.params.freq (objId page) 1) rev
    rw [h.queue, view, List.map_map]
    refine List.map_congr_left fun q _ => ?_
    by_cases hq : q = page
    · simp [mark, hq]
    · have hne : objId q ≠ objId page := fun e => hq (objId_injective e)
      simp [mark, hq, Function.update_of_ne hne]

/-- Making room takes out the published victim if the queue is full. -/
lemma Same.makeRoom (hf : Fits n (s + m) cap) (hs : 0 ≤ s) (hn : 1 ≤ n) (h : Same s m cap r c rev)
    (hlen : rev.length ≤ n) (x : ObjId) :
    ∃ c' rev', makeRoom sieveEvict (c.nObj.toNat + 1) c ⟨x, s⟩ = some c' ∧
      Same s m cap (if r.queue.length = n then SieveReference.evict r else r) c' rev' ∧
      rev'.length < n ∧ rev' ⊆ rev := by
  have hq : r.queue.length = rev.length := by rw [h.queue, length_view]
  have hfull := h.full_iff hf hs
  rw [hq]
  rcases Nat.lt_or_ge rev.length n with hlt | hge
  · rw [if_neg (by omega)]
    refine ⟨c, rev, ?_, h, hlt, List.Subset.refl rev⟩
    rw [CacheSim.makeRoom, if_neg]
    exact mt hfull.mp (by omega)
  · rw [if_pos (by omega)]
    have hne : rev ≠ [] := List.ne_nil_of_length_pos (by omega)
    obtain ⟨c', rev', hev, h', hlen', hsub⟩ := h.evict hne ⟨x, s⟩
    refine ⟨c', rev', ?_, h', by omega, hsub⟩
    have hfuel : c.nObj.toNat = rev'.length + 1 := by
      rw [h.kept.nObj, List.length_map, List.length_reverse, Int.toNat_natCast, hlen']
    rw [hfuel, CacheSim.makeRoom, if_pos (hfull.mpr hge), hev]
    show CacheSim.makeRoom sieveEvict (rev'.length + 1) c' ⟨x, s⟩ = some c'
    rw [CacheSim.makeRoom, if_neg]
    exact mt (h'.full_iff hf hs).mp (by omega)

/-- **One request** does what the published algorithm does. -/
lemma Same.step (hf : Fits n (s + m) cap) (hs : 0 ≤ s) (hn : 1 ≤ n) (h : Same s m cap r c rev)
    (hlen : rev.length ≤ n) (page : Page) :
    ∃ c' o rev', sieveGet c ⟨objId page, s⟩ = some (c', o) ∧ rev'.length ≤ n ∧
      (refAccess n r page).2 = result o ∧ Same s m cap (refAccess n r page).1 c' rev' := by
  have hmem := h.mem_iff page
  have hres := h.resident_iff page
  by_cases hp : page ∈ rev
  · refine ⟨setFreq c (objId page) 1, true, rev, ?_, hlen, ?_, ?_⟩
    · simp [sieveGet, cacheGetBase, sieveFind, cacheFindBase, hres.mpr hp]
    · rw [refAccess, if_pos (hmem.mpr hp)]
      rfl
    · rw [refAccess, if_pos (hmem.mpr hp)]
      exact h.hit page
  · have hfind : sieveFind c ⟨objId page, s⟩ = some (c, false) := by
      rw [sieveFind, if_neg]
      exact fun e => hp (hres.mp e)
    have hcan : cacheCanInsertDefault c ⟨objId page, s⟩ = true := if_neg (by
      show ¬s + c.objMdSize > c.cacheSize
      have := hf.one_le hn
      rw [h.md, h.cap]
      omega)
    obtain ⟨c₁, rev₁, hmake, h₁, hlt, hsub⟩ := h.makeRoom hf hs hn hlen (objId page)
    obtain ⟨c', hins, h'⟩ := h₁.insert hf hs (fun hm => hp (hsub hm)) hlt
    rw [refAccess, if_neg fun e => hp (hmem.mp e)]
    refine ⟨c', false, rev₁ ++ [page], ?_, ?_, rfl, h'⟩
    · simp [sieveGet, cacheGetBase, hfind, hcan, hmake, hins]
    · rw [List.length_append, List.length_singleton]
      omega

/-! ### Whole traces -/

/-- A request of libCacheSim's SIEVE for a page. -/
def access (s : ℤ) (c : State) (page : Page) : Option (State × Result) :=
  (sieveGet c ⟨objId page, s⟩).map fun a => (a.1, result a.2)

lemma same_init (hf : Fits n (s + mdSize b) cap) :
    Same s (mdSize b) cap SieveReference.empty (sieveInit b cap) [] :=
  ⟨kept_init hf.nonneg (mdSize_nonneg b) _, rfl, rfl, by simp, by simp, rfl, rfl,
    by simp [SieveReference.empty]⟩

/-- `Sieve.c` gives the answers of the published algorithm. -/
lemma sieve_run (hf : Fits n (s + mdSize b) cap) (hs : 0 ≤ s) (hn : 1 ≤ n) (tr : List Page) :
    outputs (access s) (sieveInit b cap) tr =
      some (results (refAccess n) SieveReference.empty tr) := by
  obtain ⟨c, r, os, h1, h2, -⟩ := @run_sim _ _ _ _ (access s)
    (fun r page => some (refAccess n r page))
    (fun _ c r => ∃ rev, Same s (mdSize b) cap r c rev ∧ rev.length ≤ n) (sieveInit b cap)
    SieveReference.empty tr ⟨[], same_init hf, Nat.zero_le n⟩ fun _ page c r _ ⟨rev, h, hlen⟩ => by
      obtain ⟨c', o, rev', hg, hlen', ho, h'⟩ := h.step hf hs hn hlen page
      refine ⟨c', (refAccess n r page).1, result o, ?_, ?_, rev', h', hlen'⟩
      · rw [access, hg, Option.map_some]
      · rw [← ho]
  rw [run_total] at h2
  rw [outputs_eq h1]
  exact congrArg some (congrArg Prod.snd (Option.some.inj h2)).symm

/-- **SIEVE twice.** With objects of one size, of which `n` fit with their metadata,
libCacheSim's SIEVE is the published algorithm on every trace. `sieve.c` with `n` frames, if it
has so many, gives the same answers if every page that is evicted is at an end of the queue;
and it does so on every trace exactly when there are at most two frames. -/
theorem sieve_twice (s₀ : Sieve.State) (n : ℕ) (h1 : 1 ≤ n) (b : Bool) (s cap : ℤ) (hs : 0 ≤ s)
    (hf : Fits n (s + mdSize b) cap) :
    (∀ tr, outputs (access s) (sieveInit b cap) tr =
      some (results (refAccess n) SieveReference.empty tr)) ∧
    (n ≤ maxFrames →
      (∀ tr, (∀ p ∈ tr, p ≠ -1) → SieveReference.EndVictims n tr →
        ((Sieve.sieveInit s₀ n).bind fun t => outputs Sieve.sieveAccess t tr) =
          outputs (access s) (sieveInit b cap) tr) ∧
      ((∀ tr, (∀ p ∈ tr, p ≠ -1) →
        ((Sieve.sieveInit s₀ n).bind fun t => outputs Sieve.sieveAccess t tr) =
          outputs (access s) (sieveInit b cap) tr) ↔ n ≤ 2)) := by
  have hrun := fun tr => sieve_run hf hs h1 tr
  have hagree : ∀ tr, SieveReference.Agrees s₀ n tr ↔
      ((Sieve.sieveInit s₀ n).bind fun t => outputs Sieve.sieveAccess t tr) =
        outputs (access s) (sieveInit b cap) tr := by
    intro tr
    rw [hrun, SieveReference.Agrees]
  refine ⟨hrun, fun h2 => ⟨fun tr htr hend => ?_, fun h => ?_, fun hn tr htr => ?_⟩⟩
  · exact (hagree tr).mp (SieveReference.agrees_of_endVictims h1 h2 htr hend)
  · by_contra hn
    obtain ⟨hp, hna⟩ := SieveReference.not_agrees_apart s₀ (by omega) h2
    exact hna ((hagree _).mpr (h _ hp))
  · exact (hagree tr).mp (SieveReference.agrees_of_endVictims h1 h2 htr
      (SieveReference.endVictims_of_le_two h1 hn tr))

/-- The theorem at three frames, with metadata: some trace tells the two programs apart. -/
theorem sieve_twice_three : 1 ≤ 3 ∧ (0 : ℤ) ≤ 100 ∧ Fits 3 (100 + mdSize true) 350 ∧
    3 ≤ maxFrames ∧ ∃ tr, (∀ p ∈ tr, p ≠ -1) ∧
      ((Sieve.sieveInit Sieve.start 3).bind fun t => outputs Sieve.sieveAccess t tr) ≠
        outputs (access 100) (sieveInit true 350) tr := by
  have hf : Fits 3 (100 + mdSize true) 350 := ⟨by decide, by decide, by decide, by decide⟩
  have h := ((sieve_twice Sieve.start 3 (by decide) true 100 350 (by norm_num) hf).2
    (by decide)).2
  refine ⟨by decide, by norm_num, hf, by decide, ?_⟩
  by_contra hall
  push Not at hall
  exact absurd (h.mp hall) (by decide)

end Tempograph.CacheSieve
