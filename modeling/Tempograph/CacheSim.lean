import Tempograph.CacheObj

/-!
The part of libCacheSim that every eviction algorithm shares (`cache.c`).

A cache holds objects of different sizes. Its hash table has at most one object for an id, so
an object is known by its id; the table here gives the size stored with it, which has 32 bits.
Each object may take some bytes of metadata as well, as many as the algorithm says. A cache
without admission, prefetching and expiry is modelled, as the plugin of this repository sets
it up. Sizes and counters are unbounded; 64 bits hold them for caches of less than 2^62 bytes.
-/

namespace Tempograph.CacheSim

open LinkedList Recency

abbrev ObjId := UInt64

structure Request where
  objId : ObjId
  objSize : ℤ

/-- The cache, its objects with their links, and the parameters of an eviction algorithm. -/
structure Cache (P : Type*) where
  cacheSize : ℤ
  objMdSize : ℤ
  nObj : ℤ
  occupiedByte : ℤ
  hashtable : ObjId → Option ℕ
  queue : Links ObjId
  params : P

variable {P : Type*} {c c' : Cache P} {req : Request} {fuel : ℕ}

/-- The metadata is set by the algorithm, if at all. -/
def cacheStructInit (cache_size : ℤ) (params : P) : Cache P where
  cacheSize := cache_size
  objMdSize := 0
  nObj := 0
  occupiedByte := 0
  hashtable := fun _ => none
  queue := ⟨fun _ => none, fun _ => none⟩
  params := params

def cacheCanInsertDefault (c : Cache P) (req : Request) : Bool :=
  if req.objSize + c.objMdSize > c.cacheSize then false else true

def cacheFindBase (c : Cache P) (req : Request) : Option ℕ := c.hashtable req.objId

/-- The size that an object keeps of its request, in 32 bits. -/
def storedSize (size : ℤ) : ℕ := (size % 2 ^ 32).toNat

/-- No result if the table has an object with this id, which its caller rules out. -/
def cacheInsertBase (c : Cache P) (req : Request) : Option (Cache P) :=
  match c.hashtable req.objId with
  | some _ => none
  | none => some { c with
      hashtable := Function.update c.hashtable req.objId (some (storedSize req.objSize))
      occupiedByte := c.occupiedByte + (storedSize req.objSize + c.objMdSize)
      nObj := c.nObj + 1 }

/-- No result if the object is not in the table. -/
def cacheRemoveObjBase (c : Cache P) (obj : ObjId) : Option (Cache P) :=
  match c.hashtable obj with
  | none => none
  | some size => some { c with
      occupiedByte := c.occupiedByte - (size + c.objMdSize) % 2 ^ 32
      nObj := c.nObj - 1
      hashtable := Function.update c.hashtable obj none }

def cacheEvictBase (c : Cache P) (obj : ObjId) : Option (Cache P) := cacheRemoveObjBase c obj

/-- Evict until there is room for the object. -/
def makeRoom (evict : Cache P → Request → Option (Cache P)) :
    ℕ → Cache P → Request → Option (Cache P)
  | 0, _, _ => none
  | fuel + 1, c, req =>
    if c.occupiedByte + req.objSize + c.objMdSize > c.cacheSize then
      match evict c req with
      | none => none
      | some c => makeRoom evict fuel c req
    else some c

/-- What happens in the cache, and whether it is a hit. A loop that evicts more often than
there are objects would never end. -/
def cacheGetBase (find : Cache P → Request → Option (Cache P × Bool))
    (evict insert : Cache P → Request → Option (Cache P)) (c : Cache P) (req : Request) :
    Option (Cache P × Bool) :=
  match find c req with
  | none => none
  | some (c, hit) =>
    if hit then some (c, true)
    else if ¬cacheCanInsertDefault c req then some (c, false)
    else
      match makeRoom evict (c.nObj.toNat + 1) c req with
      | none => none
      | some c => (insert c req).map fun c => (c, false)

/-- **The loop ends with room for the object**, if every eviction that it calls for is
defined, keeps the invariant and takes out an object. -/
theorem makeRoom_spec {evict : Cache P → Request → Option (Cache P)} {I : Cache P → Prop}
    (h0 : I c) (hfuel : c.nObj.toNat < fuel)
    (hstep : ∀ c, I c → c.occupiedByte + req.objSize + c.objMdSize > c.cacheSize →
      ∃ c', evict c req = some c' ∧ I c' ∧ c'.nObj.toNat < c.nObj.toNat) :
    ∃ c', makeRoom evict fuel c req = some c' ∧ I c' ∧
      c'.occupiedByte + req.objSize + c'.objMdSize ≤ c'.cacheSize := by
  induction fuel generalizing c with
  | zero => omega
  | succ fuel ih =>
    by_cases hroom : c.occupiedByte + req.objSize + c.objMdSize > c.cacheSize
    · obtain ⟨c₁, he, h1, hlt⟩ := hstep c h0 hroom
      obtain ⟨c', hm, h2, h3⟩ := ih h1 (by omega)
      refine ⟨c', ?_, h2, h3⟩
      rw [makeRoom, if_pos hroom, he]
      exact hm
    · exact ⟨c, by rw [makeRoom, if_neg hroom], h0, not_lt.mp hroom⟩

/-! ### The books -/

variable {d d' : Ends ObjId} {k : Links ObjId} {l : List ObjId} {x : ObjId}
  {T : ObjId → Option ℕ} {m : ℤ}

/-- The sizes of the objects of a list, with the `m` bytes that each takes besides, added up. -/
def bytes (m : ℤ) (T : ObjId → Option ℕ) (l : List ObjId) : ℤ :=
  (l.map fun x => ((T x).getD 0 : ℤ) + m).sum

@[simp] lemma bytes_nil (m : ℤ) (T : ObjId → Option ℕ) : bytes m T [] = 0 := rfl

lemma bytes_cons (m : ℤ) (T : ObjId → Option ℕ) (x : ObjId) (l : List ObjId) :
    bytes m T (x :: l) = (T x).getD 0 + m + bytes m T l := by simp [bytes]

lemma bytes_erase (hx : x ∈ l) : (T x).getD 0 + m + bytes m T (l.erase x) = bytes m T l :=
  List.sum_map_erase (fun x => ((T x).getD 0 : ℤ) + m) hx

lemma bytes_touch (hx : x ∈ l) : bytes m T (touch x l) = bytes m T l := by
  rw [touch, bytes_cons, bytes_erase hx]

lemma bytes_congr {T' : ObjId → Option ℕ} (h : ∀ x ∈ l, T' x = T x) :
    bytes m T' l = bytes m T l := by
  unfold bytes
  rw [List.map_congr_left fun x hx => by rw [h x hx]]

/-- The queue with the ends `d` holds the objects of the table, and the counters count them.
What an object takes is computed in 32 bits when it goes. -/
structure Kept (c : Cache P) (d : Ends ObjId) (l : List ObjId) : Prop where
  list : IsList c.queue d l
  resident : ∀ x, x ∈ l ↔ c.hashtable x ≠ none
  stored : ∀ x size, c.hashtable x = some size → size + c.objMdSize < 2 ^ 32
  nObj : c.nObj = l.length
  occupied : c.occupiedByte = bytes c.objMdSize c.hashtable l
  md : 0 ≤ c.objMdSize
  fits : c.occupiedByte ≤ c.cacheSize

lemma kept_init {cap : ℤ} (hcap : 0 ≤ cap) (hm : 0 ≤ m) (p : P) :
    Kept { cacheStructInit cap p with objMdSize := m } Ends.empty [] where
  list := isList_nil _
  resident := by simp [cacheStructInit]
  stored := by simp [cacheStructInit]
  nObj := rfl
  occupied := rfl
  md := hm
  fits := hcap

lemma Kept.absent (h : Kept c d l) (hx : x ∉ l) : c.hashtable x = none := by
  by_contra hne
  exact hx ((h.resident x).mpr hne)

lemma Kept.present (h : Kept c d l) (hx : x ∈ l) : (c.hashtable x).isSome = true := by
  rw [Option.isSome_iff_ne_none]
  exact (h.resident x).mp hx

/-- The books do not depend on the parameters. -/
lemma Kept.withParams (h : Kept c d l) (p : P) : Kept { c with params := p } d l :=
  ⟨h.list, h.resident, h.stored, h.nObj, h.occupied, h.md, h.fits⟩

/-- The object `x` moves to the head. -/
lemma Kept.touch (h : Kept c d l) (hx : x ∈ l) (p : P) (hk : IsList k d' (touch x l)) :
    Kept { c with queue := k, params := p } d' (touch x l) where
  list := hk
  resident y := (mem_touch_of_mem hx).trans (h.resident y)
  stored := h.stored
  nObj := by
    rw [length_touch_of_mem hx]
    exact h.nObj
  occupied := by
    rw [bytes_touch hx]
    exact h.occupied
  md := h.md
  fits := h.fits

/-- The cache without the object `x`. -/
def without (c : Cache P) (k : Links ObjId) (p : P) (x : ObjId) : Cache P :=
  { c with
    queue := k
    params := p
    occupiedByte := c.occupiedByte - ((c.hashtable x).getD 0 + c.objMdSize)
    nObj := c.nObj - 1
    hashtable := Function.update c.hashtable x none }

lemma Kept.removeObjBase (h : Kept c d l) (hx : x ∈ l) (k : Links ObjId) (p : P) :
    cacheRemoveObjBase { c with queue := k, params := p } x = some (without c k p x) := by
  obtain ⟨size, hsize⟩ := Option.ne_none_iff_exists'.mp ((h.resident x).mp hx)
  have hmd := h.md
  have hmod : ((size : ℤ) + c.objMdSize) % 2 ^ 32 = size + c.objMdSize :=
    Int.emod_eq_of_lt (by omega) (h.stored x size hsize)
  simp only [cacheRemoveObjBase, hsize, without, Option.getD_some, hmod]

lemma Kept.without (h : Kept c d l) (hx : x ∈ l) (p : P) (hk : IsList k d' (l.erase x)) :
    Kept (without c k p x) d' (l.erase x) := by
  have hnd := h.list.nodup
  have hne : ∀ y ∈ l.erase x, y ≠ x := fun y hy => (hnd.mem_erase_iff.mp hy).1
  have hbytes := @bytes_erase _ x c.hashtable c.objMdSize hx
  have hsame : bytes c.objMdSize (Function.update c.hashtable x none) (l.erase x) =
      bytes c.objMdSize c.hashtable (l.erase x) :=
    bytes_congr fun y hy => Function.update_of_ne (hne y hy) _ _
  have hocc := h.occupied
  have hfits := h.fits
  have hmd := h.md
  refine ⟨hk, fun y => ?_, fun y size hy => ?_, ?_, ?_, hmd, ?_⟩
  · rw [hnd.mem_erase_iff, h.resident]
    by_cases hyx : y = x
    · simp [CacheSim.without, hyx]
    · simp [CacheSim.without, hyx]
  · by_cases hyx : y = x
    · simp [CacheSim.without, hyx] at hy
    · exact h.stored y size (by simpa [CacheSim.without, hyx] using hy)
  · have := List.length_pos_of_mem hx
    simp only [CacheSim.without, h.nObj, List.length_erase_of_mem hx]
    omega
  · simp only [CacheSim.without, hsame]
    omega
  · simp only [CacheSim.without]
    omega

lemma storedSize_lt (size : ℤ) : storedSize size < 2 ^ 32 := by
  unfold storedSize
  omega

lemma storedSize_le {size : ℤ} (h : 0 ≤ size) : (storedSize size : ℤ) ≤ size := by
  unfold storedSize
  omega

/-- The cache with the object of a request. -/
def withObj (c : Cache P) (k : Links ObjId) (p : P) (req : Request) : Cache P :=
  { c with
    queue := k
    params := p
    hashtable := Function.update c.hashtable req.objId (some (storedSize req.objSize))
    occupiedByte := c.occupiedByte + (storedSize req.objSize + c.objMdSize)
    nObj := c.nObj + 1 }

lemma Kept.insertBase (h : Kept c d l) (hx : req.objId ∉ l) :
    cacheInsertBase c req = some (withObj c c.queue c.params req) := by
  simp only [cacheInsertBase, h.absent hx]
  rfl

lemma Kept.withObj (h : Kept c d l) (hx : req.objId ∉ l) (hs : 0 ≤ req.objSize)
    (hst : storedSize req.objSize + c.objMdSize < 2 ^ 32)
    (hroom : c.occupiedByte + req.objSize + c.objMdSize ≤ c.cacheSize) (p : P)
    (hk : IsList k d' (req.objId :: l)) : Kept (withObj c k p req) d' (req.objId :: l) := by
  have hle := storedSize_le hs
  have hocc := h.occupied
  have hsame := @bytes_congr l c.hashtable c.objMdSize
    (Function.update c.hashtable req.objId (some (storedSize req.objSize))) fun y hy =>
      Function.update_of_ne (fun e => hx (by rwa [← e])) _ _
  refine ⟨hk, fun y => ?_, fun y size hy => ?_, ?_, ?_, h.md, ?_⟩
  · by_cases hy : y = req.objId
    · simp [CacheSim.withObj, hy]
    · simp [CacheSim.withObj, hy, h.resident]
  · by_cases hyx : y = req.objId
    · have hsize : storedSize req.objSize = size := by simpa [CacheSim.withObj, hyx] using hy
      rw [← hsize]
      exact hst
    · exact h.stored y size (by simpa [CacheSim.withObj, hyx] using hy)
  · simp only [CacheSim.withObj, h.nObj, List.length_cons]
    omega
  · simp only [CacheSim.withObj]
    rw [bytes_cons, hsame, Function.update_self, Option.getD_some]
    omega
  · simp only [CacheSim.withObj]
    omega

/-! ### Objects of one size -/

variable {n : ℕ} {s z cap : ℤ}

/-- Of objects that take `z` bytes, `n` fit into the cache and no more. -/
structure Fits (n : ℕ) (z cap : ℤ) : Prop where
  pos : 1 ≤ z
  lt : z < 2 ^ 32
  le : n * z ≤ cap
  gt : cap < (n + 1) * z

lemma Fits.nonneg (hf : Fits n z cap) : 0 ≤ cap := by
  have hpos := hf.pos
  exact le_trans (by positivity) hf.le

lemma Fits.one_le (hf : Fits n z cap) (hn : 1 ≤ n) : z ≤ cap := by
  have hpos := hf.pos
  have hmul : 1 * z ≤ n * z := mul_le_mul_of_nonneg_right (by exact_mod_cast hn) (by omega)
  linarith [hf.le]

lemma storedSize_eq (hs : 0 ≤ s) (hlt : s < 2 ^ 32) : storedSize s = s.toNat := by
  rw [storedSize, Int.emod_eq_of_lt hs hlt]

lemma bytes_of_size (hs : 0 ≤ s) (h : ∀ x ∈ l, T x = some s.toNat) :
    bytes m T l = l.length * (s + m) := by
  unfold bytes
  rw [List.sum_eq_card_nsmul _ (s + m), List.length_map, nsmul_eq_mul]
  intro a ha
  obtain ⟨x, hx, rfl⟩ := List.mem_map.mp ha
  rw [h x hx, Option.getD_some, Int.toNat_of_nonneg hs]

/-- What fits into the cache is at most `n` objects. -/
lemma Fits.length_le (hf : Fits n (s + m) cap) (hs : 0 ≤ s) (h : ∀ x ∈ l, T x = some s.toNat)
    (hle : bytes m T l ≤ cap) : l.length ≤ n := by
  have hpos := hf.pos
  rw [bytes_of_size hs h] at hle
  have hlt : (l.length : ℤ) < n + 1 := lt_of_mul_lt_mul_right (hle.trans_lt hf.gt) (by omega)
  omega

/-- With room for one more object there are fewer. -/
lemma Fits.length_lt (hf : Fits n (s + m) cap) (hs : 0 ≤ s) (h : ∀ x ∈ l, T x = some s.toNat)
    (hle : bytes m T l + s + m ≤ cap) : l.length < n := by
  have hpos := hf.pos
  rw [bytes_of_size hs h] at hle
  have hlt : (l.length : ℤ) + 1 < n + 1 := by
    refine lt_of_mul_lt_mul_right (lt_of_le_of_lt ?_ hf.gt) (show 0 ≤ s + m by omega)
    linarith
  omega

/-- Without room for one more object there are `n`. -/
lemma Fits.le_length (hf : Fits n (s + m) cap) (hs : 0 ≤ s) (h : ∀ x ∈ l, T x = some s.toNat)
    (hgt : cap < bytes m T l + s + m) : n ≤ l.length := by
  have hpos := hf.pos
  rw [bytes_of_size hs h] at hgt
  have hlt : (n : ℤ) < l.length + 1 := by
    refine lt_of_mul_lt_mul_right (lt_of_le_of_lt hf.le ?_) (show 0 ≤ s + m by omega)
    linarith
  omega

lemma Kept.length_le (h : Kept c d l) (hf : Fits n (s + c.objMdSize) c.cacheSize) (hs : 0 ≤ s)
    (hsize : ∀ x ∈ l, c.hashtable x = some s.toNat) : l.length ≤ n := by
  have hfits := h.fits
  rw [h.occupied] at hfits
  exact hf.length_le hs hsize hfits

/-- There is no room for one more object exactly if `n` are there. -/
lemma Kept.full_iff (h : Kept c d l) (hf : Fits n (s + c.objMdSize) c.cacheSize) (hs : 0 ≤ s)
    (hsize : ∀ x ∈ l, c.hashtable x = some s.toNat) :
    c.occupiedByte + s + c.objMdSize > c.cacheSize ↔ n ≤ l.length := by
  rw [h.occupied]
  constructor
  · exact hf.le_length hs hsize
  · intro hn
    by_contra hroom
    exact absurd (hf.length_lt hs hsize (not_lt.mp hroom)) (by omega)

end Tempograph.CacheSim
