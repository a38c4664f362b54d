import Tempograph.CacheSim
import Tempograph.TgVictim

/-!
TempoGraph as an eviction algorithm of libCacheSim (`Tempograph.c`).

The plugin is a second implementation of the policy: its objects have sizes, it has no
frames, its indices go up to 2^20, and an object too large for the cache is refused, though
its request is counted. It sets no metadata, so `objMdSize` is 0. What is shown here is for
objects of any sizes, in any order of requests and removals. The two counters of requests are
`int`s in the source and unbounded here, so the model is that of fewer than 2^31 requests.
-/

namespace Tempograph.TgPlugin

open Common Tempograph.Graph LinkedList SlidingWindow Recency Runs CacheObj CacheSim
open TempoGraph (addEdges sampleSize decayInterval longMax)

def maxUniqueNodes : ℕ := 1048576

structure Params where
  graph : Adj
  win : Window ℕ
  mruTime : ℕ → ℕ
  accessCount : ℕ
  globalTime : ℕ
  q : Ends ObjId

abbrev State := Cache Params

def pageIdx (page : ObjId) : ℕ := page.toNat % maxUniqueNodes

/-- The sweep of `apply_decay`, over all nodes of the plugin. -/
def applyDecay (g : Adj) : Adj where
  edges u := if u < maxUniqueNodes then (decayRow (g.edges u) 0 (g.edgeCnt u)).1 else g.edges u
  edgeCnt u :=
    if u < maxUniqueNodes then (decayRow (g.edges u) 0 (g.edgeCnt u)).2 % 256 else g.edgeCnt u

def updateGraph (p : Params) (new_idx : ℕ) : Params :=
  { p with graph := addEdges p.graph p.win.items new_idx }

def slideWindow (p : Params) (new_idx : ℕ) : Params := { p with win := p.win.slide new_idx }

def scorePage (p : Params) (idx : ℕ) : ℕ := (p.win.items.map fun u => adjWeight p.graph u idx).sum

/-- The candidate of `Tempograph_to_evict`. -/
structure Best where
  frame : Option ObjId
  score : ℕ
  time : ℤ

/-- Look at one object. -/
def consider (p : Params) (b : Best) (curr : ObjId) : Best :=
  let idx := pageIdx curr
  let s := scorePage p idx
  let t := p.mruTime idx
  if s < b.score ∨ s = b.score ∧ (t : ℤ) > b.time then ⟨some curr, s, t⟩ else b

/-- The objects sampled at an eviction. -/
def sample (c : State) : List ObjId := follow c.queue.prev sampleSize c.params.q.tail

def tempographToEvict (c : State) : Option ObjId :=
  ((sample c).foldl (consider c.params) ⟨none, longMax, -1⟩).frame

def withQueue (c : State) (q : Links ObjId × Ends ObjId) : State :=
  { c with queue := q.1, params := { c.params with q := q.2 } }

def tempographEvict (c : State) (_ : Request) : Option State :=
  match tempographToEvict c with
  | none => some c
  | some obj => cacheEvictBase (withQueue c (removeObjFromList c.queue c.params.q obj)) obj

def stamp (p : Params) (idx : ℕ) : Params :=
  { p with mruTime := Function.update p.mruTime idx p.globalTime }

def tempographFind (c : State) (req : Request) : Option (State × Bool) :=
  some (c, (cacheFindBase c req).isSome)

def tempographInsert (c : State) (req : Request) : Option State :=
  match cacheInsertBase c req with
  | none => none
  | some c =>
    let idx := pageIdx req.objId
    let c := { c with params := stamp (updateGraph c.params idx) idx }
    let c := withQueue c (prependObjToHead c.queue c.params.q req.objId)
    some { c with params := slideWindow c.params idx }

/-- Count the access, and decay the graph when it is time. -/
def tick (p : Params) : Params :=
  let p := { p with accessCount := p.accessCount + 1, globalTime := p.globalTime + 1 }
  if p.accessCount % decayInterval = 0 then { p with graph := applyDecay p.graph } else p

def tempographGet (c : State) (req : Request) : Option (State × Bool) :=
  let c := { c with params := tick c.params }
  match cacheGetBase tempographFind tempographEvict tempographInsert c req with
  | none => none
  | some (c, ck_hit) =>
    let idx := pageIdx req.objId
    if ck_hit then
      let c := { c with params := stamp c.params idx }
      match moveObjToHead c.queue c.params.q req.objId with
      | none => none
      | some q =>
        let c := withQueue c q
        some ({ c with params := slideWindow (updateGraph c.params idx) idx }, ck_hit)
    else some (c, ck_hit)

def tempographRemove (c : State) (obj_id : ObjId) : Option (State × Bool) :=
  match c.hashtable obj_id with
  | none => some (c, false)
  | some _ =>
    (cacheRemoveObjBase (withQueue c (removeObjFromList c.queue c.params.q obj_id)) obj_id).map
      fun c => (c, true)

def tempographInit (cache_size : ℤ) : State := cacheStructInit cache_size
  { graph := Adj.zero
    win := ⟨fun _ => 0, 0, 0, defaultWindow⟩
    mruTime := fun _ => 0
    accessCount := 0
    globalTime := 0
    q := Ends.empty }

variable {c : State} {p : Params} {req : Request} {l rest : List ObjId} {x y : ObjId}
  {T : ObjId → Option ℕ} {cap : ℤ}

/-! ### The search -/

/-- The scores that the search compares are far below the one it starts with. -/
structure Bounded (p : Params) : Prop where
  light : Light p.graph
  size : p.win.size ≤ p.win.W
  cap : p.win.W = defaultWindow

lemma Bounded.score_lt (h : Bounded p) (idx : ℕ) : scorePage p idx < longMax := by
  have hlen : p.win.items.length ≤ defaultWindow := by
    have := h.size
    rw [h.cap] at this
    simpa [Window.items] using this
  have hle : ∀ w ∈ p.win.items.map fun u => adjWeight p.graph u idx, w ≤ 65535 := by
    intro w hw
    obtain ⟨u, -, rfl⟩ := List.mem_map.mp hw
    exact h.light.adjWeight u idx
  calc scorePage p idx ≤ (p.win.items.map fun u => adjWeight p.graph u idx).length • 65535 :=
        List.sum_le_card_nsmul _ _ hle
    _ ≤ defaultWindow * 65535 := by
        rw [List.length_map, smul_eq_mul]
        exact Nat.mul_le_mul_right _ hlen
    _ < longMax := by decide

lemma Bounded.tick (h : Bounded p) : Bounded (tick p) := by
  unfold TgPlugin.tick
  dsimp only
  split_ifs
  · refine ⟨fun u j => ?_, h.size, h.cap⟩
    simp only [applyDecay]
    split_ifs
    · exact decayRow_le (h.light u) 0 _ j
    · exact h.light u j
  · exact ⟨h.light, h.size, h.cap⟩

/-- What the search compares: a low score first, then a late time. -/
def key (p : Params) (idx : ℕ) : ℕ ×ₗ ℤᵒᵈ :=
  toLex (scorePage p idx, OrderDual.toDual (p.mruTime idx : ℤ))

/-- A candidate, with the score and the time as one key. -/
def pair (b : Best) : (ℕ ×ₗ ℤᵒᵈ) × Option ObjId :=
  (toLex (b.score, OrderDual.toDual b.time), b.frame)

lemma pair_consider (p : Params) (b : Best) (x : ObjId) :
    ArgMin.better (fun x => key p (pageIdx x)) (pair b) x = pair (consider p b x) := by
  unfold ArgMin.better consider pair key
  simp only [Prod.Lex.toLex_lt_toLex, OrderDual.toDual_lt_toDual, gt_iff_lt]
  split_ifs <;> rfl

/-- The loop of `Tempograph_to_evict` is a search for the least key. -/
lemma toEvict_eq (c : State) : tempographToEvict c = (ArgMin.search
    (fun x => key c.params (pageIdx x)) (toLex (longMax, OrderDual.toDual (-1))) (sample c)).2 := by
  have hbest : pair ((sample c).foldl (consider c.params) ⟨none, longMax, -1⟩) = ArgMin.search
      (fun x => key c.params (pageIdx x)) (toLex (longMax, OrderDual.toDual (-1))) (sample c) := by
    rw [← List.foldl_hom pair (pair_consider c.params)]
    rfl
  exact congrArg Prod.snd hbest

/-- With an object to look at the search finds one. -/
lemma toEvict_mem (h : Bounded c.params) (hne : sample c ≠ []) :
    ∃ x ∈ sample c, tempographToEvict c = some x := by
  obtain ⟨y, hy⟩ := List.exists_mem_of_ne_nil _ hne
  have hlt : key c.params (pageIdx y) < toLex (longMax, OrderDual.toDual (-1)) :=
    Prod.Lex.toLex_lt_toLex.mpr (Or.inl (h.score_lt _))
  obtain ⟨x, hx, he, -⟩ :=
    @ArgMin.search_spec _ _ _ (fun x => key c.params (pageIdx x)) _ _ ⟨y, hy, hlt⟩
  exact ⟨x, hx, by rw [toEvict_eq, he]⟩

/-! ### One object less -/

/-- The books are kept, and the scores stay small. -/
structure Rep (c : State) (l : List ObjId) : Prop extends Kept c c.params.q l where
  noMd : c.objMdSize = 0
  bounded : Bounded c.params

lemma rep_init (h : 0 ≤ cap) : Rep (tempographInit cap) [] :=
  ⟨kept_init h le_rfl _, rfl, ⟨light_zero, Nat.zero_le _, rfl⟩⟩

/-- The bookkeeping does not depend on what is learned. -/
lemma Rep.withParams (h : Rep c l) (hp : Bounded p) (hq : p.q = c.params.q) :
    Rep { c with params := p } l :=
  ⟨hq ▸ h.toKept.withParams p, h.noMd, hp⟩

/-- The cache without the object `x`. -/
def removed (c : State) (x : ObjId) : State :=
  without c (removeObjFromList c.queue c.params.q x).1
    { c.params with q := (removeObjFromList c.queue c.params.q x).2 } x

lemma Rep.removeObjBase (h : Rep c l) (hx : x ∈ l) :
    cacheRemoveObjBase (withQueue c (removeObjFromList c.queue c.params.q x)) x =
      some (removed c x) := h.toKept.removeObjBase hx _ _

lemma Rep.remove (h : Rep c l) (hx : x ∈ l) : Rep (removed c x) (l.erase x) :=
  ⟨h.without hx _ (removeObjFromList_spec h.list hx), h.noMd,
    ⟨h.bounded.light, h.bounded.size, h.bounded.cap⟩⟩

/-! ### Making room -/

/-- What evictions for an object of some size leave of a queue: all but the last 63 places of
it are as they were, and the last object to go was in the way. -/
structure Culled (T : ObjId → Option ℕ) (cap size : ℤ) (l rest : List ObjId) : Prop where
  sub : rest.Sublist l
  spared : l.take (rest.length - (sampleSize - 1)) <+: rest
  needed : rest = l ∨ ∃ y ∈ l, y ∉ rest ∧ cap < bytes 0 T (y :: rest) + size

lemma culled_refl (T : ObjId → Option ℕ) (cap size : ℤ) (l : List ObjId) :
    Culled T cap size l l := ⟨List.Sublist.refl l, List.take_prefix _ l, Or.inl rfl⟩

/-- One more object goes. -/
lemma Culled.erase {size : ℤ} {a b : List ObjId} (h : Culled T cap size l (a ++ x :: b))
    (hnd : l.Nodup) (hb : b.length < sampleSize) (hfull : cap < bytes 0 T (a ++ x :: b) + size) :
    Culled T cap size l ((a ++ x :: b).erase x) := by
  have hnd' := hnd.sublist h.sub
  have hmem : x ∈ a ++ x :: b := by simp
  have hbytes := @bytes_erase _ x T 0 hmem
  have hlen := List.length_erase_of_mem hmem
  refine ⟨List.erase_sublist.trans h.sub, ?_, Or.inr ⟨x, h.sub.subset hmem, hnd'.not_mem_erase, ?_⟩⟩
  · rw [hlen, split_erase hnd']
    have hle : l.take ((a ++ x :: b).length - 1 - (sampleSize - 1)) <+: a ++ x :: b :=
      (List.take_prefix_take_left (by omega)).trans h.spared
    refine (List.prefix_of_prefix_length_le hle (List.prefix_append a _) ?_).trans
      (List.prefix_append a b)
    refine (List.length_take_le _ _).trans ?_
    simp only [List.length_append, List.length_cons] at *
    omega
  · rw [bytes_cons, hbytes]
    exact hfull

lemma Rep.evict (h : Rep c l) (req : Request) (hne : l ≠ []) :
    ∃ a x b, l = a ++ x :: b ∧ b.length < sampleSize ∧ tempographToEvict c = some x ∧
      tempographEvict c req = some (removed c x) := by
  have hs : sample c ≠ [] := by
    rw [sample, h.list.follow_prev]
    simp [sampleSize, List.take_eq_nil_iff, hne]
  obtain ⟨x, hx, he⟩ := toEvict_mem h.bounded hs
  obtain ⟨a, b, rfl, hb⟩ := h.list.split_of_mem_follow hx
  refine ⟨a, x, b, rfl, hb, he, ?_⟩
  simp only [tempographEvict, he, cacheEvictBase]
  exact h.removeObjBase (by simp)

/-- The cache after some evictions, against the one before. -/
structure Evicted (c : State) (l : List ObjId) (size : ℤ) (c' : State) (rest : List ObjId) :
    Prop where
  rep : Rep c' rest
  culled : Culled c.hashtable c.cacheSize size l rest
  table : ∀ x, c'.hashtable x = if x ∈ rest then c.hashtable x else none
  cacheSize : c'.cacheSize = c.cacheSize
  params : c'.params = { c.params with q := c'.params.q }
  first : rest = l ∧ c' = c ∨ ∃ y ∈ l, tempographToEvict c = some y ∧ y ∉ rest

lemma Evicted.occupied {c' : State} {size : ℤ} (h : Evicted c l size c' rest) :
    c'.occupiedByte = bytes 0 c.hashtable rest := by
  rw [h.rep.occupied, h.rep.noMd, bytes_congr fun x hx => by rw [h.table, if_pos hx]]

lemma Rep.evicted_refl (h : Rep c l) (size : ℤ) : Evicted c l size c l := by
  refine ⟨h, culled_refl _ _ _ l, fun x => ?_, rfl, rfl, Or.inl ⟨rfl, rfl⟩⟩
  split_ifs with hx
  · rfl
  · by_contra hne
    exact hx ((h.resident x).mpr hne)

lemma Evicted.step {c' : State} {size : ℤ} {a b : List ObjId} (hl : l.Nodup)
    (h : Evicted c l size c' (a ++ x :: b)) (hb : b.length < sampleSize)
    (he : tempographToEvict c' = some x)
    (hfull : c.cacheSize < bytes 0 c.hashtable (a ++ x :: b) + size) :
    Evicted c l size (removed c' x) ((a ++ x :: b).erase x) where
  rep := h.rep.remove (by simp)
  culled := h.culled.erase hl hb hfull
  table y := by
    have hmem := h.rep.list.nodup.mem_erase_iff (a := y) (b := x)
    by_cases hyx : y = x
    · have hnot : ¬y ∈ (a ++ x :: b).erase x := fun hm => (hmem.mp hm).1 hyx
      rw [if_neg hnot]
      simp [removed, without, hyx]
    · simp [removed, without, hmem, hyx, h.table]
  cacheSize := h.cacheSize
  params := congrArg (fun p : Params => { p with q := (removed c' x).params.q }) h.params
  first := by
    have hnd := h.rep.list.nodup
    rcases h.first with ⟨rfl, rfl⟩ | ⟨y, hy, hey, hnot⟩
    · exact Or.inr ⟨x, by simp, he, hnd.not_mem_erase⟩
    · exact Or.inr ⟨y, hy, hey, fun hm => hnot (List.mem_of_mem_erase hm)⟩

/-- **Room is made** for every object that is not larger than the cache. -/
lemma Rep.makeRoom (h : Rep c l) (hcan : req.objSize ≤ c.cacheSize) :
    ∃ c' rest, makeRoom tempographEvict (c.nObj.toNat + 1) c req = some c' ∧
      Evicted c l req.objSize c' rest ∧
      bytes 0 c.hashtable rest + req.objSize ≤ c.cacheSize := by
  obtain ⟨c', hm, ⟨rest, he⟩, hroom⟩ := @makeRoom_spec _ c req _ tempographEvict
    (fun c' => ∃ rest, Evicted c l req.objSize c' rest) ⟨l, h.evicted_refl _⟩
    (Nat.lt_succ_self _) fun c₁ ⟨rest, he⟩ hfull => by
      rw [he.occupied, he.rep.noMd, he.cacheSize, add_zero] at hfull
      have hne : rest ≠ [] := by
        rintro rfl
        rw [bytes_nil] at hfull
        omega
      obtain ⟨a, x, b, rfl, hb, hto, hev⟩ := he.rep.evict req hne
      refine ⟨_, hev, ⟨_, he.step h.list.nodup hb hto hfull⟩, ?_⟩
      have hpos : 0 < (a ++ x :: b).length := by simp
      have hn := he.rep.nObj
      have hn' : (removed c₁ x).nObj = c₁.nObj - 1 := rfl
      omega
  refine ⟨c', rest, hm, he, ?_⟩
  rw [he.occupied, he.rep.noMd, he.cacheSize, add_zero] at hroom
  exact hroom

/-! ### One object more -/

/-- What an access that is not refused learns. -/
def learn (p : Params) (idx : ℕ) : Params := slideWindow (updateGraph (stamp p idx) idx) idx

lemma Bounded.learn (h : Bounded p) (idx : ℕ) (q : Ends ObjId) :
    Bounded { learn p idx with q := q } where
  light := TgVictim.light_addEdges h.light _ _
  size := by
    show (if p.win.size < p.win.W then p.win.size + 1 else p.win.size) ≤ p.win.W
    have hle := h.size
    split_ifs <;> omega
  cap := h.cap

/-- The cache with the object of a request. -/
def added (c : State) (req : Request) : State :=
  withObj c (prependObjToHead c.queue c.params.q req.objId).1
    { learn c.params (pageIdx req.objId) with
      q := (prependObjToHead c.queue c.params.q req.objId).2 } req

lemma Rep.insert (h : Rep c l) (hx : req.objId ∉ l) :
    tempographInsert c req = some (added c req) := by
  simp only [tempographInsert, h.insertBase hx]
  rfl

lemma Rep.add (h : Rep c l) (hx : req.objId ∉ l) (hs : 0 ≤ req.objSize)
    (hroom : c.occupiedByte + req.objSize ≤ c.cacheSize) :
    Rep (added c req) (req.objId :: l) := by
  have hmd := h.noMd
  have hlt := storedSize_lt req.objSize
  exact ⟨h.withObj hx hs (by omega) (by omega) _ (prependObjToHead_spec h.list hx), hmd,
    h.bounded.learn _ _⟩

/-! ### One call -/

/-- What a request does to the table and the queue, and its answer. -/
inductive Got (T : ObjId → Option ℕ) (cap : ℤ) (l : List ObjId) (req : Request) :
    Bool → (ObjId → Option ℕ) → List ObjId → Prop
  | hit : req.objId ∈ l → Got T cap l req true T (touch req.objId l)
  | refused : req.objId ∉ l → cap < req.objSize → Got T cap l req false T l
  | loaded {rest : List ObjId} : req.objId ∉ l → req.objSize ≤ cap →
      Culled T cap req.objSize l rest → bytes 0 T rest + req.objSize ≤ cap →
      Got T cap l req false (fun x => if x = req.objId then some (storedSize req.objSize)
        else if x ∈ rest then T x else none) (req.objId :: rest)

/-- What a request teaches: if the object was refused, only that there was a request. -/
def taught (cap : ℤ) (p : Params) (req : Request) (hit : Bool) : Params :=
  if hit = false ∧ cap < req.objSize then tick p else learn (tick p) (pageIdx req.objId)

lemma tick_q (p : Params) : (tick p).q = p.q := by
  unfold tick
  dsimp only
  split_ifs <;> rfl

lemma Rep.hit (h : Rep c l) (hx : req.objId ∈ l) :
    ∃ k d, tempographGet c req = some ({ c with
        queue := k, params := { learn (tick c.params) (pageIdx req.objId) with q := d } }, true) ∧
      Rep { c with
        queue := k, params := { learn (tick c.params) (pageIdx req.objId) with q := d } }
        (touch req.objId l) := by
  obtain ⟨k, d, hm, hl⟩ := moveObjToHead_spec h.list hx
  have hfind := h.present hx
  refine ⟨k, d, ?_, h.touch hx _ hl, h.noMd, h.bounded.tick.learn _ _⟩
  have hq : (stamp (tick c.params) (pageIdx req.objId)).q = c.params.q := tick_q c.params
  simp only [tempographGet, cacheGetBase, tempographFind, cacheFindBase, hfind, if_true, hq, hm]
  rfl

lemma Rep.refused (h : Rep c l) (hx : req.objId ∉ l) (hlarge : c.cacheSize < req.objSize) :
    tempographGet c req = some ({ c with params := tick c.params }, false) := by
  have hfind := h.absent hx
  have hmd := h.noMd
  have hcan : req.objSize + c.objMdSize > c.cacheSize := by omega
  simp [tempographGet, cacheGetBase, tempographFind, cacheFindBase, hfind,
    cacheCanInsertDefault, hcan]

lemma Rep.loaded (h : Rep c l) (hx : req.objId ∉ l) (hs : 0 ≤ req.objSize)
    (hfit : req.objSize ≤ c.cacheSize) :
    ∃ c' rest, tempographGet c req = some (c', false) ∧ Rep c' (req.objId :: rest) ∧
      Culled c.hashtable c.cacheSize req.objSize l rest ∧
      bytes 0 c.hashtable rest + req.objSize ≤ c.cacheSize ∧
      c'.hashtable = (fun x => if x = req.objId then some (storedSize req.objSize)
        else if x ∈ rest then c.hashtable x else none) ∧
      c'.cacheSize = c.cacheSize ∧
      c'.params = { learn (tick c.params) (pageIdx req.objId) with q := c'.params.q } ∧
      (rest = l ∨ ∃ y ∈ l, tempographToEvict { c with params := tick c.params } = some y ∧
        y ∉ rest) := by
  have ht : Rep { c with params := tick c.params } l := h.withParams h.bounded.tick (tick_q _)
  have hfind := h.absent hx
  have hmd := h.noMd
  have hcan : ¬req.objSize + c.objMdSize > c.cacheSize := by omega
  obtain ⟨c₁, rest, hm, he, hroom⟩ := ht.makeRoom hfit
  have hnew : req.objId ∉ rest := fun hm => hx (he.culled.sub.subset hm)
  have hins := he.rep.insert hnew
  have hr := he.rep.add hnew hs (by
    rw [he.occupied, he.cacheSize]
    exact hroom)
  refine ⟨added c₁ req, rest, ?_, hr, he.culled, hroom, ?_, he.cacheSize, ?_,
    he.first.imp_left And.left⟩
  · simp only [tempographGet, cacheGetBase, tempographFind, cacheFindBase, hfind,
      cacheCanInsertDefault, hcan]
    simp [hm, hins]
  · funext y
    simp only [added, withObj, Function.update_apply, he.table]
  · exact congrArg (fun p : Params => { learn p (pageIdx req.objId) with
      q := (added c₁ req).params.q }) he.params

/-- **A request** to a cache whose books are in order. -/
theorem Rep.get (h : Rep c l) (hs : 0 ≤ req.objSize) :
    ∃ c' o l', tempographGet c req = some (c', o) ∧ Rep c' l' ∧
      Got c.hashtable c.cacheSize l req o c'.hashtable l' ∧ c'.cacheSize = c.cacheSize ∧
      c'.params = { taught c.cacheSize c.params req o with q := c'.params.q } := by
  by_cases hx : req.objId ∈ l
  · obtain ⟨k, d, hg, hr⟩ := h.hit hx
    exact ⟨_, true, _, hg, hr, .hit hx, rfl, by simp [taught]⟩
  · by_cases hlarge : c.cacheSize < req.objSize
    · refine ⟨_, false, l, h.refused hx hlarge, h.withParams h.bounded.tick (tick_q _),
        .refused hx hlarge, rfl, by simp [taught, hlarge]⟩
    · obtain ⟨c', rest, hg, hr, hcull, hroom, htab, hcap, hpar, -⟩ :=
        h.loaded hx hs (not_lt.mp hlarge)
      refine ⟨c', false, _, hg, hr, ?_, hcap, ?_⟩
      · rw [htab]
        exact .loaded hx (not_lt.mp hlarge) hcull hroom
      · rw [taught, if_neg fun hh => hlarge hh.2]
        exact hpar

/-- **A removal** takes out the object if it is there, and teaches nothing. -/
theorem Rep.removal (h : Rep c l) (x : ObjId) :
    ∃ c', tempographRemove c x = some (c', decide (x ∈ l)) ∧ Rep c' (l.erase x) ∧
      c'.hashtable = Function.update c.hashtable x none ∧ c'.cacheSize = c.cacheSize ∧
      c'.params = { c.params with q := c'.params.q } := by
  by_cases hx : x ∈ l
  · obtain ⟨size, hsize⟩ := Option.ne_none_iff_exists'.mp ((h.resident x).mp hx)
    refine ⟨removed c x, ?_, h.remove hx, rfl, rfl, rfl⟩
    simp only [tempographRemove, hsize, h.removeObjBase hx, Option.map_some, hx, decide_true]
  · have hnone := h.absent hx
    refine ⟨c, by simp [tempographRemove, hnone, hx], ?_, ?_, rfl, rfl⟩
    · rwa [List.erase_of_not_mem hx]
    · rw [← hnone, Function.update_eq_self]

/-! ### Whole sessions -/

/-- A call of the cache. -/
inductive Call
  | get (req : Request)
  | remove (obj_id : ObjId)

def step (c : State) : Call → Option (State × Bool)
  | .get req => tempographGet c req
  | .remove obj_id => tempographRemove c obj_id

/-- What a call does to the table `T` and the queue `l`, and its answer `o`. -/
def Did (T : ObjId → Option ℕ) (cap : ℤ) (l : List ObjId) (call : Call) (o : Bool)
    (T' : ObjId → Option ℕ) (l' : List ObjId) : Prop :=
  match call with
  | .get req => Got T cap l req o T' l'
  | .remove x => o = decide (x ∈ l) ∧ T' = Function.update T x none ∧ l' = l.erase x

/-- What a call teaches, and its answer is `o`: a removal nothing. -/
def told (cap : ℤ) (p : Params) (call : Call) (o : Bool) : Params :=
  match call with
  | .get req => taught cap p req o
  | .remove _ => p

/-- A size is not negative. -/
def Sized : Call → Prop
  | .get req => 0 ≤ req.objSize
  | .remove _ => True

lemma Rep.step (h : Rep c l) {call : Call} (hs : Sized call) :
    ∃ c' o l', step c call = some (c', o) ∧ Rep c' l' ∧ c'.cacheSize = c.cacheSize ∧
      Did c.hashtable c.cacheSize l call o c'.hashtable l' ∧
      c'.params = { told c.cacheSize c.params call o with q := c'.params.q } := by
  cases call with
  | get req =>
    have hsize : 0 ≤ req.objSize := hs
    obtain ⟨c', o, l', hg, hr, hgot, hcap, hpar⟩ := h.get hsize
    exact ⟨c', o, l', hg, hr, hcap, hgot, hpar⟩
  | remove x =>
    obtain ⟨c', hg, hr, htab, hcap, hpar⟩ := h.removal x
    exact ⟨c', _, _, hg, hr, hcap, ⟨rfl, htab, rfl⟩, hpar⟩

end Tempograph.TgPlugin
