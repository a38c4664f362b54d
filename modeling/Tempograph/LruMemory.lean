import Tempograph.Calls
import Tempograph.HashMaps
import Tempograph.Pointers

/-!
`lru.c` down to its pointers.

Nodes and hash map entries come from one `malloc`, and every access asks whether its record
is in use. The model of the policy, which has the hash map as a whole, is what this program
does as long as all checks pass; here it is shown that they always do, and that a reset
leaves nothing behind.
-/

namespace Tempograph.LruMemory

open Common ChainMap LinkedList Recency Pointers HashMaps Runs Calls

structure State where
  page : ℕ → Page
  links : Links ℕ
  /-- The nodes allocated and not freed. -/
  live : List ℕ
  /-- The buckets and the entries. -/
  hmap : Memory
  ends : Ends ℕ
  size : ℤ
  capacity : ℤ

/-- The static variables when the program starts. -/
def start : State where
  page := fun _ => 0
  links := ⟨fun _ => none, fun _ => none⟩
  live := []
  hmap := ⟨fun _ => ⟨0, 0, none⟩, fun _ => none, []⟩
  ends := Ends.empty
  size := 0
  capacity := 0

def hmGet (s : State) (key : Page) : Option (Option ℕ) := Pointers.get Lru.hmHash s.hmap key

/-- A new entry takes an address that no node and no entry uses. -/
def hmPut (M : Malloc) (s : State) (key : Page) (val : ℕ) : Option State :=
  (Pointers.put Lru.hmHash (fun entries => M.pick (s.live ++ entries)) s.hmap key val).map
    fun m => { s with hmap := m }

def hmDel (s : State) (key : Page) : Option State :=
  (Pointers.del Lru.hmHash s.hmap key).map fun m => { s with hmap := m }

def listRemove (s : State) (n : ℕ) : Option State :=
  (remove s.live s.links s.ends n).map fun p => { s with links := p.1, ends := p.2 }

def listPushFront (s : State) (n : ℕ) : Option State :=
  (pushFront s.live s.links s.ends n).map fun p => { s with links := p.1, ends := p.2 }

def lruReset (s : State) : Option State := do
  let live ← freeAll s.links.next (s.live.length + 1) s.live s.ends.head
  let m ← freeChains s.hmap Lru.hmSize
  some { s with live := live, ends := Ends.empty, size := 0, capacity := 0, hmap := m }

def lruInit (s : State) (n_frames : ℤ) : Option State :=
  (lruReset s).map fun s => { s with capacity := n_frames }

/-- Forget the page of `victim`, unlink the node and free it. -/
def drop (s : State) (victim : ℕ) : Option State := do
  let page ← deref s.live victim (s.page victim)
  let s ← hmDel s page
  let s ← listRemove s victim
  let live ← free s.live victim
  some { s with live := live, size := s.size - 1 }

/-- Evict the tail, if the cache is full. -/
def evict (s : State) : Option State :=
  if s.size = s.capacity then
    match s.ends.tail with
    | none => none
    | some victim => drop s victim
  else some s

/-- Load a page into a new node at the head. -/
def load (M : Malloc) (s : State) (page : Page) : Option State := do
  let n := M.pick (s.live ++ s.hmap.live)
  let s := { s with
    live := n :: s.live
    page := Function.update s.page n page
    links := ⟨Function.update s.links.prev n none, Function.update s.links.next n none⟩ }
  let s ← listPushFront s n
  let s ← hmPut M s page n
  some { s with size := s.size + 1 }

def lruAccess (M : Malloc) (s : State) (page : Page) : Option (State × Result) := do
  match ← hmGet s page with
  | some n =>
    let s ← listRemove s n
    let s ← listPushFront s n
    some (s, .hit)
  | none =>
    let s ← evict s
    let s ← load M s page
    some (s, .fault)

/-! ### Against the model of the policy -/

variable {M : Malloc} {c : ℕ} {s : State} {l : List ℕ} {t : Table Page ℕ Lru.hmHash}
  {chain : ℕ → List ℕ} {page : Page} {past tr : List Page}

/-- The state with the hash map as a whole. -/
def view (s : State) (t : Table Page ℕ Lru.hmHash) : Lru.State :=
  ⟨s.page, s.links, s.live, t, s.ends, s.size, s.capacity⟩

/-- The records in use are the nodes of the list and the entries of the hash map. -/
structure Owns (s : State) (t : Table Page ℕ Lru.hmHash) (chain : ℕ → List ℕ) : Prop where
  hmap : Owned s.hmap t chain
  nodup : s.live.Nodup
  count : (s.live.length : ℤ) = s.size
  apart : ∀ a ∈ s.live, a ∉ s.hmap.live

/-- The node `n` unlinked, and linked in, without checks. -/
def unlinked (s : State) (n : ℕ) : State :=
  { s with links := s.links.unlink n, ends := s.ends.unlink s.links n }

def linked (s : State) (n : ℕ) : State :=
  { s with links := s.links.pushFront s.ends n, ends := s.ends.pushFront n }

lemma listRemove_eq (h : IsList s.links s.ends l) (hl : l ⊆ s.live) {n : ℕ} (hn : n ∈ l) :
    listRemove s n = some (unlinked s n) := by
  rw [listRemove, remove_eq h hl hn]
  rfl

lemma listPushFront_eq (h : IsList s.links s.ends l) (hl : l ⊆ s.live) {n : ℕ}
    (hn : n ∈ s.live) : listPushFront s n = some (linked s n) := by
  rw [listPushFront, pushFront_eq h hl hn]
  rfl

lemma hmGet_eq (ho : Owns s t chain) (page : Page) : hmGet s page = some (t.get page) :=
  ho.hmap.get_eq page

lemma drop_refines (h : LruExact.Rep c (view s t) l) (ho : Owns s t chain) {v : ℕ} (hv : v ∈ l) :
    ∃ s' t' chain', drop s v = some s' ∧ view s' t' = Lru.drop (view s t) v ∧
      Owns s' t' chain' := by
  have hlive : v ∈ s.live := h.live v hv
  obtain ⟨m, chain', hm, hom, hsub⟩ := ho.hmap.del (s.page v)
  have hdel : hmDel s (s.page v) = some { s with hmap := m } := by rw [hmDel, hm]; rfl
  have hremove := listRemove_eq (s := { s with hmap := m }) h.list h.live hv
  have hfree : free s.live v = some (s.live.erase v) := deref_eq hlive _
  refine ⟨{ unlinked { s with hmap := m } v with live := s.live.erase v, size := s.size - 1 },
    t.del (s.page v), chain', ?_, rfl, hom, ho.nodup.erase v, ?_, fun a ha hma => ?_⟩
  · have hlive' : (unlinked { s with hmap := m } v).live = s.live := rfl
    simp only [drop, deref_eq hlive, hdel, hremove, hlive', hfree, Option.bind_eq_bind,
      Option.bind_some]
    rfl
  · have hpos := List.length_pos_of_mem hlive
    have hcount := ho.count
    simp only [List.length_erase_of_mem hlive]
    omega
  · exact ho.apart a (List.mem_of_mem_erase ha) (hsub hma)

/-- Eviction passes the checks. -/
lemma evict_refines (hc : 1 ≤ c) (h : LruExact.Rep c (view s t) l) (hlen : l.length ≤ c)
    (ho : Owns s t chain) :
    ∃ s' t' chain', evict s = some s' ∧ Lru.evict (view s t) = some (view s' t') ∧
      Owns s' t' chain' := by
  obtain ⟨u, hu, -⟩ := LruExact.evict_spec hc h hlen
  unfold Lru.evict at hu ⊢
  unfold evict
  by_cases hfull : s.size = s.capacity
  · rw [if_pos hfull]
    rw [if_pos (show (view s t).size = (view s t).capacity from hfull)] at hu ⊢
    cases htail : s.ends.tail with
    | none =>
      rw [show (view s t).ends.tail = none from htail] at hu
      cases hu
    | some v =>
      have hv : v ∈ l := List.mem_of_getLast? (h.list.tail.symm.trans htail)
      obtain ⟨s', t', chain', h1, h2, h3⟩ := drop_refines h ho hv
      rw [show (view s t).ends.tail = some v from htail]
      exact ⟨s', t', chain', h1, by rw [h2], h3⟩
  · rw [if_neg hfull]
    rw [if_neg (show ¬(view s t).size = (view s t).capacity from hfull)]
    exact ⟨s, t, chain, rfl, rfl, ho⟩

/-- A new node and its entry get addresses of their own. -/
lemma load_refines (M : Malloc) (h : LruExact.Rep c (view s t) l) (ho : Owns s t chain)
    (page : Page) :
    ∃ s' t' chain', load M s page = some s' ∧
      view s' t' = Lru.load (beside M s.hmap.live) (view s t) page ∧ Owns s' t' chain' := by
  obtain ⟨n, hn⟩ : ∃ n, n = M.pick (s.live ++ s.hmap.live) := ⟨_, rfl⟩
  have hfresh : n ∉ s.live ∧ n ∉ s.hmap.live := hn ▸ fresh_apart M.fresh s.live s.hmap.live
  obtain ⟨s₁, hs₁⟩ : ∃ s₁ : State, s₁ = { s with
      live := n :: s.live
      page := Function.update s.page n page
      links := ⟨Function.update s.links.prev n none, Function.update s.links.next n none⟩ } :=
    ⟨_, rfl⟩
  have hlist : IsList s₁.links s₁.ends l := by
    rw [hs₁]
    exact alloc_list h.list fun hl => hfresh.1 (h.live n hl)
  have hpush := listPushFront_eq (s := s₁) (n := n) hlist
    (by rw [hs₁]; exact fun a ha => List.mem_cons_of_mem _ (h.live a ha))
    (by rw [hs₁]; exact List.mem_cons_self)
  obtain ⟨m, chain', hm, hom, hapart⟩ := ho.hmap.put_apart M.fresh
    (List.forall_mem_cons.mpr ⟨hfresh.2, ho.apart⟩) page n
  have hput : hmPut M (linked s₁ n) page n = some { linked s₁ n with hmap := m } := by
    rw [hs₁, hmPut]
    exact congrArg _ hm
  refine ⟨{ linked s₁ n with hmap := m, size := s₁.size + 1 }, t.put page n, chain', ?_, ?_, hom,
    ?_, ?_, ?_⟩
  · simp only [load, ← hn, ← hs₁, hpush, hput, Option.bind_eq_bind, Option.bind_some]
    rfl
  · subst hs₁ hn
    rfl
  · rw [hs₁]
    exact List.nodup_cons.mpr ⟨hfresh.1, ho.nodup⟩
  · have hcount := ho.count
    rw [hs₁]
    show (((n :: s.live).length : ℕ) : ℤ) = s.size + 1
    rw [List.length_cons]
    omega
  · rw [hs₁]
    exact hapart

/-- **One access** passes all checks, and does what the policy does with some `malloc`. -/
theorem access_refines (M : Malloc) (hc : 1 ≤ c) (h : LruExact.Rep c (view s t) l)
    (hlen : l.length ≤ c) (ho : Owns s t chain) (page : Page) :
    ∃ s' r t' chain' M', lruAccess M s page = some (s', r) ∧
      Lru.lruAccess M' (view s t) page = some (view s' t', r) ∧ Owns s' t' chain' := by
  have hget : Lru.hmGet (view s t) page = t.get page := rfl
  cases hg : t.get page with
  | some n =>
    obtain ⟨hn, -⟩ := (h.get page n).mp (hget.trans hg)
    have hremove := listRemove_eq (s := s) h.list h.live hn
    have hpush := listPushFront_eq (s := unlinked s n) (h.list.unlink hn)
      (fun a ha => h.live a (List.mem_of_mem_erase ha)) (h.live n hn)
    refine ⟨linked (unlinked s n) n, .hit, t, chain, M, ?_, ?_,
      ⟨ho.hmap, ho.nodup, ho.count, ho.apart⟩⟩
    · simp only [lruAccess, hmGet_eq ho, hg, hremove, hpush, Option.bind_eq_bind,
        Option.bind_some]
    · simp only [Lru.lruAccess, hget, hg]
      rfl
  | none =>
    obtain ⟨s₁, t₁, chain₁, he, hve, ho₁⟩ := evict_refines hc h hlen ho
    obtain ⟨u, hu, hr, -⟩ := LruExact.evict_spec hc h hlen
    obtain rfl : view s₁ t₁ = u := Option.some.inj (hve.symm.trans hu)
    obtain ⟨s₂, t₂, chain₂, hl, hvl, ho₂⟩ := load_refines M hr ho₁ page
    refine ⟨s₂, .fault, t₂, chain₂, beside M s₁.hmap.live, ?_, ?_, ho₂⟩
    · simp only [lruAccess, hmGet_eq ho, hg, he, hl, Option.bind_eq_bind, Option.bind_some]
    · simp only [Lru.lruAccess, hget, hg, hve, ← hvl]

/-! ### Every program -/

/-- Nothing is in use. -/
structure Clean (s : State) : Prop where
  live : s.live = []
  entries : s.hmap.live = []
  buckets : ∀ b, s.hmap.bucket b = none
  ends : s.ends = Ends.empty

/-- In a session the state is that of the policy, and owns what is in use. -/
def Open (n : ℕ) (tr : List Page) (s : State) : Prop :=
  ∃ t chain, LruExact.Inv n tr (view s t) ∧ Owns s t chain

lemma Owns.diff_eq_nil (ho : Owns s t chain) (h : LruExact.Rep c (view s t) l) :
    s.live.diff l = [] := by
  have hlen : s.live.length = l.length := by
    have h1 := ho.count
    have h2 : s.size = l.length := h.size
    omega
  have hperm := (List.subperm_of_subset h.list.nodup h.live).perm_of_length_le hlen.le
  exact List.eq_nil_iff_forall_not_mem.mpr fun a ha => by
    obtain ⟨h1, h2⟩ := ho.nodup.mem_sdiff_iff.mp ha
    exact h2 (hperm.mem_iff.mpr h1)

/-- A reset frees every record once. -/
lemma reset_spec {x : Session} (h : Calls.Holds Clean Open x s) :
    ∃ s', lruReset s = some s' ∧ Clean s' := by
  have hfree : ∃ (t : Table Page ℕ Lru.hmHash) (chain : ℕ → List ℕ), Owned s.hmap t chain ∧
      freeAll s.links.next (s.live.length + 1) s.live s.ends.head = some [] := by
    cases x with
    | none =>
      refine ⟨_, _, owned_empty h.buckets h.entries, ?_⟩
      rw [h.ends, h.live]
      rfl
    | some x =>
      obtain ⟨-, t, chain, ⟨l, hr, -⟩, ho⟩ := h
      exact ⟨t, chain, ho.hmap, (freeAll_list hr.list hr.live).trans
        (congrArg some (ho.diff_eq_nil hr))⟩
  obtain ⟨t, chain, hmap, hnodes⟩ := hfree
  have hsize (q : Page) : Lru.hmHash q < Lru.hmSize := Nat.mod_lt _ (by decide)
  obtain ⟨m, hm, hlive, hb⟩ := hmap.freeChains hsize
  refine ⟨{ s with live := [], ends := Ends.empty, size := 0, capacity := 0, hmap := m },
    ?_, rfl, hlive, hb, rfl⟩
  simp only [lruReset, hnodes, hm, Option.bind_eq_bind, Option.bind_some]

lemma init_spec {x : Session} (h : Calls.Holds Clean Open x s) (n : ℕ) :
    ∃ s', lruInit s n = some s' ∧ Open n [] s' := by
  obtain ⟨s', hs', hc⟩ := reset_spec h
  have hsize : s'.size = 0 := by
    obtain ⟨live, -, h⟩ := Option.bind_eq_some_iff.mp hs'
    obtain ⟨m, -, h⟩ := Option.bind_eq_some_iff.mp h
    cases h
    rfl
  refine ⟨{ s' with capacity := n }, by rw [lruInit, hs']; rfl, Table.empty, fun _ => [],
    ⟨[], ⟨?_, hsize, rfl, fun q a => by simp [Lru.hmGet, view], by simp⟩, by simp⟩,
    ⟨owned_empty hc.buckets hc.entries, ?_, ?_, ?_⟩⟩
  · show IsList s'.links s'.ends []
    rw [hc.ends]
    exact isList_nil _
  · simp [hc.live]
  · simp [hc.live, hsize]
  · simp [hc.live]

lemma access_open (M : Malloc) {n : ℕ} (hn : 1 ≤ n) (h : Open n tr s) (page : Page) :
    ∃ s' r, lruAccess M s page = some (s', r) ∧ Open n (tr ++ [page]) s' ∧
      answer .lru (some (n, tr)) (.access page) = some r := by
  obtain ⟨t, chain, hinv, ho⟩ := h
  obtain ⟨l, hr, hl⟩ := id hinv
  have hlen : l.length ≤ n := by
    rw [← List.length_map (f := (view s t).page), hl]
    exact List.length_take_le _ _
  obtain ⟨s', r, t', chain', M', ha, hm, ho'⟩ := access_refines M hn hr hlen ho page
  obtain ⟨u, r', hu, hinv', hhit⟩ := LruExact.inv_step M' hn hinv page
  obtain ⟨rfl, rfl⟩ := Prod.mk.inj (Option.some.inj (hm.symm.trans hu))
  refine ⟨s', r, ha, ⟨t', chain', hinv', ho'⟩, ?_⟩
  rw [lru_answer hn]
  cases r with
  | hit => rw [if_pos (hhit.mp rfl)]
  | fault => rw [if_neg fun hq => by cases hhit.mpr hq]

/-- What is in use in a session. -/
lemma Open.memory {n : ℕ} (h : Open n tr s) :
    s.live.length = min n tr.toFinset.card ∧ s.hmap.live.length = s.live.length ∧
      ∀ a ∈ s.live, a ∉ s.hmap.live := by
  obtain ⟨t, chain, ⟨l, hr, hl⟩, ho⟩ := h
  have hlen : s.live.length = (l.map s.page).length := by
    have h1 := ho.count
    have h2 : s.size = l.length := hr.size
    rw [List.length_map]
    omega
  have hpages : l.map s.page = (recency tr).take n := hl
  refine ⟨by rw [hlen, hpages, List.length_take, length_recency], ?_, ho.apart⟩
  have hnd : (l.map s.page).Nodup := by
    rw [hpages]
    exact (nodup_recency tr).sublist (List.take_sublist _ _)
  rw [hlen]
  refine ho.hmap.length hnd fun q => ?_
  rw [Option.ne_none_iff_exists', List.mem_map]
  exact exists_congr fun a => ((hr.get q a).symm)

def policy (M : Malloc) : Policy State := ⟨lruInit, lruAccess M, lruReset⟩

/-- **`lru.c` is memory safe.** Every program that initialises it before it accesses it runs
to its end: no access through a freed address, no address freed twice. It answers as the
model of the policy. In a session with `n` frames there are as many nodes in use as pages
held, as many entries, and none is both; outside a session there is nothing in use. -/
theorem lru_memory_safe (M : Malloc) (calls : List Call) (hv : Valid calls) :
    ∃ s os, run (policy M).call start calls = some (s, os) ∧
      (∀ k (hk : k < calls.length) (hk' : k < os.length),
        os[k] = answer .lru (session (calls.take k)) calls[k]) ∧
      match session calls with
      | none => s.live = [] ∧ s.hmap.live = []
      | some (n, tr) => s.live.length = min n tr.toFinset.card ∧
          s.hmap.live.length = s.live.length ∧ ∀ a ∈ s.live, a ∉ s.hmap.live := by
  obtain ⟨s, os, hrun, hholds, hos⟩ := @calls_run _ (policy M) .lru Clean Open start
    ⟨rfl, rfl, fun _ => rfl, rfl⟩ (fun x s n h _ => init_spec h n)
    (fun n tr s page hn h => access_open M hn h page) (fun x s h => reset_spec h) _ hv
  refine ⟨s, os, hrun, hos, ?_⟩
  cases hx : session calls with
  | none =>
    rw [hx] at hholds
    exact ⟨hholds.live, hholds.entries⟩
  | some x =>
    rw [hx] at hholds
    exact hholds.2.memory

/-- The theorem at two passes, the second one left open after an eviction. -/
theorem lru_memory_safe_two :
    Valid [.init 2, .access 7, .reset, .init 1, .access 7, .access 9] ∧
      ∃ s os, run (policy Malloc.above).call start
          [.init 2, .access 7, .reset, .init 1, .access 7, .access 9] = some (s, os) ∧
        s.live.length = 1 ∧ s.hmap.live.length = 1 := by
  have hv : Valid [.init 2, .access 7, .reset, .init 1, .access 7, .access 9] := by decide
  obtain ⟨s, os, hrun, -, h1, h2, -⟩ := lru_memory_safe Malloc.above _ hv
  exact ⟨hv, s, os, hrun, h1, h2.trans h1⟩

end Tempograph.LruMemory
