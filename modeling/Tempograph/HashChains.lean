import Tempograph.ChainMap
import Tempograph.Runs

/-!
Hash tables with chaining, in memory.

An entry is a record with a link to the next entry of its chain, and a table is an array of
links to the first entries. A lookup walks a chain; a removal walks it with a pointer to the
link it has followed last, so that it can write that link, be it in the array or in an
entry. The tables of `ChainMap` are what such memories hold.

A walk takes a bound on its steps and has no result if it does not end within it.
-/

namespace Tempograph.HashChains

open ChainMap Runs

variable {κ β : Type*}

structure Entry (κ β : Type*) where
  key : κ
  val : β
  next : Option ℕ

structure Heap (κ β : Type*) where
  entry : ℕ → Entry κ β
  bucket : ℕ → Option ℕ
  /-- The addresses in use. -/
  live : List ℕ

/-- Where a link is stored. -/
inductive Place
  | bucket (b : ℕ)
  | next (a : ℕ)
  deriving DecidableEq

def Heap.read (m : Heap κ β) : Place → Option ℕ
  | .bucket b => m.bucket b
  | .next a => (m.entry a).next

def Heap.write (m : Heap κ β) (pp : Place) (i : Option ℕ) : Heap κ β :=
  match pp with
  | .bucket b => { m with bucket := Function.update m.bucket b i }
  | .next a => { m with entry := Function.update m.entry a { m.entry a with next := i } }

section Operations

variable [DecidableEq κ] (hash : κ → ℕ) (alloc : List ℕ → ℕ)

/-- Walk from `i` to the first entry for `k`, or to the end of the chain. -/
def seek (m : Heap κ β) (k : κ) : ℕ → Option ℕ → Option (Option ℕ)
  | 0, _ => none
  | _ + 1, none => some none
  | fuel + 1, some a =>
    if (m.entry a).key = k then some (some a) else seek m k fuel (m.entry a).next

/-- No chain has more entries than there are addresses in use. -/
def find (m : Heap κ β) (k : κ) : Option (Option ℕ) :=
  seek m k (m.live.length + 1) (m.bucket (hash k))

def get (m : Heap κ β) (k : κ) : Option (Option β) :=
  (find hash m k).map fun e => e.map fun a => (m.entry a).val

/-- Overwrite the entry for `k`, or put a new entry before the first one of the chain. -/
def put (m : Heap κ β) (k : κ) (v : β) : Option (Heap κ β) :=
  match find hash m k with
  | none => none
  | some (some a) => some { m with entry := Function.update m.entry a { m.entry a with val := v } }
  | some none =>
    let a := alloc m.live
    some
      { entry := Function.update m.entry a ⟨k, v, m.bucket (hash k)⟩
        bucket := Function.update m.bucket (hash k) (some a)
        live := a :: m.live }

/-- Walk with a pointer to the last link; write the link to the first entry for `k`, and free
the entry. -/
def unlink (m : Heap κ β) (k : κ) : ℕ → Place → Option (Heap κ β)
  | 0, _ => none
  | fuel + 1, pp =>
    match m.read pp with
    | none => some m
    | some a =>
      if (m.entry a).key = k then
        some { m.write pp (m.entry a).next with live := m.live.erase a }
      else unlink m k fuel (.next a)

def del (m : Heap κ β) (k : κ) : Option (Heap κ β) :=
  unlink m k (m.live.length + 1) (.bucket (hash k))

end Operations

/-! ### Chains -/

/-- The entries from the link `i` on, to the end. -/
def Linked (entry : ℕ → Entry κ β) : Option ℕ → List ℕ → Prop
  | i, [] => i = none
  | i, a :: as => i = some a ∧ Linked entry (entry a).next as

/-- What an entry holds. -/
def pair (m : Heap κ β) (a : ℕ) : κ × β := ((m.entry a).key, (m.entry a).val)

variable {m m' : Heap κ β} {i : Option ℕ} {as : List ℕ} {k : κ} {v : β} {fuel : ℕ}

lemma read_write (m : Heap κ β) (pp q : Place) (i : Option ℕ) :
    (m.write pp i).read q = if q = pp then i else m.read q := by
  cases pp <;> cases q <;> simp [Heap.write, Heap.read, Function.update_apply, apply_ite Entry.next]

/-- Writing a link changes no key and no value. -/
lemma pair_write (m : Heap κ β) (pp : Place) (i : Option ℕ) (a : ℕ) :
    pair (m.write pp i) a = pair m a := by
  cases pp with
  | bucket b => rfl
  | next c =>
    by_cases hac : a = c
    · simp [pair, Heap.write, hac]
    · simp [pair, Heap.write, hac]

lemma Linked.unique {entry : ℕ → Entry κ β} {bs : List ℕ} (h : Linked entry i as)
    (h' : Linked entry i bs) : as = bs := by
  induction as generalizing i bs with
  | nil =>
    cases bs with
    | nil => rfl
    | cons b bs => rw [h] at h'; exact absurd h'.1 (by simp)
  | cons a as ih =>
    cases bs with
    | nil => rw [h'] at h; exact absurd h.1 (by simp)
    | cons b bs =>
      obtain rfl : a = b := Option.some.inj (h.1.symm.trans h'.1)
      rw [ih h.2 h'.2]

/-- A chain is unaffected by what happens to the links of other entries. -/
lemma Linked.frame {entry entry' : ℕ → Entry κ β} (h : Linked entry i as)
    (hn : ∀ a ∈ as, (entry' a).next = (entry a).next) : Linked entry' i as := by
  induction as generalizing i with
  | nil => exact h
  | cons a as ih =>
    refine ⟨h.1, ?_⟩
    rw [hn a List.mem_cons_self]
    exact ih h.2 fun b hb => hn b (List.mem_cons_of_mem _ hb)

section Walks

variable [DecidableEq κ]

/-- The walk finds the first entry for its key. -/
lemma seek_eq (h : Linked m.entry i as) (hf : as.length < fuel) (k : κ) :
    seek m k fuel i = some (as.find? fun a => (m.entry a).key = k) := by
  induction as generalizing i fuel with
  | nil =>
    obtain ⟨fuel, rfl⟩ : ∃ f, fuel = f + 1 := ⟨fuel - 1, by simp at hf; omega⟩
    obtain rfl : i = none := h
    rfl
  | cons a as ih =>
    obtain ⟨fuel, rfl⟩ : ∃ f, fuel = f + 1 := ⟨fuel - 1, by omega⟩
    obtain ⟨rfl, h⟩ := h
    by_cases hk : (m.entry a).key = k
    · simp [seek, hk]
    · rw [seek, if_neg hk, List.find?_cons_of_neg (by simpa using hk)]
      exact ih h (by simpa using hf)

lemma chainGet_pairs (m : Heap κ β) (as : List ℕ) (k : κ) :
    chainGet (as.map (pair m)) k =
      (as.find? fun a => (m.entry a).key = k).map fun a => (m.entry a).val := by
  induction as with
  | nil => rfl
  | cons a as ih =>
    by_cases hk : (m.entry a).key = k
    · simp [pair, chainGet, hk]
    · rw [List.map_cons, List.find?_cons_of_neg (by simpa using hk), ← ih]
      exact if_neg hk

lemma chainDel_pairs (m : Heap κ β) (as : List ℕ) (k : κ) :
    chainDel (as.map (pair m)) k = (as.eraseP fun a => (m.entry a).key = k).map (pair m) := by
  induction as with
  | nil => rfl
  | cons a as ih =>
    by_cases hk : (m.entry a).key = k
    · simp [pair, chainDel, hk]
    · rw [List.map_cons, List.eraseP_cons_of_neg (by simpa using hk), List.map_cons, ← ih]
      exact if_neg hk

/-- Overwriting the first entry for a key in place overwrites it in the chain. -/
lemma chainSet_pairs {a : ℕ} (hnd : as.Nodup)
    (ha : as.find? (fun a => (m.entry a).key = k) = some a)
    (hv : pair m' a = (k, v)) (hf : ∀ b ≠ a, pair m' b = pair m b) :
    chainSet (as.map (pair m)) k v = some (as.map (pair m')) := by
  induction as with
  | nil => simp at ha
  | cons b as ih =>
    obtain ⟨hb, hnd⟩ := List.nodup_cons.mp hnd
    by_cases hk : (m.entry b).key = k
    · obtain rfl : b = a := by simpa [hk] using ha
      have hrest : as.map (pair m') = as.map (pair m) :=
        List.map_congr_left fun c hc => hf c (by rintro rfl; exact hb hc)
      rw [List.map_cons, List.map_cons, hv, hrest]
      simp [chainSet, pair, hk]
    · rw [List.find?_cons_of_neg (by simpa using hk)] at ha
      have hab : b ≠ a := by
        rintro rfl
        have := List.find?_some ha
        exact hk (by simpa using this)
      have hcons : chainSet (pair m b :: as.map (pair m)) k v =
          (chainSet (as.map (pair m)) k v).map (pair m b :: ·) := if_neg hk
      rw [List.map_cons, List.map_cons, hf b hab, hcons, ih hnd ha]
      rfl

/-- What unlinking does: the chain loses its first entry for the key, wherever that stands,
and no other link changes. -/
lemma unlink_spec (k : κ) (pp : Place) (h : Linked m.entry (m.read pp) as) (hnd : as.Nodup)
    (hpp : ∀ a ∈ as, pp ≠ .next a) (hf : as.length < fuel) :
    ∃ m', unlink m k fuel pp = some m' ∧
      Linked m'.entry (m'.read pp) (as.eraseP fun a => (m.entry a).key = k) ∧
      (∀ a, pair m' a = pair m a) ∧
      (∀ q, q ≠ pp → (∀ a ∈ as, q ≠ .next a) → m'.read q = m.read q) ∧
      ∀ a ∈ m.live, (a ∈ as → a ∈ as.eraseP fun a => (m.entry a).key = k) → a ∈ m'.live := by
  induction as generalizing pp fuel with
  | nil =>
    obtain ⟨fuel, rfl⟩ : ∃ f, fuel = f + 1 := ⟨fuel - 1, by simp at hf; omega⟩
    have h : m.read pp = none := h
    exact ⟨m, by simp only [unlink, h], h, fun _ => rfl, fun _ _ _ => rfl, fun a ha _ => ha⟩
  | cons a as ih =>
    obtain ⟨fuel, rfl⟩ : ∃ f, fuel = f + 1 := ⟨fuel - 1, by omega⟩
    obtain ⟨hread, h⟩ := h
    obtain ⟨ha, hnd⟩ := List.nodup_cons.mp hnd
    by_cases hk : (m.entry a).key = k
    · rw [List.eraseP_cons_of_pos (by simpa using hk)]
      -- the link to the entry now goes to the one behind it
      have hself : (m.write pp (m.entry a).next).read pp = (m.entry a).next := by
        rw [read_write, if_pos rfl]
      have hother (q : Place) (hq : q ≠ pp) : (m.write pp (m.entry a).next).read q = m.read q := by
        rw [read_write, if_neg hq]
      have hlinked : Linked (m.write pp (m.entry a).next).entry (m.entry a).next as :=
        h.frame fun b hb => hother (.next b) (hpp b (List.mem_cons_of_mem _ hb)).symm
      refine ⟨{ m.write pp (m.entry a).next with live := m.live.erase a },
        by simp only [unlink, hread, if_pos hk], hself.symm ▸ hlinked, pair_write m pp _,
        fun q hq _ => hother q hq, fun b hb hbas => ?_⟩
      refine (List.mem_erase_of_ne ?_).mpr hb
      rintro rfl
      exact ha (hbas List.mem_cons_self)
    · rw [List.eraseP_cons_of_neg (by simpa using hk)]
      obtain ⟨m', h1, h2, h3, h4, h5⟩ := ih (.next a) h hnd
        (fun b hb e => ha (Place.next.inj e ▸ hb)) (by simpa using hf)
      have hpa : pp ≠ .next a := hpp a List.mem_cons_self
      refine ⟨m', by simp only [unlink, hread, if_neg hk, h1], ⟨?_, h2⟩, h3, fun q hq hqas => ?_,
        fun b hb hbas => h5 b hb fun hbm => ?_⟩
      · rw [h4 pp hpa fun b hb => hpp b (List.mem_cons_of_mem _ hb), hread]
      · exact h4 q (hqas a List.mem_cons_self) fun b hb => hqas b (List.mem_cons_of_mem _ hb)
      · rcases List.mem_cons.mp (hbas (List.mem_cons_of_mem _ hbm)) with rfl | hb'
        · exact absurd hbm ha
        · exact hb'

end Walks

/-! ### Memories that hold a table -/

variable {hash : κ → ℕ} {t : Table κ β hash} {chain : ℕ → List ℕ}

/-- The chains of the memory hold the chains of the table, each entry in one of them. -/
structure Holds (m : Heap κ β) (t : Table κ β hash) (chain : ℕ → List ℕ) : Prop where
  linked : ∀ b, Linked m.entry (m.bucket b) (chain b)
  pairs : ∀ b, (chain b).map (pair m) = t.bucket b
  nodup : ∀ b, (chain b).Nodup
  apart : ∀ b b' a, a ∈ chain b → a ∈ chain b' → b = b'
  live : ∀ b, ∀ a ∈ chain b, a ∈ m.live

lemma Holds.length_lt (h : Holds m t chain) (b : ℕ) :
    (chain b).length < m.live.length + 1 :=
  Nat.lt_succ_of_le (List.subperm_of_subset (h.nodup b) (h.live b)).length_le

/-- An entry for a key is in the chain of its hash, and there is one at most. -/
lemma Holds.key_home (h : Holds m t chain) {b a : ℕ} (ha : a ∈ chain b) :
    hash (m.entry a).key = b := by
  refine t.home b _ ?_
  rw [← h.pairs b, keys, List.map_map]
  exact List.mem_map.mpr ⟨a, ha, rfl⟩

lemma Holds.key_inj (h : Holds m t chain) {b b' a a' : ℕ} (ha : a ∈ chain b) (ha' : a' ∈ chain b')
    (hk : (m.entry a).key = (m.entry a').key) : a = a' := by
  obtain rfl : b = b' := by rw [← h.key_home ha, ← h.key_home ha', hk]
  have hnd : ((chain b).map fun a => (m.entry a).key).Nodup := by
    have := t.nodup b
    rwa [← h.pairs b, keys, List.map_map] at this
  exact List.inj_on_of_nodup_map hnd ha ha' hk

variable [DecidableEq κ]

lemma Holds.find_eq (h : Holds m t chain) (k : κ) :
    find hash m k = some ((chain (hash k)).find? fun a => (m.entry a).key = k) :=
  seek_eq (h.linked _) (h.length_lt _) k

/-- **A lookup** in memory is a lookup in the table. -/
theorem Holds.get_eq (h : Holds m t chain) (k : κ) : get hash m k = some (t.get k) := by
  rw [get, h.find_eq, Option.map_some, Table.get, ← h.pairs, chainGet_pairs]

lemma Holds.put_found (h : Holds m t chain) {a : ℕ}
    (ha : (chain (hash k)).find? (fun a => (m.entry a).key = k) = some a) (v : β) :
    Holds { m with entry := Function.update m.entry a { m.entry a with val := v } }
      (t.put k v) chain := by
  have hmem := List.mem_of_find?_eq_some ha
  have hkey : (m.entry a).key = k := by simpa using List.find?_some ha
  obtain ⟨m', hm'⟩ : ∃ m' : Heap κ β, m' =
    { m with entry := Function.update m.entry a { m.entry a with val := v } } := ⟨_, rfl⟩
  have hpair : ∀ b ≠ a, pair m' b = pair m b := fun b hb => by
    simp only [hm', pair, Function.update_of_ne hb]
  have hnext : ∀ b, (m'.entry b).next = (m.entry b).next := by
    intro b
    by_cases hb : b = a
    · simp [hm', hb]
    · simp [hm', hb]
  have hset : chainSet (t.bucket (hash k)) k v = some ((chain (hash k)).map (pair m')) := by
    rw [← h.pairs]
    exact chainSet_pairs (h.nodup _) ha (by simp [hm', pair, hkey]) hpair
  rw [← hm']
  refine ⟨fun b => ?_, fun b => ?_, h.nodup, h.apart, fun b c hc => ?_⟩
  · have := (h.linked b).frame fun c _ => hnext c
    rwa [hm'] at this ⊢
  · by_cases hb : b = hash k
    · subst hb
      simp only [Table.put, Function.update_self, chainPut, hset]
    · simp only [Table.put, Function.update_of_ne hb]
      rw [← h.pairs b]
      refine List.map_congr_left fun c hc => hpair c ?_
      rintro rfl
      exact hb (h.apart _ _ _ hc hmem)
  · rw [hm']
    exact h.live b c hc

lemma Holds.put_new (h : Holds m t chain)
    (hnone : (chain (hash k)).find? (fun a => (m.entry a).key = k) = none) (v : β) {a : ℕ}
    (ha : a ∉ m.live) :
    Holds ⟨Function.update m.entry a ⟨k, v, m.bucket (hash k)⟩,
        Function.update m.bucket (hash k) (some a), a :: m.live⟩
      (t.put k v) (Function.update chain (hash k) (a :: chain (hash k))) := by
  obtain ⟨m', hm'⟩ : ∃ m' : Heap κ β, m' = ⟨Function.update m.entry a ⟨k, v, m.bucket (hash k)⟩,
    Function.update m.bucket (hash k) (some a), a :: m.live⟩ := ⟨_, rfl⟩
  have hout : ∀ b, a ∉ chain b := fun b hab => ha (h.live b a hab)
  have hentry : ∀ b, ∀ c ∈ chain b, m'.entry c = m.entry c := by
    intro b c hc
    rw [hm']
    exact Function.update_of_ne (by rintro rfl; exact hout b hc) _ _
  have hlinked : ∀ b, Linked m'.entry (m.bucket b) (chain b) := fun b =>
    (h.linked b).frame fun c hc => by rw [hentry b c hc]
  have hpairs : ∀ b, (chain b).map (pair m') = t.bucket b := fun b => by
    rw [← h.pairs b]
    exact List.map_congr_left fun c hc => by rw [pair, pair, hentry b c hc]
  have hput : chainPut (t.bucket (hash k)) k v = (k, v) :: t.bucket (hash k) := by
    have hk : k ∉ keys (t.bucket (hash k)) := by
      rw [← h.pairs, keys, List.map_map, List.mem_map]
      rintro ⟨c, hc, e⟩
      have := List.find?_eq_none.mp hnone c hc
      exact this (by simpa [pair] using e)
    rw [chainPut, chainSet_eq_none.mpr hk]
  rw [← hm']
  have hself : m'.entry a = ⟨k, v, m.bucket (hash k)⟩ := by
    rw [hm']
    exact Function.update_self _ _ _
  have hbucket : ∀ b ≠ hash k, m'.bucket b = m.bucket b := fun b hb => by
    rw [hm']
    exact Function.update_of_ne hb _ _
  have hlive : m'.live = a :: m.live := by rw [hm']
  refine ⟨(Function.forall_update_iff chain fun b as => Linked m'.entry (m'.bucket b) as).mpr
      ⟨?_, fun b hb => ?_⟩,
    (Function.forall_update_iff chain fun b as => as.map (pair m') = (t.put k v).bucket b).mpr
      ⟨?_, fun b hb => ?_⟩,
    (Function.forall_update_iff chain fun _ as => as.Nodup).mpr
      ⟨List.nodup_cons.mpr ⟨hout _, h.nodup _⟩, fun b _ => h.nodup b⟩,
    fun b b' c hc hc' => ?_, fun b c hc => ?_⟩
  · refine ⟨by rw [hm']; exact Function.update_self _ _ _, ?_⟩
    rw [hself]
    exact hlinked _
  · rw [hbucket b hb]
    exact hlinked b
  · simp only [Table.put, Function.update_self, hput, List.map_cons, hpairs, pair, hself]
  · simp only [Table.put, Function.update_of_ne hb, hpairs]
  · -- the new entry is in the chain of its hash only
    rcases mem_update_cons.mp hc with ⟨rfl, rfl⟩ | h1
    · rcases mem_update_cons.mp hc' with ⟨-, h2⟩ | h2
      · exact h2.symm
      · exact absurd h2 (hout _)
    · rcases mem_update_cons.mp hc' with ⟨h2, -⟩ | h2
      · exact absurd (h2 ▸ h1) (hout _)
      · exact h.apart b b' c h1 h2
  · rw [hlive, List.mem_cons]
    exact (mem_update_cons.mp hc).imp And.left (h.live b c)

/-- **An update** of the memory is an update of the table. -/
theorem Holds.put (h : Holds m t chain) {alloc : List ℕ → ℕ} (halloc : ∀ l, alloc l ∉ l) (k : κ)
    (v : β) : ∃ m' chain', put hash alloc m k v = some m' ∧ Holds m' (t.put k v) chain' := by
  cases hf : (chain (hash k)).find? fun a => (m.entry a).key = k with
  | some a => exact ⟨_, chain, by rw [HashChains.put, h.find_eq, hf], h.put_found hf v⟩
  | none => exact ⟨_, _, by rw [HashChains.put, h.find_eq, hf], h.put_new hf v (halloc _)⟩

/-- **A removal** from the memory is a removal from the table. -/
theorem Holds.del (h : Holds m t chain) (k : κ) :
    ∃ m' chain', del hash m k = some m' ∧ Holds m' (t.del k) chain' := by
  obtain ⟨m', h1, h2, h3, h4, h5⟩ := unlink_spec k (.bucket (hash k))
    (h.linked (hash k)) (h.nodup _) (fun _ _ => by simp) (h.length_lt _)
  have hsub : ∀ a ∈ (chain (hash k)).eraseP fun a => (m.entry a).key = k, a ∈ chain (hash k) :=
    fun a ha => List.eraseP_subset ha
  have hpair : pair m' = pair m := funext h3
  have hmem := (Function.forall_update_iff chain fun b as => as ⊆ chain b).mpr
    ⟨hsub, fun b _ => List.Subset.refl (chain b)⟩
  refine ⟨m', Function.update chain (hash k) _, h1,
    (Function.forall_update_iff chain fun b as => Linked m'.entry (m'.bucket b) as).mpr
      ⟨h2, fun b hb => ?_⟩,
    (Function.forall_update_iff chain fun b as => as.map (pair m') = (t.del k).bucket b).mpr
      ⟨?_, fun b hb => ?_⟩,
    (Function.forall_update_iff chain fun _ as => as.Nodup).mpr
      ⟨(h.nodup _).sublist List.eraseP_sublist, fun b _ => h.nodup b⟩,
    fun b b' c hc hc' => h.apart b b' c (hmem b hc) (hmem b' hc'), fun b c hc => ?_⟩
  · have hout : ∀ c ∈ chain b, ∀ a ∈ chain (hash k), Place.next c ≠ .next a := by
      rintro c hc a ha e
      obtain rfl := Place.next.inj e
      exact hb (h.apart _ _ _ hc ha)
    have hbucket : m'.bucket b = m.bucket b :=
      h4 (.bucket b) (fun e => hb (Place.bucket.inj e)) fun _ _ => by simp
    rw [hbucket]
    exact (h.linked b).frame fun c hc => h4 (.next c) (by simp) (hout c hc)
  · simp only [Table.del, Function.update_self, hpair]
    rw [← h.pairs, chainDel_pairs]
  · simp only [Table.del, Function.update_of_ne hb, hpair, h.pairs]
  · refine h5 c (h.live b c (hmem b hc)) fun hck => ?_
    obtain rfl := h.apart b _ c (hmem b hc) hck
    rwa [Function.update_self] at hc

/-! ### Sequences of operations -/

inductive Op (κ β : Type*)
  | put (k : κ) (v : β)
  | del (k : κ)
  | get (k : κ)

def Op.key : Op κ β → κ
  | .put k _ => k
  | .del k => k
  | .get k => k

/-- The operation puts or deletes `k`. -/
def Op.writes (k : κ) : Op κ β → Bool
  | .put k' _ => k' = k
  | .del k' => k' = k
  | .get _ => false

/-- The value of the latest put for `k` that no deletion of `k` follows. -/
def latest (past : List (Op κ β)) (k : κ) : Option β :=
  match past.reverse.find? (Op.writes k) with
  | some (.put _ v) => some v
  | _ => none

/-- What an operation returns. -/
def answer (past : List (Op κ β)) : Op κ β → Option β
  | .get k => latest past k
  | _ => none

lemma latest_snoc (past : List (Op κ β)) (o : Op κ β) (k : κ) :
    latest (past ++ [o]) k = match o with
      | .put k' v => if k = k' then some v else latest past k
      | .del k' => if k = k' then none else latest past k
      | .get _ => latest past k := by
  unfold latest
  rw [List.reverse_append, List.reverse_singleton, List.singleton_append]
  cases o with
  | put k' v =>
    by_cases hk : k' = k
    · simp [Op.writes, hk]
    · rw [List.find?_cons_of_neg (by simpa [Op.writes] using hk)]
      simp [Ne.symm hk]
  | del k' =>
    by_cases hk : k' = k
    · simp [Op.writes, hk]
    · rw [List.find?_cons_of_neg (by simpa [Op.writes] using hk)]
      simp [Ne.symm hk]
  | get k' => rw [List.find?_cons_of_neg (by simp [Op.writes])]

/-- The latest put, in the sequence. -/
lemma latest_eq_some {past : List (Op κ β)} {k : κ} {v : β} :
    latest past k = some v ↔
      ∃ a b, past = a ++ .put k v :: b ∧ ∀ o ∈ b, Op.writes k o = false := by
  have hfind : latest past k = some v ↔ past.reverse.find? (Op.writes k) = some (.put k v) := by
    unfold latest
    cases hf : past.reverse.find? (Op.writes k) with
    | none => simp
    | some o =>
      have hw := List.find?_some hf
      cases o with
      | put k' w =>
        obtain rfl : k' = k := by simpa [Op.writes] using hw
        simp
      | del k' => simp
      | get k' => cases hw
  rw [hfind, List.find?_eq_some_iff_append]
  constructor
  · rintro ⟨-, as, bs, e, has⟩
    refine ⟨bs.reverse, as.reverse, ?_, fun o ho => by simpa using has o (List.mem_reverse.mp ho)⟩
    rw [← List.reverse_reverse past, e]
    simp
  · rintro ⟨a, b, rfl, hb⟩
    exact ⟨by simp [Op.writes], b.reverse, a.reverse, by simp,
      fun o ho => by simp [hb o (List.mem_reverse.mp ho)]⟩

omit [DecidableEq κ] in
/-- One operation, by the three functions of a table. -/
def step (get : Heap κ β → κ → Option (Option β)) (put : Heap κ β → κ → β → Option (Heap κ β))
    (del : Heap κ β → κ → Option (Heap κ β)) (m : Heap κ β) :
    Op κ β → Option (Heap κ β × Option β)
  | .put k v => (put m k v).map fun m => (m, none)
  | .del k => (del m k).map fun m => (m, none)
  | .get k => (get m k).map fun r => (m, r)

def tableStep (t : Table κ β hash) : Op κ β → Table κ β hash
  | .put k v => t.put k v
  | .del k => t.del k
  | .get _ => t

lemma get_tableStep {past : List (Op κ β)} (ht : ∀ k, t.get k = latest past k) (o : Op κ β)
    (k : κ) : (tableStep t o).get k = latest (past ++ [o]) k := by
  rw [latest_snoc]
  cases o with
  | put k' v => rw [tableStep, Table.get_put, ht]
  | del k' => rw [tableStep, Table.get_del, ht]
  | get k' => exact ht k

/-- **One operation** on the memory is one on the table. -/
theorem Holds.step (h : Holds m t chain) {alloc : List ℕ → ℕ} (halloc : ∀ l, alloc l ∉ l)
    {past : List (Op κ β)} (ht : ∀ k, t.get k = latest past k) (o : Op κ β) :
    ∃ m' chain', step (HashChains.get hash) (HashChains.put hash alloc) (HashChains.del hash) m o =
      some (m', answer past o) ∧ Holds m' (tableStep t o) chain' := by
  cases o with
  | put k v =>
    obtain ⟨m', chain', h1, h2⟩ := h.put halloc k v
    exact ⟨m', chain', by rw [HashChains.step, h1]; rfl, h2⟩
  | del k =>
    obtain ⟨m', chain', h1, h2⟩ := h.del k
    exact ⟨m', chain', by rw [HashChains.step, h1]; rfl, h2⟩
  | get k =>
    refine ⟨m, chain, ?_, h⟩
    rw [HashChains.step, h.get_eq, ht]
    rfl

/-- The memory is the finite map that the operations `past` build. -/
structure IsMap (get : Heap κ β → κ → Option (Option β))
    (step : Heap κ β → Op κ β → Option (Heap κ β × Option β)) (past : List (Op κ β))
    (m : Heap κ β) : Prop where
  lookup : ∀ k, get m k = some (latest past k)
  /-- What is found is the latest value put for the key and not deleted since. -/
  found : ∀ k v, get m k = some (some v) ↔
    ∃ a b, past = a ++ .put k v :: b ∧ ∀ o ∈ b, Op.writes k o = false
  /-- Every chain comes to an end, and meets no entry twice. -/
  chains : ∀ b, ∃ as, Linked m.entry (m.bucket b) as ∧ as.Nodup
  /-- No two entries of the table have one key. -/
  once : ∀ b b' as as' a a', Linked m.entry (m.bucket b) as → a ∈ as →
    Linked m.entry (m.bucket b') as' → a' ∈ as' → (m.entry a).key = (m.entry a').key →
    b = b' ∧ a = a'
  /-- An operation on one key changes no lookup of another. -/
  apart : ∀ o, ∃ m' r, step m o = some (m', r) ∧ ∀ k ≠ o.key, get m' k = get m k

lemma Holds.isMap (h : Holds m t chain) {alloc : List ℕ → ℕ} (halloc : ∀ l, alloc l ∉ l)
    {past : List (Op κ β)} (ht : ∀ k, t.get k = latest past k) :
    IsMap (HashChains.get hash) (HashChains.step (HashChains.get hash)
      (HashChains.put hash alloc) (HashChains.del hash)) past m where
  lookup k := by rw [h.get_eq, ht]
  found k v := by rw [h.get_eq, ht, Option.some.injEq, latest_eq_some]
  chains b := ⟨chain b, h.linked b, h.nodup b⟩
  once b b' as as' a a' hl ha hl' ha' hk := by
    rw [hl.unique (h.linked b)] at ha
    rw [hl'.unique (h.linked b')] at ha'
    obtain rfl := h.key_inj ha ha' hk
    exact ⟨h.apart b b' a ha ha', rfl⟩
  apart o := by
    obtain ⟨m', chain', h1, h2⟩ := h.step halloc ht o
    refine ⟨m', _, h1, fun k hk => ?_⟩
    rw [h2.get_eq, h.get_eq]
    congr 1
    cases o with
    | put k' v => exact (Table.get_put t k' k v).trans (if_neg hk)
    | del k' => exact (Table.get_del t k' k).trans (if_neg hk)
    | get k' => rfl

omit [DecidableEq κ] in
lemma holds_empty (h : ∀ b, m.bucket b = none) :
    Holds m (Table.empty : Table κ β hash) fun _ => [] :=
  ⟨h, fun _ => rfl, fun _ => List.nodup_nil, by simp, by simp⟩

/-- **The memory holds the table**, after every sequence of operations on both. -/
theorem holds_run (hash : κ → ℕ) {alloc : List ℕ → ℕ} (halloc : ∀ l, alloc l ∉ l) {m₀ : Heap κ β}
    (h0 : ∀ b, m₀.bucket b = none) (ops : List (Op κ β)) :
    ∃ m os chain, run (HashChains.step (HashChains.get hash) (HashChains.put hash alloc)
        (HashChains.del hash)) m₀ ops = some (m, os) ∧
      Holds m (ops.foldl tableStep (Table.empty : Table κ β hash)) chain ∧
      (∀ k, (ops.foldl tableStep (Table.empty : Table κ β hash)).get k = latest ops k) ∧
      ∀ i (hi : i < ops.length) (hi' : i < os.length), os[i] = answer (ops.take i) ops[i] := by
  obtain ⟨m, os, hrun, ⟨chain, hm, ht⟩, hos⟩ := run_spec
    (I := fun past m => ∃ chain,
      Holds m (past.foldl tableStep (Table.empty : Table κ β hash)) chain ∧
      ∀ k, (past.foldl tableStep (Table.empty : Table κ β hash)).get k = latest past k)
    (O := fun past o r => r = answer past o) ops ⟨fun _ => [], holds_empty h0, fun _ => rfl⟩
    fun past o m _ hi => by
      obtain ⟨chain, hm, ht⟩ := hi
      obtain ⟨m', chain', h1, h2⟩ := hm.step halloc ht o
      refine ⟨m', _, h1, ⟨chain', ?_, ?_⟩, rfl⟩
      · rwa [List.foldl_append]
      · rw [List.foldl_append]
        exact get_tableStep ht o
  exact ⟨m, os, chain, hrun, hm, ht, hos⟩

/-- **A table in memory is a finite map**, after every sequence of operations. -/
theorem isMap_run {alloc : List ℕ → ℕ} (halloc : ∀ l, alloc l ∉ l) {m₀ : Heap κ β}
    (h0 : ∀ b, m₀.bucket b = none) (ops : List (Op κ β)) :
    ∃ m os, run (HashChains.step (HashChains.get hash) (HashChains.put hash alloc)
        (HashChains.del hash)) m₀ ops = some (m, os) ∧
      IsMap (HashChains.get hash) (HashChains.step (HashChains.get hash)
        (HashChains.put hash alloc) (HashChains.del hash)) ops m ∧
      ∀ i (hi : i < ops.length) (hi' : i < os.length), os[i] = answer (ops.take i) ops[i] := by
  obtain ⟨m, os, chain, hrun, hm, ht, hos⟩ := holds_run hash halloc h0 ops
  exact ⟨m, os, hrun, hm.isMap halloc ht, hos⟩

end Tempograph.HashChains
