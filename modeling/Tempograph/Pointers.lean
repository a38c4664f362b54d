import Tempograph.HashChains
import Tempograph.LinkedList

/-!
Linked lists and hash tables through checked pointers.

An address is in use from the allocation of its record to the moment it is freed. Here every
access and every `free` asks whether the address is in use, and has no result if it is not: a
program that has a result touches no freed record and frees none twice. On a list or a table
all of whose records are in use the checks pass, and the operations do what they do without
them.
-/

namespace Tempograph.Pointers

open ChainMap LinkedList HashChains

variable {κ β α : Type*} {live as l : List ℕ} {a n : ℕ} {i : Option ℕ}

/-- What is read through the address `a`. -/
def deref (live : List ℕ) (a : ℕ) (x : α) : Option α := if a ∈ live then some x else none

def free (live : List ℕ) (a : ℕ) : Option (List ℕ) := deref live a (live.erase a)

lemma deref_eq (h : a ∈ live) (x : α) : deref live a x = some x := if_pos h

lemma fresh_apart {pick : List ℕ → ℕ} (hpick : ∀ l, pick l ∉ l) (as bs : List ℕ) :
    pick (as ++ bs) ∉ as ∧ pick (as ++ bs) ∉ bs := by
  have h := hpick (as ++ bs)
  rwa [List.mem_append, not_or] at h

/-- Free the records from the link `i` on. -/
def freeAll (next : ℕ → Option ℕ) : ℕ → List ℕ → Option ℕ → Option (List ℕ)
  | 0, _, _ => none
  | _ + 1, live, none => some live
  | fuel + 1, live, some a =>
    match deref live a (next a) with
    | none => none
    | some tmp =>
      match free live a with
      | none => none
      | some live => freeAll next fuel live tmp

/-- The records from the link `i` on, to the end. -/
def Path (next : ℕ → Option ℕ) : Option ℕ → List ℕ → Prop
  | i, [] => i = none
  | i, a :: as => i = some a ∧ Path next (next a) as

variable {next : ℕ → Option ℕ}

/-- All of them are freed, each once. -/
lemma freeAll_eq {fuel : ℕ} (h : Path next i as) (hnd : as.Nodup) (hsub : as ⊆ live)
    (hf : as.length < fuel) : freeAll next fuel live i = some (live.diff as) := by
  induction as generalizing i fuel live with
  | nil =>
    obtain ⟨fuel, rfl⟩ : ∃ f, fuel = f + 1 := ⟨fuel - 1, by simp at hf; omega⟩
    obtain rfl : i = none := h
    rfl
  | cons a as ih =>
    obtain ⟨fuel, rfl⟩ : ∃ f, fuel = f + 1 := ⟨fuel - 1, by omega⟩
    obtain ⟨rfl, h⟩ := h
    obtain ⟨ha, hnd⟩ := List.nodup_cons.mp hnd
    have hlive : a ∈ live := hsub List.mem_cons_self
    have hrest : as ⊆ live.erase a := fun b hb => by
      have hba : b ≠ a := by
        rintro rfl
        exact ha hb
      exact (List.mem_erase_of_ne hba).mpr (hsub (List.mem_cons_of_mem _ hb))
    simp only [freeAll, free, deref_eq hlive]
    rw [ih h hnd hrest (by simpa using hf), List.diff_cons]

/-! ### Doubly linked lists -/

section Lists

variable {k : Links ℕ} {d : Ends ℕ}

/-- `if (n->prev) n->prev->next = n->next; else head = n->next;` -/
def bridgeNext (live : List ℕ) (k : Links ℕ) (d : Ends ℕ) (n : ℕ) : Option (Links ℕ × Ends ℕ) :=
  match k.prev n with
  | some p => deref live p ({ k with next := Function.update k.next p (k.next n) }, d)
  | none => some (k, { d with head := k.next n })

/-- `if (n->next) n->next->prev = n->prev; else tail = n->prev;` -/
def bridgePrev (live : List ℕ) (k : Links ℕ) (d : Ends ℕ) (n : ℕ) : Option (Links ℕ × Ends ℕ) :=
  match k.next n with
  | some q => deref live q ({ k with prev := Function.update k.prev q (k.prev n) }, d)
  | none => some (k, { d with tail := k.prev n })

def clear (k : Links ℕ) (n : ℕ) : Links ℕ :=
  ⟨Function.update k.prev n none, Function.update k.next n none⟩

/-- Unlink `n`. -/
def remove (live : List ℕ) (k : Links ℕ) (d : Ends ℕ) (n : ℕ) : Option (Links ℕ × Ends ℕ) :=
  match deref live n (bridgeNext live k d n) with
  | some (some (k, d)) => (bridgePrev live k d n).map fun p => (clear p.1 n, p.2)
  | _ => none

/-- Link `n` in before the head. -/
def pushFront (live : List ℕ) (k : Links ℕ) (d : Ends ℕ) (n : ℕ) : Option (Links ℕ × Ends ℕ) :=
  match deref live n
    (⟨Function.update k.prev n none, Function.update k.next n d.head⟩ : Links ℕ) with
  | none => none
  | some k =>
    match d.head with
    | none => some (k, d.pushFront n)
    | some h => deref live h ({ k with prev := Function.update k.prev h (some n) }, d.pushFront n)

lemma bridgeNext_eq (hp : ∀ p, k.prev n = some p → p ∈ live) :
    bridgeNext live k d n = some ({ k with next := write k.next (k.prev n) (k.next n) },
      { d with head := if (k.prev n).isSome then d.head else k.next n }) := by
  unfold bridgeNext
  cases h : k.prev n with
  | none => rfl
  | some p => exact deref_eq (hp p h) _

lemma bridgePrev_eq (hq : ∀ q, k.next n = some q → q ∈ live) :
    bridgePrev live k d n = some ({ k with prev := write k.prev (k.next n) (k.prev n) },
      { d with tail := if (k.next n).isSome then d.tail else k.prev n }) := by
  unfold bridgePrev
  cases h : k.next n with
  | none => rfl
  | some q => exact deref_eq (hq q h) _

/-- The neighbours of a node of a list. -/
lemma neighbours (h : IsList k d l) (hl : l ⊆ live) (hn : n ∈ l) :
    (∀ p, k.prev n = some p → p ∈ live ∧ p ≠ n) ∧ ∀ q, k.next n = some q → q ∈ live := by
  obtain ⟨a, b, rfl⟩ := List.append_of_mem hn
  obtain ⟨hp, hq⟩ := h.links a n b rfl
  refine ⟨fun p e => ?_, fun q e => ?_⟩
  · have hm : p ∈ a := List.mem_of_getLast? (hp.symm.trans e)
    refine ⟨hl (by simp [hm]), ?_⟩
    rintro rfl
    have := List.disjoint_of_nodup_append h.nodup hm
    simp at this
  · exact hl (by simp [List.mem_of_mem_head? (hq.symm.trans e)])

/-- **Unlinking a node of a list** passes the checks. -/
theorem remove_eq (h : IsList k d l) (hl : l ⊆ live) (hn : n ∈ l) :
    remove live k d n = some (k.unlink n, d.unlink k n) := by
  obtain ⟨hp, hq⟩ := neighbours h hl hn
  -- the first write does not change the links of the node itself
  have hself : write k.next (k.prev n) (k.next n) n = k.next n := by
    rw [write_apply, if_neg fun e => (hp n e).2 rfl]
  rw [remove, deref_eq (hl hn), bridgeNext_eq fun p e => (hp p e).1]
  simp only
  rw [bridgePrev_eq (by simpa only [hself] using hq)]
  simp only [hself, Option.map_some]
  rfl

/-- **Linking a node in** passes the checks. -/
theorem pushFront_eq (h : IsList k d l) (hl : l ⊆ live) (hn : n ∈ live) :
    pushFront live k d n = some (k.pushFront d n, d.pushFront n) := by
  rw [pushFront, deref_eq hn]
  cases hd : d.head with
  | none => simp [Links.pushFront, hd, write]
  | some a =>
    have ha : a ∈ live := hl (List.mem_of_mem_head? (h.head.symm.trans hd))
    simp [deref_eq ha, Links.pushFront, hd, write]

lemma path_suffix (h : IsList k d l) (a b : List ℕ) (e : l = a ++ b) : Path k.next b.head? b := by
  induction b generalizing a with
  | nil => rfl
  | cons x b ih =>
    refine ⟨rfl, ?_⟩
    rw [(h.links a x b e).2]
    exact ih (a ++ [x]) (by simp [e])

lemma path_of_list (h : IsList k d l) : Path k.next d.head l := by
  rw [h.head]
  exact path_suffix h [] l rfl

/-- **Freeing a list** frees its nodes. -/
lemma freeAll_list (h : IsList k d l) (hl : l ⊆ live) :
    freeAll k.next (live.length + 1) live d.head = some (live.diff l) :=
  freeAll_eq (path_of_list h) h.nodup hl
    (Nat.lt_succ_of_le (List.subperm_of_subset h.nodup hl).length_le)

end Lists

/-- A new record is not in the list yet. -/
lemma alloc_list (h : IsList k d l) (hn : n ∉ l) :
    IsList (⟨Function.update k.prev n none, Function.update k.next n none⟩ : Links ℕ) d l := by
  refine h.frame fun x hx => ?_
  have hxn : x ≠ n := by
    rintro rfl
    exact hn hx
  exact ⟨Function.update_of_ne hxn _ _, Function.update_of_ne hxn _ _⟩

/-! ### Hash tables -/

section Tables

variable [DecidableEq κ]

/-- Walk from `i` to the first entry for `k`, or to the end of the chain. -/
def seek (m : Heap κ β) (k : κ) : ℕ → Option ℕ → Option (Option ℕ)
  | 0, _ => none
  | _ + 1, none => some none
  | fuel + 1, some a =>
    match deref m.live a (m.entry a) with
    | none => none
    | some e => if e.key = k then some (some a) else seek m k fuel e.next

/-- The link stored at `pp`. -/
def readPlace (m : Heap κ β) (pp : Place) : Option (Option ℕ) :=
  match pp with
  | .bucket b => some (m.bucket b)
  | .next a => deref m.live a (m.entry a).next

/-- Walk with a pointer to the last link; write the link to the first entry for `k`, and free
the entry. -/
def unlink (m : Heap κ β) (k : κ) : ℕ → Place → Option (Heap κ β)
  | 0, _ => none
  | fuel + 1, pp =>
    match readPlace m pp with
    | none => none
    | some none => some m
    | some (some a) =>
      match deref m.live a (m.entry a) with
      | none => none
      | some e =>
        if e.key = k then
          (free m.live a).map fun live => { m.write pp e.next with live := live }
        else unlink m k fuel (.next a)

variable (hash : κ → ℕ) (alloc : List ℕ → ℕ)

def find (m : Heap κ β) (k : κ) : Option (Option ℕ) :=
  seek m k (m.live.length + 1) (m.bucket (hash k))

def get (m : Heap κ β) (k : κ) : Option (Option β) :=
  match find hash m k with
  | none => none
  | some none => some none
  | some (some a) => (deref m.live a (m.entry a).val).map some

def put (m : Heap κ β) (k : κ) (v : β) : Option (Heap κ β) :=
  match find hash m k with
  | none => none
  | some (some a) =>
    deref m.live a { m with entry := Function.update m.entry a { m.entry a with val := v } }
  | some none =>
    let a := alloc m.live
    some
      { entry := Function.update m.entry a ⟨k, v, m.bucket (hash k)⟩
        bucket := Function.update m.bucket (hash k) (some a)
        live := a :: m.live }

def del (m : Heap κ β) (k : κ) : Option (Heap κ β) :=
  unlink m k (m.live.length + 1) (.bucket (hash k))

omit [DecidableEq κ] in
/-- Free the chains of the first `size` buckets and clear these. -/
def freeChains (m : Heap κ β) : ℕ → Option (Heap κ β)
  | 0 => some m
  | size + 1 =>
    match freeChains m size with
    | none => none
    | some m =>
      (freeAll (fun e => (m.entry e).next) (m.live.length + 1) m.live (m.bucket size)).map
        fun live => { m with live := live, bucket := Function.update m.bucket size none }

variable {hash alloc} {m m' : Heap κ β} {k : κ} {v : β} {t : Table κ β hash}
  {chain : ℕ → List ℕ} {pp : Place} {fuel : ℕ}

lemma seek_eq (h : Linked m.entry i as) (hl : as ⊆ m.live) :
    seek m k fuel i = HashChains.seek m k fuel i := by
  induction fuel generalizing i as with
  | zero => rfl
  | succ fuel ih =>
    cases as with
    | nil =>
      obtain rfl : i = none := h
      rfl
    | cons a as =>
      obtain ⟨rfl, h⟩ := h
      simp only [seek, HashChains.seek, deref_eq (hl List.mem_cons_self)]
      rw [ih h fun b hb => hl (List.mem_cons_of_mem _ hb)]

omit [DecidableEq κ] in
lemma readPlace_eq (hpp : ∀ a, pp = .next a → a ∈ m.live) :
    readPlace m pp = some (m.read pp) := by
  cases pp with
  | bucket b => rfl
  | next a => exact deref_eq (hpp a rfl) _

/-- Taking an entry out passes the checks, and frees the first entry for the key. -/
lemma unlink_eq (h : Linked m.entry (m.read pp) as) (hl : as ⊆ m.live)
    (hpp : ∀ a, pp = .next a → a ∈ m.live) :
    unlink m k fuel pp = HashChains.unlink m k fuel pp ∧
      ∀ m', HashChains.unlink m k fuel pp = some m' →
        m'.live = match as.find? fun a => (m.entry a).key = k with
          | none => m.live
          | some a => m.live.erase a := by
  induction fuel generalizing pp as with
  | zero => exact ⟨rfl, fun m' e => (by cases e)⟩
  | succ fuel ih =>
    simp only [unlink, HashChains.unlink, readPlace_eq hpp]
    cases as with
    | nil =>
      have h : m.read pp = none := h
      rw [h]
      exact ⟨rfl, fun m' e => (by cases e; rfl)⟩
    | cons a as =>
      obtain ⟨hread, h⟩ := h
      have ha : a ∈ m.live := hl List.mem_cons_self
      simp only [hread, deref_eq ha, free]
      by_cases hk : (m.entry a).key = k
      · rw [if_pos hk, if_pos hk, List.find?_cons_of_pos (by simpa using hk)]
        exact ⟨rfl, fun m' e => (by cases e; rfl)⟩
      · rw [if_neg hk, if_neg hk, List.find?_cons_of_neg (by simpa using hk)]
        exact ih h (fun b hb => hl (List.mem_cons_of_mem _ hb)) fun b e => by
          rwa [← Place.next.inj e]

omit [DecidableEq κ] in
/-- The memory holds the table, and no entry is in use besides those of the table. -/
structure Owned (m : Heap κ β) (t : Table κ β hash) (chain : ℕ → List ℕ) : Prop
    extends Holds m t chain where
  once : m.live.Nodup
  owned : ∀ a ∈ m.live, ∃ b, a ∈ chain b

omit [DecidableEq κ] in
lemma owned_empty (hb : ∀ b, m.bucket b = none) (hl : m.live = []) :
    Owned m (Table.empty : Table κ β hash) fun _ => [] :=
  ⟨holds_empty hb, by simp [hl], by simp [hl]⟩

lemma Owned.find_eq (h : Owned m t chain) (k : κ) :
    find hash m k = some ((chain (hash k)).find? fun a => (m.entry a).key = k) := by
  rw [find, seek_eq (h.linked _) (h.live _)]
  exact h.toHolds.find_eq k

/-- A lookup passes the checks. -/
theorem Owned.get_eq (h : Owned m t chain) (k : κ) : get hash m k = some (t.get k) := by
  rw [← h.toHolds.get_eq k, get, HashChains.get, h.toHolds.find_eq, h.find_eq]
  cases hf : (chain (hash k)).find? fun a => (m.entry a).key = k with
  | none => rfl
  | some a => simp only [deref_eq (h.live _ a (List.mem_of_find?_eq_some hf)), Option.map_some]

/-- An update passes the checks, and takes at most one new entry. -/
theorem Owned.put (h : Owned m t chain) (halloc : ∀ l, alloc l ∉ l) (k : κ) (v : β) :
    ∃ m' chain', put hash alloc m k v = some m' ∧ Owned m' (t.put k v) chain' ∧
      ∀ a ∈ m'.live, a = alloc m.live ∨ a ∈ m.live := by
  rw [Pointers.put, h.find_eq]
  cases hf : (chain (hash k)).find? fun a => (m.entry a).key = k with
  | some a =>
    have ha := h.live _ a (List.mem_of_find?_eq_some hf)
    exact ⟨_, chain, deref_eq ha _, ⟨h.toHolds.put_found hf v, h.once, h.owned⟩,
      fun b hb => Or.inr hb⟩
  | none =>
    have hfresh := halloc m.live
    refine ⟨_, _, rfl, ⟨h.toHolds.put_new hf v hfresh, List.nodup_cons.mpr ⟨hfresh, h.once⟩,
      fun b hb => ?_⟩, fun b hb => List.mem_cons.mp hb⟩
    rcases List.mem_cons.mp hb with rfl | hb
    · exact ⟨hash k, mem_update_cons.mpr (Or.inl ⟨rfl, rfl⟩)⟩
    · obtain ⟨c, hc⟩ := h.owned b hb
      exact ⟨c, mem_update_cons.mpr (Or.inr hc)⟩

/-- One allocator serves the entries and other records, `nodes`. -/
lemma Owned.put_apart {pick : List ℕ → ℕ} (h : Owned m t chain) (hpick : ∀ l, pick l ∉ l)
    {nodes : List ℕ} (hapart : ∀ a ∈ nodes, a ∉ m.live) (k : κ) (v : β) :
    ∃ m' chain', Pointers.put hash (fun entries => pick (nodes ++ entries)) m k v = some m' ∧
      Owned m' (t.put k v) chain' ∧ ∀ a ∈ nodes, a ∉ m'.live := by
  obtain ⟨m', chain', hm, hom, hnew⟩ :=
    h.put (fun entries => (fresh_apart hpick nodes entries).2) k v
  refine ⟨m', chain', hm, hom, fun a ha hma => ?_⟩
  rcases hnew a hma with rfl | hold
  · exact (fresh_apart hpick nodes m.live).1 ha
  · exact hapart a ha hold

/-- A removal passes the checks, and frees the entry that it takes out. -/
theorem Owned.del (h : Owned m t chain) (k : κ) :
    ∃ m' chain', del hash m k = some m' ∧ Owned m' (t.del k) chain' ∧ m'.live ⊆ m.live := by
  obtain ⟨heq, hlive⟩ : unlink m k (m.live.length + 1) (.bucket (hash k)) =
      HashChains.unlink m k (m.live.length + 1) (.bucket (hash k)) ∧ _ :=
    unlink_eq (h.linked (hash k)) (h.live _) fun a e => (by cases e)
  obtain ⟨m', chain', hdel, hm'⟩ := h.toHolds.del k
  obtain ⟨m'', hdel', hlinked, -, hother, -⟩ := unlink_spec k (.bucket (hash k))
    (h.linked (hash k)) (h.nodup _) (fun _ _ => by simp) (h.toHolds.length_lt _)
  obtain rfl : m'' = m' := Option.some.inj (hdel'.symm.trans hdel)
  have hlive := hlive m'' hdel
  have hsub : m''.live ⊆ m.live := by
    rw [hlive]
    cases (chain (hash k)).find? fun a => (m.entry a).key = k with
    | none => exact List.Subset.refl _
    | some a => exact List.erase_subset
  refine ⟨m'', chain', heq.trans hdel, ⟨hm', ?_, fun a ha => ?_⟩, hsub⟩
  · rw [hlive]
    cases (chain (hash k)).find? fun a => (m.entry a).key = k with
    | none => exact h.once
    | some a => exact h.once.erase a
  · obtain ⟨b, hb⟩ := h.owned a (hsub ha)
    refine ⟨b, ?_⟩
    by_cases hbk : b = hash k
    · -- the entry is still in the chain, as it is not the one that is freed
      subst hbk
      rw [(hm'.linked _).unique hlinked]
      cases hf : (chain (hash k)).find? fun a => (m.entry a).key = k with
      | none => rwa [List.eraseP_of_forall_not (by simpa using hf)]
      | some c =>
        rw [hf] at hlive
        rw [hlive, h.once.mem_erase_iff] at ha
        have hck : (m.entry c).key = k := by simpa using List.find?_some hf
        have hak : (m.entry a).key ≠ k := fun e => ha.1 (h.toHolds.key_inj hb
          (List.mem_of_find?_eq_some hf) (e.trans hck.symm))
        exact (List.mem_eraseP_of_neg (by simpa using hak)).mpr hb
    · have hframe : Linked m''.entry (m''.bucket b) (chain b) := by
        have hbucket : m''.bucket b = m.bucket b :=
          hother (.bucket b) (fun e => hbk (Place.bucket.inj e)) fun _ _ => by simp
        rw [hbucket]
        refine (h.linked b).frame fun c hc => hother (.next c) (by simp) fun a ha e => ?_
        obtain rfl := Place.next.inj e
        exact hbk (h.apart _ _ _ hc ha)
      rwa [(hm'.linked b).unique hframe]

/-- The keys of the entries in use are those of the table. -/
lemma Owned.mem_keys (h : Owned m t chain) :
    k ∈ m.live.map (fun a => (m.entry a).key) ↔ t.get k ≠ none := by
  have hkeys : keys (t.bucket (hash k)) = (chain (hash k)).map fun a => (m.entry a).key := by
    rw [← h.pairs, keys, List.map_map]
    rfl
  rw [Table.get, Ne, chainGet_eq_none, not_not, hkeys, List.mem_map, List.mem_map]
  constructor
  · rintro ⟨a, ha, rfl⟩
    obtain ⟨b, hb⟩ := h.owned a ha
    rw [h.toHolds.key_home hb]
    exact ⟨a, hb, rfl⟩
  · rintro ⟨a, ha, e⟩
    exact ⟨a, h.live _ a ha, e⟩

/-- **There are as many entries in use as keys in the table.** -/
theorem Owned.length (h : Owned m t chain) {S : List κ} (hnd : S.Nodup)
    (hS : ∀ k, k ∈ S ↔ t.get k ≠ none) : m.live.length = S.length := by
  have hkeys : (m.live.map fun a => (m.entry a).key).Nodup := h.once.map_on fun a ha b hb e => by
    obtain ⟨c, hc⟩ := h.owned a ha
    obtain ⟨c', hc'⟩ := h.owned b hb
    exact h.toHolds.key_inj hc hc' e
  rw [← List.length_map (f := fun a => (m.entry a).key)]
  exact ((List.perm_ext_iff_of_nodup hkeys hnd).mpr fun k => by rw [h.mem_keys, hS]).length_eq

omit [DecidableEq κ] in
/-- After `size` rounds the chains of the buckets so far are freed. -/
lemma Owned.freeChains_eq (h : Owned m t chain) (size : ℕ) :
    ∃ m', freeChains m size = some m' ∧ m'.entry = m.entry ∧
      (∀ b, m'.bucket b = if b < size then none else m.bucket b) ∧ m'.live.Nodup ∧
      ∀ a, a ∈ m'.live ↔ a ∈ m.live ∧ ∀ b < size, a ∉ chain b := by
  induction size with
  | zero => exact ⟨m, rfl, rfl, by simp, h.once, by simp⟩
  | succ size ih =>
    obtain ⟨m', hm', he, hb, hnd, hmem⟩ := ih
    have hlinked := h.linked size
    have hpath (i : Option ℕ) (as : List ℕ) (hl : Linked m.entry i as) :
        Path (fun a => (m.entry a).next) i as := by
      induction as generalizing i with
      | nil => exact hl
      | cons a as ih => exact ⟨hl.1, ih _ hl.2⟩
    have hsub : chain size ⊆ m'.live := fun a ha => (hmem a).mpr ⟨h.live _ a ha, fun b hb hab => by
      have := h.apart _ _ a ha hab
      omega⟩
    have hfree := freeAll_eq (hpath _ _ hlinked) (h.nodup size) hsub
      (Nat.lt_succ_of_le (List.subperm_of_subset (h.nodup size) hsub).length_le)
    have hhead : m'.bucket size = m.bucket size := by rw [hb, if_neg (lt_irrefl _)]
    refine ⟨⟨m.entry, Function.update m'.bucket size none, m'.live.diff (chain size)⟩,
      by simp only [freeChains, hm', he, hhead, hfree, Option.map_some], rfl, fun b => ?_,
      hnd.diff, fun a => ?_⟩
    · simp only [Function.update_apply, hb]
      split_ifs <;> first | rfl | omega
    · simp only [hnd.mem_sdiff_iff, hmem, Nat.lt_succ_iff_lt_or_eq, or_imp, forall_and,
        forall_eq, and_assoc]

omit [DecidableEq κ] in
/-- **Freeing all chains** leaves no entry in use and an empty table. -/
theorem Owned.freeChains (h : Owned m t chain) {size : ℕ} (hsize : ∀ k, hash k < size) :
    ∃ m', freeChains m size = some m' ∧ m'.live = [] ∧ ∀ b, m'.bucket b = none := by
  obtain ⟨m', hm', -, hb, -, hmem⟩ := h.freeChains_eq size
  have hhome {a b : ℕ} (ha : a ∈ chain b) : b < size := h.toHolds.key_home ha ▸ hsize _
  refine ⟨m', hm', List.eq_nil_iff_forall_not_mem.mpr fun a ha => ?_, fun b => ?_⟩
  · obtain ⟨hlive, hnot⟩ := (hmem a).mp ha
    obtain ⟨b, hab⟩ := h.owned a hlive
    exact hnot b (hhome hab) hab
  · rw [hb]
    split_ifs with hlt
    · rfl
    · have hempty : chain b = [] := List.eq_nil_iff_forall_not_mem.mpr fun a ha => hlt (hhome ha)
      have hlinked := h.linked b
      rwa [hempty] at hlinked

end Tables

end Tempograph.Pointers
