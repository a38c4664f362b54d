import Mathlib.Data.List.Nodup
import Mathlib.Logic.Function.Basic
import Mathlib.Tactic

/-!
Hash tables with chaining.

A table is an array of chains. A key lives in the chain its hash names, and no chain holds
a key twice; a table carries both facts, so a lookup after an update needs no hypothesis.
-/

namespace Tempograph.ChainMap

variable {κ β : Type*} [DecidableEq κ]

/-- The value at the first entry for `k`. -/
def chainGet : List (κ × β) → κ → Option β
  | [], _ => none
  | (k', v) :: r, k => if k' = k then some v else chainGet r k

/-- The chain with the value at the first entry for `k` overwritten, if there is one. -/
def chainSet : List (κ × β) → κ → β → Option (List (κ × β))
  | [], _, _ => none
  | (k', w) :: r, k, v =>
    if k' = k then some ((k', v) :: r) else (chainSet r k v).map ((k', w) :: ·)

/-- Overwrite the entry for `k`, or put a new entry in front. -/
def chainPut (l : List (κ × β)) (k : κ) (v : β) : List (κ × β) :=
  match chainSet l k v with
  | some l' => l'
  | none => (k, v) :: l

/-- Take out the first entry for `k`. -/
def chainDel : List (κ × β) → κ → List (κ × β)
  | [], _ => []
  | (k', w) :: r, k => if k' = k then r else (k', w) :: chainDel r k

def keys (l : List (κ × β)) : List κ := l.map Prod.fst

/-! ### One chain -/

lemma chainSet_eq_none {l : List (κ × β)} {k : κ} {v : β} :
    chainSet l k v = none ↔ k ∉ keys l := by
  induction l with
  | nil => simp [chainSet, keys]
  | cons e r ih =>
    obtain ⟨k', w⟩ := e
    simp only [keys] at ih
    by_cases h : k' = k
    · simp [chainSet, keys, h]
    · simp [chainSet, keys, h, ih, Ne.symm h]

lemma keys_chainSet {l l' : List (κ × β)} {k : κ} {v : β} (h : chainSet l k v = some l') :
    keys l' = keys l := by
  induction l generalizing l' with
  | nil => simp [chainSet] at h
  | cons e r ih =>
    obtain ⟨k', w⟩ := e
    by_cases hk : k' = k
    · simp only [chainSet, hk, if_true, Option.some.injEq] at h
      simp [← h, keys, hk]
    · simp only [chainSet, hk, if_false, Option.map_eq_some_iff] at h
      obtain ⟨r', hr, rfl⟩ := h
      have := ih hr
      simp only [keys] at this
      simp [keys, this]

lemma chainGet_chainSet {l l' : List (κ × β)} {k q : κ} {v : β} (h : chainSet l k v = some l') :
    chainGet l' q = if q = k then some v else chainGet l q := by
  induction l generalizing l' with
  | nil => simp [chainSet] at h
  | cons e r ih =>
    obtain ⟨k', w⟩ := e
    by_cases hk : k' = k
    · simp only [chainSet, hk, if_true, Option.some.injEq] at h
      subst h
      by_cases hq : q = k
      · simp [chainGet, hq]
      · simp [chainGet, hk, hq, Ne.symm hq]
    · simp only [chainSet, hk, if_false, Option.map_eq_some_iff] at h
      obtain ⟨r', hr, rfl⟩ := h
      by_cases hq : k' = q
      · have : q ≠ k := hq ▸ hk
        simp [chainGet, hq, this]
      · simp [chainGet, hq, ih hr]

lemma keys_chainPut (l : List (κ × β)) (k : κ) (v : β) :
    keys (chainPut l k v) = if k ∈ keys l then keys l else k :: keys l := by
  unfold chainPut
  cases h : chainSet l k v with
  | none => rw [if_neg (chainSet_eq_none.mp h)]; rfl
  | some l' =>
    have hk : k ∈ keys l := by
      by_contra hk
      rw [chainSet_eq_none.mpr hk] at h
      simp at h
    rw [if_pos hk]
    exact keys_chainSet h

lemma chainGet_chainPut (l : List (κ × β)) (k q : κ) (v : β) :
    chainGet (chainPut l k v) q = if q = k then some v else chainGet l q := by
  unfold chainPut
  cases h : chainSet l k v with
  | none =>
    by_cases hq : q = k
    · simp [chainGet, hq]
    · simp [chainGet, hq, Ne.symm hq]
  | some l' => exact chainGet_chainSet h

lemma chainDel_sublist (l : List (κ × β)) (k : κ) : (chainDel l k).Sublist l := by
  induction l with
  | nil => exact List.Sublist.refl _
  | cons e r ih =>
    obtain ⟨k', w⟩ := e
    by_cases h : k' = k
    · simp [chainDel, h]
    · simpa [chainDel, h] using ih

lemma chainGet_eq_none {l : List (κ × β)} {k : κ} : chainGet l k = none ↔ k ∉ keys l := by
  induction l with
  | nil => simp [chainGet, keys]
  | cons e r ih =>
    obtain ⟨k', w⟩ := e
    simp only [keys] at ih
    by_cases h : k' = k
    · simp [chainGet, keys, h]
    · simp [chainGet, keys, h, ih, Ne.symm h]

/-- Taking the first entry out takes the only one out when no key occurs twice. -/
lemma chainGet_chainDel {l : List (κ × β)} (hl : (keys l).Nodup) (k q : κ) :
    chainGet (chainDel l k) q = if q = k then none else chainGet l q := by
  induction l with
  | nil => simp [chainDel, chainGet]
  | cons e r ih =>
    obtain ⟨k', w⟩ := e
    simp only [keys, List.map_cons, List.nodup_cons] at hl
    by_cases h : k' = k
    · subst h
      by_cases hq : q = k'
      · simp only [chainDel, if_true, hq]
        exact chainGet_eq_none.mpr hl.1
      · simp [chainDel, chainGet, hq, Ne.symm hq]
    · by_cases hq : k' = q
      · have : q ≠ k := hq ▸ h
        simp [chainDel, chainGet, hq, this]
      · simp [chainDel, chainGet, h, hq, ih hl.2]

/-! ### The table -/

/-- A new first member of one of many lists. -/
lemma mem_update_cons {ι α : Type*} [DecidableEq ι] {f : ι → List α} {i j : ι} {a x : α} :
    x ∈ Function.update f i (a :: f i) j ↔ x = a ∧ j = i ∨ x ∈ f j := by
  by_cases hj : j = i
  · subst hj
    simp
  · simp [hj]

/-- A table of chains. -/
structure Table (κ β : Type*) (hash : κ → ℕ) where
  bucket : ℕ → List (κ × β)
  /-- No chain holds a key twice. -/
  nodup : ∀ b, (keys (bucket b)).Nodup
  /-- A key is in the chain its hash names. -/
  home : ∀ b, ∀ k ∈ keys (bucket b), hash k = b

variable {hash : κ → ℕ}

namespace Table

def empty : Table κ β hash := ⟨fun _ => [], by simp [keys], by simp [keys]⟩

def get (t : Table κ β hash) (k : κ) : Option β := chainGet (t.bucket (hash k)) k

def put (t : Table κ β hash) (k : κ) (v : β) : Table κ β hash where
  bucket := Function.update t.bucket (hash k) (chainPut (t.bucket (hash k)) k v)
  nodup b := by
    by_cases hb : b = hash k
    · subst hb
      have := t.nodup (hash k)
      rw [Function.update_self, keys_chainPut]
      split_ifs with h
      · exact this
      · exact List.nodup_cons.mpr ⟨h, this⟩
    · rw [Function.update_of_ne hb]; exact t.nodup b
  home b q hq := by
    by_cases hb : b = hash k
    · subst hb
      rw [Function.update_self, keys_chainPut] at hq
      split_ifs at hq with h
      · exact t.home _ q hq
      · rcases List.mem_cons.mp hq with rfl | hq
        · rfl
        · exact t.home _ q hq
    · rw [Function.update_of_ne hb] at hq; exact t.home b q hq

def del (t : Table κ β hash) (k : κ) : Table κ β hash where
  bucket := Function.update t.bucket (hash k) (chainDel (t.bucket (hash k)) k)
  nodup b := by
    by_cases hb : b = hash k
    · subst hb
      rw [Function.update_self]
      exact (t.nodup _).sublist ((chainDel_sublist _ _).map _)
    · rw [Function.update_of_ne hb]; exact t.nodup b
  home b q hq := by
    by_cases hb : b = hash k
    · subst hb
      rw [Function.update_self] at hq
      exact t.home _ q (((chainDel_sublist _ _).map _).subset hq)
    · rw [Function.update_of_ne hb] at hq; exact t.home b q hq

@[simp] lemma get_empty (k : κ) : (empty : Table κ β hash).get k = none := rfl

lemma get_put (t : Table κ β hash) (k q : κ) (v : β) :
    (t.put k v).get q = if q = k then some v else t.get q := by
  by_cases hb : hash q = hash k
  · simp [get, put, hb, chainGet_chainPut]
  · have : q ≠ k := fun e => hb (by rw [e])
    simp [get, put, hb, this]

lemma get_del (t : Table κ β hash) (k q : κ) :
    (t.del k).get q = if q = k then none else t.get q := by
  by_cases hb : hash q = hash k
  · simp [get, del, hb, chainGet_chainDel (t.nodup _)]
  · have : q ≠ k := fun e => hb (by rw [e])
    simp [get, del, hb, this]

/-- Putting the value a key has changes no lookup. -/
lemma get_put_same {t : Table κ β hash} {k : κ} {v : β} (h : t.get k = some v) (q : κ) :
    (t.put k v).get q = t.get q := by
  rw [get_put]
  split_ifs with hq
  · rw [hq, h]
  · rfl

end Table

end Tempograph.ChainMap
