import Mathlib.Data.Finset.Card
import Mathlib.Logic.Function.Basic
import Mathlib.Tactic

/-!
Caches of slots with a mark for the empty ones.

A cache has `n` slots, and one item `e` marks a slot as empty. A request is a hit if some
slot holds its item; a fault writes the item to one slot, an empty one as long as there are
empty ones. While fewer than `n` distinct items were requested nothing is evicted. The mark
is harmless if it is not requested before the cache is full.
-/

namespace Tempograph.Slots

variable {α : Type*} [DecidableEq α] {e x : α} {n : ℕ} {h : List α} {P P' : ℕ → α}

/-- The slots that are not marked empty. -/
def used (e : α) (n : ℕ) (P : ℕ → α) : Finset ℕ := (Finset.range n).filter fun i => P i ≠ e

/-- Some slot holds `x`. -/
def Held (n : ℕ) (P : ℕ → α) (x : α) : Prop := ∃ i < n, P i = x

/-- The slots after the requests `h`. -/
structure Filled (e : α) (n : ℕ) (h : List α) (P : ℕ → α) : Prop where
  inj : ∀ i < n, ∀ j < n, P i = P j → i = j ∨ P i = e ∧ h.toFinset.card < n
  mem : ∀ i < n, P i ∈ h ∨ P i = e ∧ h.toFinset.card < n
  held : h.toFinset.card ≤ n → ∀ y ∈ h, Held n P y
  count : h.toFinset.card ≤ n → (used e n P).card = h.toFinset.card
  mark : h.toFinset.card < n → e ∉ h

/-- What a request does to the slots. -/
inductive Request (e : α) (n : ℕ) (h : List α) (P : ℕ → α) (x : α) (P' : ℕ → α) : Prop
  | hit : Held n P x → (∀ i < n, P' i = P i) → Request e n h P x P'
  | fault (v : ℕ) : ¬Held n P x → v < n → (h.toFinset.card < n → P v = e) →
      (∀ i < n, P' i = if i = v then x else P i) → Request e n h P x P'

lemma mem_used {i : ℕ} : i ∈ used e n P ↔ i < n ∧ P i ≠ e := by simp [used]

lemma filled_nil (hn : 1 ≤ n) (hP : ∀ i < n, P i = e) : Filled e n [] P where
  inj i hi j _ _ := Or.inr ⟨hP i hi, hn⟩
  mem i hi := Or.inr ⟨hP i hi, hn⟩
  held _ y hy := by simp at hy
  count _ := by
    have : used e n P = ∅ := by
      rw [used, Finset.filter_eq_empty_iff]
      intro i hi hne
      exact hne (hP i (by simpa using hi))
    simp [this]
  mark _ := List.not_mem_nil

/-- All slots are used when as many are used as there are. -/
lemma ne_of_card_used (h : n ≤ (used e n P).card) {i : ℕ} (hi : i < n) : P i ≠ e := by
  have hall : used e n P = Finset.range n :=
    Finset.eq_of_subset_of_card_le (Finset.filter_subset _ _) (by simpa using h)
  have hm : i ∈ used e n P := by rw [hall]; simpa using hi
  exact (mem_used.mp hm).2

/-- Some slot is empty when fewer are used than there are. -/
lemma held_of_card_used (h : (used e n P).card < n) : Held n P e := by
  by_contra hall
  have hused : used e n P = Finset.range n := by
    rw [used, Finset.filter_eq_self]
    exact fun i hi he => hall ⟨i, by simpa using hi, he⟩
  rw [hused, Finset.card_range] at h
  exact Nat.lt_irrefl n h

/-- There is an empty slot until `n` distinct items were requested. -/
lemma Filled.exists_empty (hf : Filled e n h P) (hlt : h.toFinset.card < n) : Held n P e :=
  held_of_card_used ((hf.count hlt.le).trans_lt hlt)

/-- **No unseen item is held**, if it is not the mark of an empty slot. -/
lemma Filled.mem_of_held (hf : Filled e n h P) (hx : h.toFinset.card < n → x ≠ e)
    (hh : Held n P x) : x ∈ h := by
  obtain ⟨i, hi, rfl⟩ := hh
  rcases hf.mem i hi with hm | ⟨he, hlt⟩
  · exact hm
  · exact absurd he (hx hlt)

lemma card_snoc (h : List α) (x : α) : (h ++ [x]).toFinset.card =
    if x ∈ h then h.toFinset.card else h.toFinset.card + 1 := by
  have : (h ++ [x]).toFinset = insert x h.toFinset := by ext; simp
  rw [this]
  split_ifs with hx
  · rw [Finset.insert_eq_of_mem (by simpa using hx)]
  · rw [Finset.card_insert_of_notMem (by simpa using hx)]

lemma Filled.hit (hf : Filled e n h P) (hx : h.toFinset.card < n → x ≠ e) (hh : Held n P x)
    (hP : ∀ i < n, P' i = P i) : Filled e n (h ++ [x]) P' := by
  have hm := hf.mem_of_held hx hh
  have hset : (h ++ [x]).toFinset = h.toFinset := by
    ext y
    simp only [List.mem_toFinset, List.mem_append, List.mem_singleton]
    exact ⟨fun hy => hy.elim id fun e => e ▸ hm, Or.inl⟩
  have hused : used e n P' = used e n P := by
    ext i
    rw [mem_used, mem_used]
    exact and_congr_right fun hi => by rw [hP i hi]
  refine ⟨fun i hi j hj => ?_, fun i hi => ?_, fun hc y hy => ?_, fun hc => ?_, fun hc => ?_⟩
  · rw [hset, hP i hi, hP j hj]; exact hf.inj i hi j hj
  · rw [hset, hP i hi]; exact (hf.mem i hi).imp_left fun h => List.mem_append_left _ h
  · rw [hset] at hc
    rcases List.mem_append.mp hy with hy | hy
    · obtain ⟨i, hi, rfl⟩ := hf.held hc y hy
      exact ⟨i, hi, hP i hi⟩
    · obtain ⟨i, hi, rfl⟩ := hh
      exact ⟨i, hi, (hP i hi).trans (List.mem_singleton.mp hy).symm⟩
  · rw [hset] at hc ⊢
    rw [hused]; exact hf.count hc
  · rw [hset] at hc
    simp only [List.mem_append, List.mem_singleton, not_or]
    exact ⟨hf.mark hc, fun e => hx hc e.symm⟩

/-- A fault while there are empty slots fills one of them. -/
lemma Filled.fill (hf : Filled e n h P) (hlt : h.toFinset.card < n) (hx : x ≠ e)
    (hh : ¬Held n P x) {v : ℕ} (hv : v < n) (hfree : P v = e)
    (hP : ∀ i < n, P' i = if i = v then x else P i) : Filled e n (h ++ [x]) P' := by
  have hxh : x ∉ h := fun hm => hh (hf.held hlt.le x hm)
  have hcard : (h ++ [x]).toFinset.card = h.toFinset.card + 1 := by
    rw [card_snoc, if_neg hxh]
  have hold : ∀ i < n, i ≠ v → P' i = P i := fun i hi hiv => by rw [hP i hi, if_neg hiv]
  have hnew : P' v = x := by rw [hP v hv, if_pos rfl]
  have hused : (used e n P').card = h.toFinset.card + 1 := by
    have hins : used e n P' = insert v (used e n P) := by
      ext i
      rw [Finset.mem_insert, mem_used, mem_used]
      by_cases hiv : i = v
      · subst hiv; simp [hnew, hx, hv]
      · simp only [hiv, false_or]
        exact and_congr_right fun hi => by rw [hold i hi hiv]
    rw [hins, Finset.card_insert_of_notMem (by simp [mem_used, hfree]), hf.count hlt.le]
  -- the last empty slot is gone with the `n`-th item
  have hlast : ∀ i < n, P' i = e → h.toFinset.card + 1 < n := by
    intro i hi he
    by_contra hge
    exact ne_of_card_used (by omega) hi he
  refine ⟨fun i hi j hj heq => ?_, fun i hi => ?_, fun hc y hy => ?_, fun _ => ?_, fun hc => ?_⟩
  · rw [hcard]
    by_cases h1 : i = v <;> by_cases h2 : j = v
    · exact Or.inl (h1.trans h2.symm)
    · rw [h1, hnew, hold j hj h2] at heq
      exact absurd ⟨j, hj, heq.symm⟩ hh
    · rw [h2, hnew, hold i hi h1] at heq
      exact absurd ⟨i, hi, heq⟩ hh
    · have heq' := heq
      rw [hold i hi h1, hold j hj h2] at heq'
      rcases hf.inj i hi j hj heq' with e' | ⟨e', -⟩
      · exact Or.inl e'
      · have he := (hold i hi h1).trans e'
        exact Or.inr ⟨he, hlast i hi he⟩
  · rw [hcard]
    by_cases h1 : i = v
    · left; rw [h1, hnew]; simp
    · rcases hf.mem i hi with hm | ⟨e', -⟩
      · left; rw [hold i hi h1]; exact List.mem_append_left _ hm
      · have he := (hold i hi h1).trans e'
        exact Or.inr ⟨he, hlast i hi he⟩
  · rcases List.mem_append.mp hy with hy | hy
    · obtain ⟨i, hi, rfl⟩ := hf.held hlt.le y hy
      have hiv : i ≠ v := by
        rintro rfl
        exact hf.mark hlt (hfree ▸ hy)
      exact ⟨i, hi, hold i hi hiv⟩
    · exact ⟨v, hv, hnew.trans (List.mem_singleton.mp hy).symm⟩
  · rw [hused, hcard]
  · simp only [List.mem_append, List.mem_singleton, not_or]
    exact ⟨hf.mark hlt, fun e' => hx e'.symm⟩

/-- A fault of a full cache replaces an item. -/
lemma Filled.replace (hf : Filled e n h P) (hge : n ≤ h.toFinset.card) (hh : ¬Held n P x)
    {v : ℕ} (hP : ∀ i < n, P' i = if i = v then x else P i) : Filled e n (h ++ [x]) P' := by
  have hxh : h.toFinset.card ≤ n → x ∉ h := fun hc hm => hh (hf.held hc x hm)
  have hcard : n < (h ++ [x]).toFinset.card := by
    rw [card_snoc]
    split_ifs with hm
    · by_contra hc
      exact hxh (by omega) hm
    · omega
  refine ⟨fun i hi j hj heq => ?_, fun i hi => ?_, fun hc => by omega, fun hc => by omega,
    fun hc => by omega⟩
  · left
    rw [hP i hi, hP j hj] at heq
    split_ifs at heq with h1 h2 h2
    · exact h1.trans h2.symm
    · exact absurd ⟨j, hj, heq.symm⟩ hh
    · exact absurd ⟨i, hi, heq⟩ hh
    · exact (hf.inj i hi j hj heq).resolve_right fun h => by omega
  · left
    rw [hP i hi]
    split_ifs
    · simp
    · exact List.mem_append_left _ ((hf.mem i hi).resolve_right fun h => by omega)

/-- **One request** keeps the account of the slots. -/
theorem Filled.step (hf : Filled e n h P) (hx : h.toFinset.card < n → x ≠ e)
    (hr : Request e n h P x P') : Filled e n (h ++ [x]) P' := by
  cases hr with
  | hit hh hP => exact hf.hit hx hh hP
  | fault v hh hv hfree hP =>
    rcases Nat.lt_or_ge h.toFinset.card n with hlt | hge
    · exact hf.fill hlt (hx hlt) hh hv (hfree hlt) hP
    · exact hf.replace hge hh hP

end Tempograph.Slots
