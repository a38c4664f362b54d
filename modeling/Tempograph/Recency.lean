import Mathlib.Data.Finset.Card
import Mathlib.Data.List.DropRight
import Mathlib.Tactic

/-!
The order of last use.

A history is a list of requests, the oldest first. Its recency list holds each requested
item once, the last requested first: every request moves its item to the front. The first
`c` places of the recency list are the `c` most recently used items.
-/

namespace Tempograph.Recency

variable {α β : Type*} [DecidableEq α] [DecidableEq β]

/-- Move `x` to the front, or put it there. -/
def touch (x : α) (l : List α) : List α := x :: l.erase x

/-- The distinct items of a history, the most recently used first. -/
def recency (h : List α) : List α := h.foldl (fun l x => touch x l) []

/-- The number of the last request for `q`, counted from one; zero if there is none. -/
def lastAccess (h : List α) (q : α) : ℕ := h.length - h.reverse.idxOf q

@[simp] lemma recency_nil : recency ([] : List α) = [] := rfl

@[simp] lemma recency_snoc (h : List α) (x : α) : recency (h ++ [x]) = touch x (recency h) := by
  simp [recency]

@[simp] lemma lastAccess_nil (q : α) : lastAccess [] q = 0 := rfl

@[simp] lemma lastAccess_snoc (h : List α) (x q : α) :
    lastAccess (h ++ [x]) q = if q = x then h.length + 1 else lastAccess h q := by
  unfold lastAccess
  by_cases hq : q = x
  · simp [hq]
  · have hx : (x == q) = false := by simpa using fun e => hq e.symm
    simp [List.idxOf_cons, hx, hq]

/-- Of two items the requested one was requested last at a time of its own. -/
lemma lastAccess_inj {h : List α} {q r : α} (hq : q ∈ h) (e : lastAccess h q = lastAccess h r) :
    q = r := by
  have hlt : h.reverse.idxOf q < h.length := by
    rw [← List.length_reverse]
    exact List.idxOf_lt_length_of_mem (List.mem_reverse.mpr hq)
  have hle : h.reverse.idxOf r ≤ h.length := by
    rw [← List.length_reverse]
    exact List.idxOf_le_length
  have hidx : h.reverse.idxOf q = h.reverse.idxOf r := by
    unfold lastAccess at e
    omega
  exact (List.idxOf_inj (List.mem_reverse.mpr hq)).mp hidx

lemma lastAccess_le (h : List α) (q : α) : lastAccess h q ≤ h.length := Nat.sub_le _ _

/-! ### Moving to the front -/

@[simp] lemma mem_touch {x y : α} {l : List α} : y ∈ touch x l ↔ y = x ∨ y ∈ l := by
  by_cases h : y = x
  · simp [touch, h]
  · simp [touch, h, List.mem_erase_of_ne h]

lemma mem_touch_of_mem {x y : α} {l : List α} (hx : x ∈ l) : y ∈ touch x l ↔ y ∈ l := by
  rw [mem_touch]
  exact ⟨fun hy => hy.elim (fun e => e ▸ hx) id, Or.inr⟩

lemma nodup_touch {x : α} {l : List α} (h : l.Nodup) : (touch x l).Nodup :=
  List.nodup_cons.mpr ⟨h.not_mem_erase, h.erase x⟩

lemma touch_of_not_mem {x : α} {l : List α} (h : x ∉ l) : touch x l = x :: l := by
  rw [touch, List.erase_of_not_mem h]

lemma length_touch_of_mem {x : α} {l : List α} (h : x ∈ l) : (touch x l).length = l.length := by
  have := List.length_pos_of_mem h
  simp only [touch, List.length_cons, List.length_erase_of_mem h]
  omega

lemma sublist_touch {x : α} {l m : List α} (h : l.Sublist m) :
    (touch x l).Sublist (touch x m) := (h.erase x).cons_cons x

/-- A list that does not hold `x` stays behind when `x` moves to the front. -/
lemma sublist_touch_of_not_mem {x : α} {l m : List α} (h : l.Sublist m) (hx : x ∉ l) :
    l.Sublist (touch x m) := by
  have := h.erase x
  rw [List.erase_of_not_mem hx] at this
  exact this.cons x

/-- Whether the first `k` places of an erased list change is seen in the first `k + 1`. -/
lemma take_erase (x : α) (l : List α) (k : ℕ) :
    (l.erase x).take k = ((l.take (k + 1)).erase x).take k := by
  induction l generalizing k with
  | nil => simp
  | cons a r ih =>
    by_cases h : a = x
    · subst h; simp
    · have ha : (a == x) = false := by simpa using h
      cases k with
      | zero => simp
      | succ k => simp [ha, ih k]

/-- **The first places of a list that moves an item to the front depend only on its first
places.** -/
lemma take_touch (x : α) (l : List α) (m : ℕ) :
    (touch x l).take m = (touch x (l.take m)).take m := by
  cases m with
  | zero => rfl
  | succ k => simp [touch, take_erase x l k]

/-- What is among the first places was so before, or was just moved there. -/
lemma mem_take_touch {x q : α} {l : List α} {c : ℕ} (h : q ∈ (touch x l).take c) :
    q = x ∨ q ∈ l.take c := by
  cases c with
  | zero => simp at h
  | succ k =>
    rcases List.mem_cons.mp h with rfl | h
    · exact Or.inl rfl
    · rw [take_erase] at h
      exact Or.inr (List.mem_of_mem_erase (List.mem_of_mem_take h))

omit [DecidableEq α] in
/-- The last item of a long sublist is far back. -/
lemma not_mem_take_of_sublist {l r : List α} {q : α} {c : ℕ} (h : (l ++ [q]).Sublist r)
    (hr : r.Nodup) (hl : c ≤ l.length) : q ∉ r.take c := by
  obtain ⟨r₁, r₂, rfl, h₁, h₂⟩ := List.append_sublist_iff.mp h
  intro hq
  rw [List.take_append_of_le_length (hl.trans h₁.length_le)] at hq
  exact List.disjoint_of_nodup_append hr (List.mem_of_mem_take hq) (h₂.subset (by simp))

/-! ### The recency list -/

@[simp] lemma mem_recency {h : List α} {q : α} : q ∈ recency h ↔ q ∈ h := by
  induction h using List.reverseRecOn with
  | nil => simp
  | append_singleton h x ih => simp [ih, or_comm]

lemma nodup_recency (h : List α) : (recency h).Nodup := by
  induction h using List.reverseRecOn with
  | nil => exact List.nodup_nil
  | append_singleton h x ih => rw [recency_snoc]; exact nodup_touch ih

lemma length_eq_card {s l : List α} (hs : s.Nodup) (h : ∀ x, x ∈ s ↔ x ∈ l) :
    s.length = l.toFinset.card := by
  rw [← List.toFinset_card_of_nodup hs]
  congr 1
  ext x
  simp [h]

lemma length_recency (h : List α) : (recency h).length = h.toFinset.card :=
  length_eq_card (nodup_recency h) fun _ => mem_recency

/-- The recency list falls strictly in the number of the last request. -/
theorem pairwise_recency (h : List α) :
    (recency h).Pairwise fun a b => lastAccess h b < lastAccess h a := by
  induction h using List.reverseRecOn with
  | nil => exact List.Pairwise.nil
  | append_singleton h x ih =>
    rw [recency_snoc, touch, List.pairwise_cons]
    have hne : ∀ b ∈ (recency h).erase x, b ≠ x := fun b hb =>
      ((nodup_recency h).mem_erase_iff.mp hb).1
    refine ⟨fun b hb => ?_, ?_⟩
    · have := lastAccess_le h b
      simp only [lastAccess_snoc, hne b hb, if_false, if_true]
      omega
    · refine (ih.sublist List.erase_sublist).imp_of_mem fun {a b} ha hb hab => ?_
      simpa [hne a ha, hne b hb] using hab

/-- What the recency list holds before an item is what came after its last request. -/
lemma recency_split {q : α} (before since : List α) (hq : q ∉ since) :
    ∃ s r, recency (before ++ q :: since) = s ++ q :: r ∧ q ∉ s ∧
      s.length = since.toFinset.card := by
  suffices ∃ s r, recency (before ++ q :: since) = s ++ q :: r ∧ s.Nodup ∧
      ∀ x, x ∈ s ↔ x ∈ since by
    obtain ⟨s, r, h, hnd, hmem⟩ := this
    exact ⟨s, r, h, fun hs => hq ((hmem q).mp hs), length_eq_card hnd hmem⟩
  induction since using List.reverseRecOn with
  | nil => exact ⟨[], (recency before).erase q, by simp [touch], by simp, by simp⟩
  | append_singleton since x ih =>
    simp only [List.mem_append, List.mem_singleton, not_or] at hq
    obtain ⟨s, r, hs, hnd, hmem⟩ := ih hq.1
    rw [← List.cons_append, ← List.append_assoc, recency_snoc, hs]
    by_cases hx : x ∈ s
    · refine ⟨touch x s, r, by simp [touch, List.erase_append_left _ hx], nodup_touch hnd, ?_⟩
      intro y; rw [mem_touch, hmem]; simp [or_comm]
    · have hxq : (q == x) = false := by simpa using fun e => hq.2 e
      refine ⟨x :: s, r.erase x, ?_, List.nodup_cons.mpr ⟨hx, hnd⟩, ?_⟩
      · simp [touch, List.erase_append_right _ hx, hxq]
      · intro y; rw [List.mem_cons, hmem]; simp [or_comm]

/-- The last request for an item splits the history. -/
lemma exists_last_split {q : α} {h : List α} (hq : q ∈ h) :
    ∃ before since, h = before ++ q :: since ∧ q ∉ since := by
  induction h using List.reverseRecOn with
  | nil => simp at hq
  | append_singleton h x ih =>
    by_cases hx : q = x
    · exact ⟨h, [], by simp [hx], by simp⟩
    · obtain ⟨b, s, rfl, hs⟩ := ih (by simpa [hx] using hq)
      exact ⟨b, s ++ [x], by simp, by simp [hs, hx]⟩

/-- An item is among the `c` most recent if fewer than `c` distinct items came after some
request for it. -/
lemma mem_take_recency_of {q : α} {c : ℕ} {before since : List α}
    (hc : since.toFinset.card < c) : q ∈ (recency (before ++ q :: since)).take c := by
  -- the split at the last request for `q`, which lies in `since` if `since` holds one
  obtain ⟨b, s, hbs, hs⟩ := exists_last_split (q := q) (h := q :: since) (by simp)
  have hsub : s.toFinset ⊆ since.toFinset := by
    intro x hx
    rcases b with _ | ⟨a, b⟩
    · simp_all
    · have : since = b ++ q :: s := by simpa using (List.cons.inj hbs).2
      simp_all
  obtain ⟨u, r, hu, -, hlen⟩ := recency_split (before ++ b) s hs
  have hle := Finset.card_le_card hsub
  rw [hbs, ← List.append_assoc, hu, List.take_append, List.mem_append]
  right
  rw [show c - u.length = (c - u.length - 1) + 1 by omega]
  simp

/-- **Stack distance.** An item is among the `c` most recent exactly when it was requested
and fewer than `c` distinct items were requested after its last request. -/
theorem mem_take_recency {q : α} {c : ℕ} {h : List α} :
    q ∈ (recency h).take c ↔
      ∃ before since, h = before ++ q :: since ∧ q ∉ since ∧ since.toFinset.card < c := by
  constructor
  · intro hq
    obtain ⟨b, s, rfl, hs⟩ := exists_last_split (mem_recency.mp (List.mem_of_mem_take hq))
    refine ⟨b, s, rfl, hs, ?_⟩
    obtain ⟨u, r, hu, hqu, hlen⟩ := recency_split b s hs
    rw [hu, List.take_append] at hq
    rcases List.mem_append.mp hq with h1 | h1
    · exact absurd (List.mem_of_mem_take h1) hqu
    · have := List.length_pos_of_mem h1
      simp only [List.length_take] at this
      omega
  · rintro ⟨b, s, rfl, -, hc⟩
    exact mem_take_recency_of hc

lemma card_toFinset_map_le (f : α → β) (l : List α) :
    (l.map f).toFinset.card ≤ l.toFinset.card := by
  have himage : (l.map f).toFinset = l.toFinset.image f := by ext x; simp
  rw [himage]
  exact Finset.card_image_le

/-- Merging items never makes a recently used one less recent. -/
theorem mem_take_recency_map {q : α} {c : ℕ} {h : List α} (f : α → β)
    (hq : q ∈ (recency h).take c) : f q ∈ (recency (h.map f)).take c := by
  obtain ⟨b, s, rfl, -, hc⟩ := mem_take_recency.mp hq
  rw [List.map_append, List.map_cons]
  exact mem_take_recency_of ((card_toFinset_map_le f s).trans_lt hc)

/-- The list holds the `c` most recently used items of the history, or all if there are
fewer, the most recent first. -/
structure MostRecent (c : ℕ) (h l : List α) : Prop where
  length : l.length = min c h.toFinset.card
  mem : ∀ q ∈ l, q ∈ h
  sorted : l.Pairwise fun a b => lastAccess h b < lastAccess h a
  newest : ∀ q ∈ h, q ∉ l → ∀ r ∈ l, lastAccess h q < lastAccess h r

/-- **The first `c` places of the recency list are the `c` most recent items.** -/
theorem mostRecent_take (c : ℕ) (h : List α) : MostRecent c h ((recency h).take c) where
  length := by rw [List.length_take, length_recency]
  mem q hq := mem_recency.mp (List.mem_of_mem_take hq)
  sorted := (pairwise_recency h).sublist (List.take_sublist _ _)
  newest q hq hn r hr := by
    have hq' : q ∈ (recency h).drop c := by
      have := mem_recency.mpr hq
      rw [← List.take_append_drop c (recency h)] at this
      exact (List.mem_append.mp this).resolve_left hn
    have hp := pairwise_recency h
    rw [← List.take_append_drop c (recency h), List.pairwise_append] at hp
    exact hp.2.2 r hr q hq'

/-- Erasing commutes with a map that tells the erased item from the others. -/
lemma map_erase_of_injOn {f : α → β} {x : α} {l : List α} (hf : ∀ y ∈ l, f y = f x → y = x) :
    (l.erase x).map f = (l.map f).erase (f x) := by
  induction l with
  | nil => rfl
  | cons a r ih =>
    have ih := ih fun y hy => hf y (List.mem_cons_of_mem _ hy)
    by_cases h : a = x
    · simp [h]
    · have : f a ≠ f x := fun e => h (hf a (by simp) e)
      simp [h, this, ih]

lemma map_touch_of_injOn {f : α → β} {x : α} {l : List α} (hf : ∀ y ∈ l, f y = f x → y = x) :
    (touch x l).map f = touch (f x) (l.map f) := by
  rw [touch, List.map_cons, map_erase_of_injOn hf]; rfl

/-- Renaming items renames the recency list. -/
lemma recency_map {f : α → β} (hf : Function.Injective f) (h : List α) :
    recency (h.map f) = (recency h).map f := by
  induction h using List.reverseRecOn with
  | nil => rfl
  | append_singleton h x ih =>
    rw [List.map_append, List.map_singleton, recency_snoc, recency_snoc, ih,
      map_touch_of_injOn fun _ _ e => hf e]

end Tempograph.Recency
