import Mathlib.Data.List.Basic
import Mathlib.Tactic

/-!
Circular arrays.

A circular array of `n` slots is read from a start slot on, around the end of the array, as
a list of length `n`; moving the start to the next slot rotates that list.
-/

namespace Tempograph.Circular

variable {α β : Type*}

/-- The slots of a circular array, from slot `h` on. -/
def ring (f : ℕ → α) (n h : ℕ) : List α := (List.range n).map fun i => f ((h + i) % n)

variable {f g : ℕ → α} {n h : ℕ}

@[simp] lemma ring_length (f : ℕ → α) (n h : ℕ) : (ring f n h).length = n := by simp [ring]

@[simp] lemma ring_getElem (f : ℕ → α) (n h i : ℕ) (hi : i < (ring f n h).length) :
    (ring f n h)[i] = f ((h + i) % n) := by simp [ring]

/-- Every slot is read once. -/
lemma mem_ring (hn : 0 < n) {x : α} : x ∈ ring f n h ↔ ∃ j < n, f j = x := by
  simp only [ring, List.mem_map, List.mem_range]
  constructor
  · rintro ⟨i, -, rfl⟩
    exact ⟨_, Nat.mod_lt _ hn, rfl⟩
  · rintro ⟨j, hj, rfl⟩
    refine ⟨(j + (n - h % n)) % n, Nat.mod_lt _ hn, ?_⟩
    congr 1
    have hlt := Nat.mod_lt h hn
    have e : h % n + (j + (n - h % n)) = j + n := by omega
    calc (h + (j + (n - h % n)) % n) % n = (h % n + (j + (n - h % n))) % n := by
          simp [Nat.add_mod]
      _ = j := by rw [e, Nat.add_mod_right, Nat.mod_eq_of_lt hj]

lemma ring_map {f : ℕ → α} {g : ℕ → β} {φ : α → β} (hn : 0 < n) (hg : ∀ j < n, g j = φ (f j)) :
    ring g n h = (ring f n h).map φ := by
  simp only [ring, List.map_map]
  exact List.map_congr_left fun i _ => hg _ (Nat.mod_lt _ hn)

/-- The start slot comes first, and the next slot starts the rest. -/
lemma ring_step (hh : h < n) :
    ∃ r, ring f n h = f h :: r ∧ ring f n ((h + 1) % n) = r ++ [f h] := by
  refine ⟨(ring f n h).tail, ?_, ?_⟩
  · apply List.ext_getElem (by simp; omega)
    intro i h1 h2
    cases i with
    | zero => simp [Nat.mod_eq_of_lt hh]
    | succ i => simp
  · apply List.ext_getElem (by simp; omega)
    intro i h1 h2
    simp only [ring_length] at h1
    rcases Nat.lt_or_ge (i + 1) n with hi | hi
    · rw [List.getElem_append_left (by simpa using by omega), List.getElem_tail]
      simp only [ring_getElem]
      congr 1
      rw [Nat.mod_add_mod]
      congr 1
      omega
    · obtain rfl : i = n - 1 := by omega
      rw [List.getElem_append_right (by simp)]
      simp only [ring_getElem, List.getElem_singleton]
      congr 1
      rw [Nat.mod_add_mod, show h + 1 + (n - 1) = h + n by omega, Nat.add_mod_right,
        Nat.mod_eq_of_lt hh]

/-- Writing the start slot changes the first place only. -/
lemma ring_update (hh : h < n) {x : α} {r : List α} (hr : ring f n h = f h :: r) :
    ring (Function.update f h x) n h = x :: r := by
  have hlen : r.length = n - 1 := by
    have := congrArg List.length hr
    simp only [ring_length, List.length_cons] at this
    omega
  apply List.ext_getElem (by simp; omega)
  intro i h1 h2
  simp only [ring_length] at h1
  have hi : (ring f n h)[i]? = (f h :: r)[i]? := by rw [hr]
  rw [List.getElem?_eq_getElem (by simpa using h1), List.getElem?_eq_getElem (by simpa using h2),
    Option.some_inj] at hi
  cases i with
  | zero => simp [Nat.mod_eq_of_lt hh]
  | succ i =>
    have hne : (h + (i + 1)) % n ≠ h := by
      rcases Nat.lt_or_ge (h + (i + 1)) n with h3 | h3
      · rw [Nat.mod_eq_of_lt h3]; omega
      · rw [Nat.mod_eq_sub_mod h3, Nat.mod_eq_of_lt (by omega)]; omega
    simp only [ring_getElem, List.getElem_cons_succ] at hi ⊢
    rw [Function.update_of_ne hne, hi]

end Tempograph.Circular
