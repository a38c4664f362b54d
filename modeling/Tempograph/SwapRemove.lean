import Mathlib.Data.List.Perm.Basic
import Mathlib.Logic.Function.Basic
import Mathlib.Tactic

/-!
Sweeps that rewrite an array in place and drop entries by swap-remove.

A sweep keeps or drops the entry it stands at. An entry that is kept is rewritten and the
sweep moves on; for one that is dropped the last entry is moved into its place, and the
sweep stays to look at that one next.
-/

namespace Tempograph.SwapRemove

variable {α : Type*}

/-- The sweep at entry `i` with `r` entries to go; the array and the number of entries. -/
def sweep (f : α → Option α) (a : ℕ → α) (i : ℕ) : ℕ → (ℕ → α) × ℕ
  | 0 => (a, i)
  | r + 1 =>
    match f (a i) with
    | none => sweep f (Function.update a i (a (i + r))) i r
    | some y => sweep f (Function.update a i y) (i + 1) r

/-- The `r` entries from `i` on. -/
def entries (a : ℕ → α) (i r : ℕ) : List α := (List.range' i r).map a

variable {f : α → Option α} {a : ℕ → α} {i r : ℕ}

lemma entries_succ (a : ℕ → α) (i r : ℕ) : entries a i (r + 1) = a i :: entries a (i + 1) r := by
  simp [entries, List.range'_succ]

lemma entries_snoc (a : ℕ → α) (i r : ℕ) : entries a i (r + 1) = entries a i r ++ [a (i + r)] := by
  simp [entries, List.range'_concat]

lemma entries_update_lt {j : ℕ} (hj : j < i) (x : α) (r : ℕ) :
    entries (Function.update a j x) i r = entries a i r := by
  refine List.map_congr_left fun k hk => Function.update_of_ne ?_ _ _
  have := (List.mem_range'_1.mp hk).1
  omega

/-- Moving the last entry into the place of the first drops the first. -/
lemma entries_move (a : ℕ → α) (i r : ℕ) :
    (entries (Function.update a i (a (i + r))) i r).Perm (entries a (i + 1) r) := by
  cases r with
  | zero => exact List.Perm.refl _
  | succ r =>
    have hlast : i + (r + 1) = i + 1 + r := by omega
    rw [entries_succ, Function.update_self, entries_update_lt (Nat.lt_succ_self i), entries_snoc,
      hlast]
    exact (List.perm_append_singleton _ _).symm

/-- **A sweep looks at every entry once**: what is left is what `f` keeps, in some order, and
nothing before the sweep is touched. -/
theorem sweep_spec (f : α → Option α) (a : ℕ → α) (i r : ℕ) :
    i ≤ (sweep f a i r).2 ∧ (sweep f a i r).2 ≤ i + r ∧
      (∀ j < i, (sweep f a i r).1 j = a j) ∧
      (entries (sweep f a i r).1 i ((sweep f a i r).2 - i)).Perm
        ((entries a i r).filterMap f) := by
  induction r generalizing a i with
  | zero => exact ⟨le_rfl, le_rfl, fun _ _ => rfl, by simp [sweep, entries]⟩
  | succ r ih =>
    rw [entries_succ]
    cases h : f (a i) with
    | none =>
      obtain ⟨h1, h2, h3, h4⟩ := ih (Function.update a i (a (i + r))) i
      simp only [sweep, h, List.filterMap_cons]
      refine ⟨h1, by omega, fun j hj => ?_, h4.trans ((entries_move a i r).filterMap f)⟩
      rw [h3 j hj, Function.update_of_ne (by omega)]
    | some y =>
      obtain ⟨h1, h2, h3, h4⟩ := ih (Function.update a i y) (i + 1)
      simp only [sweep, h, List.filterMap_cons]
      refine ⟨by omega, by omega, fun j hj => ?_, ?_⟩
      · rw [h3 j (by omega), Function.update_of_ne (by omega)]
      · -- the entry kept is the first one left
        obtain ⟨m, hm⟩ : ∃ m, (sweep f (Function.update a i y) (i + 1) r).2 = i + 1 + m :=
          ⟨_, (Nat.add_sub_cancel' h1).symm⟩
        have hlen : i + 1 + m - i = m + 1 := by omega
        rw [hm, Nat.add_sub_cancel_left, entries_update_lt (Nat.lt_succ_self i)] at h4
        rw [hm, hlen, entries_succ, h3 i (Nat.lt_succ_self i), Function.update_self]
        exact h4.cons y

end Tempograph.SwapRemove
