import Mathlib.Data.List.Basic
import Mathlib.Logic.Function.Basic
import Mathlib.Tactic

/-!
Sliding windows.

A window keeps the last `W` items of a history in a circular buffer. It is read from the
most recent item back, each position being found from the head with one remainder.
-/

namespace Tempograph.SlidingWindow

variable {α : Type*}

/-- A circular buffer of capacity `W`; `head` is the next place to write. -/
structure Window (α : Type*) where
  buf : ℕ → α
  head : ℕ
  size : ℕ
  W : ℕ

/-- The place of the item `i` steps back, in machine integers. -/
def Window.pos (w : Window α) (i : ℕ) : ℕ :=
  (((w.head : ℤ) - 1 - i + w.W + w.W).tmod w.W).toNat

/-- The items in the window, the most recent first. -/
def Window.items (w : Window α) : List α := (List.range w.size).map fun i => w.buf (w.pos i)

/-- Write the next item over the oldest. -/
def Window.slide (w : Window α) (x : α) : Window α :=
  { w with
    buf := Function.update w.buf w.head x
    head := (w.head + 1) % w.W
    size := if w.size < w.W then w.size + 1 else w.size }

/-- The window has read the history `h`. -/
structure Holds (W : ℕ) (h : List α) (w : Window α) : Prop where
  cap : w.W = W
  head : w.head = h.length % W
  size : w.size = min h.length W
  /-- Item `k` of the history, if it is one of the last `W`, stands at `k % W`. -/
  buf : ∀ k (hk : k < h.length), h.length ≤ k + W → w.buf (k % W) = h[k]

variable {W : ℕ} {h : List α} {w : Window α}

lemma Holds.pos (hw : Holds W h w) {i : ℕ} (hi : i < w.size) :
    w.pos i = (h.length - 1 - i) % W := by
  have hsize := hw.size
  have hW : 0 < W := by omega
  have hlt : h.length % W < W := Nat.mod_lt _ hW
  -- the place is the one of item `length - 1 - i`, two turns on
  have hint : (w.head : ℤ) - 1 - i + w.W + w.W =
      ((h.length % W + 2 * W - 1 - i : ℕ) : ℤ) := by
    rw [hw.head, hw.cap]; omega
  unfold Window.pos
  rw [hint, hw.cap]
  have hcast : ((h.length % W + 2 * W - 1 - i : ℕ) : ℤ).tmod (W : ℤ) =
      (((h.length % W + 2 * W - 1 - i) % W : ℕ) : ℤ) := by
    rw [Int.tmod_eq_emod_of_nonneg (Int.natCast_nonneg _), Int.natCast_mod]
  rw [hcast, Int.toNat_natCast]
  have hsplit : h.length = W * (h.length / W) + h.length % W := (Nat.div_add_mod _ _).symm
  calc (h.length % W + 2 * W - 1 - i) % W
      = (h.length % W + 2 * W - 1 - i + W * (h.length / W)) % W := by
        rw [Nat.add_mul_mod_self_left]
    _ = (h.length - 1 - i + W * 2) % W := by congr 1; omega
    _ = (h.length - 1 - i) % W := by rw [Nat.add_mul_mod_self_left]

/-- **The window holds the last `W` items**, the most recent first. -/
theorem Holds.items (hw : Holds W h w) : w.items = h.reverse.take W := by
  have hsize := hw.size
  apply List.ext_getElem
  · simp [Window.items, hsize, Nat.min_comm]
  · intro i h1 h2
    have hi : i < w.size := by simpa [Window.items] using h1
    simp only [Window.items, List.getElem_map, List.getElem_range, List.getElem_take,
      List.getElem_reverse]
    rw [hw.pos hi, hw.buf _ (by omega) (by omega)]

lemma holds_nil (W : ℕ) (x : α) : Holds W [] ⟨fun _ => x, 0, 0, W⟩ :=
  ⟨rfl, by simp, by simp, by simp⟩

lemma Holds.slide (hw : Holds W h w) (x : α) : Holds W (h ++ [x]) (w.slide x) := by
  have hsize := hw.size
  refine ⟨hw.cap, ?_, ?_, fun k hk hlast => ?_⟩
  · simp only [Window.slide, hw.head, hw.cap, List.length_append, List.length_singleton]
    rw [Nat.mod_add_mod]
  · simp only [Window.slide, hw.cap, List.length_append, List.length_singleton]
    split_ifs <;> omega
  · simp only [List.length_append, List.length_singleton] at hk hlast
    simp only [Window.slide, hw.head]
    by_cases e : k = h.length
    · subst e; simp
    · -- within one turn no two places are the same
      have hne : k % W ≠ h.length % W := by
        intro e'
        obtain ⟨d, hd⟩ : ∃ d, h.length = k + d := ⟨h.length - k, by omega⟩
        have hdvd : W ∣ d := by
          have := (Nat.ModEq.symm e' : h.length ≡ k [MOD W])
          rw [hd] at this
          exact (Nat.modEq_zero_iff_dvd).mp (Nat.ModEq.add_left_cancel' k (by simpa using this))
        have := Nat.le_of_dvd (by omega) hdvd
        omega
      rw [Function.update_of_ne hne, hw.buf k (by omega) (by omega)]
      simp [List.getElem_append_left (show k < h.length by omega)]

end Tempograph.SlidingWindow
