import Mathlib.Data.List.Basic
import Mathlib.Tactic

/-!
Queues that give second chances.

Each entry has a bit. The queue settles by moving its front entry to the back, with the bit
cleared, for as long as the bit of the front entry is set.
-/

namespace Tempograph.SecondChance

variable {α : Type*}

/-- Move the front entry to the back, its bit cleared, while its bit is set. -/
def settle : List (α × Bool) → List (α × Bool)
  | (x, true) :: r => settle (r ++ [(x, false)])
  | (x, false) :: r => (x, false) :: r
  | [] => []
termination_by q => q.countP (·.2)
decreasing_by simp

@[simp] lemma settle_set (x : α) (r : List (α × Bool)) :
    settle ((x, true) :: r) = settle (r ++ [(x, false)]) := by rw [settle]

@[simp] lemma settle_unset (x : α) (r : List (α × Bool)) :
    settle ((x, false) :: r) = (x, false) :: r := by rw [settle]

end Tempograph.SecondChance
