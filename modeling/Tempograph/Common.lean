import Mathlib.Tactic

/-!
The shared definitions of the simulator (`common.h`): its limits, the results of an access
and the numbers of the algorithms. A page number is a 32-bit C `int`.
-/

namespace Tempograph.Common

/-- A page number, as `load_trace` stores it. -/
abbrev Page := Int32

def maxFrames : ℕ := 512
def maxUnique : ℕ := 4096
def maxTrace : ℕ := 5000000
def defaultWindow : ℕ := 10

/-- `INT_MAX`. -/
def intMax : ℕ := 2147483647

inductive Result
  | hit | fault
  deriving DecidableEq, Repr

inductive Algo
  | lru | lfu | arc | tempograph | sieve
  deriving DecidableEq, Repr

/-- The bit pattern of a page number, read as an `unsigned`. -/
def unsignedOf (page : Page) : ℕ := page.toUInt32.toNat

/-- What `malloc` promises: the address it returns is in use by nobody. Freed addresses may
come back. -/
structure Malloc where
  pick : List ℕ → ℕ
  fresh : ∀ live, pick live ∉ live

/-- The allocator that takes the address above all that are in use. -/
def Malloc.above : Malloc where
  pick live := live.foldr max 0 + 1
  fresh live h := by
    have hle : ∀ l : List ℕ, ∀ a ∈ l, a ≤ l.foldr max 0 := by
      intro l a ha
      induction l with
      | nil => simp at ha
      | cons b r ih =>
        rcases List.mem_cons.mp ha with rfl | ha
        · simp
        · have := ih ha; simp only [List.foldr_cons]; omega
    have := hle live _ h
    omega

end Tempograph.Common
