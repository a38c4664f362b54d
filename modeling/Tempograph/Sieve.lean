import Tempograph.Common

/-!
The replacement of `sieve.c`: an array of pages with a visited bit each, and a hand that
moves round the array to find a victim, which the new page replaces in its slot.
-/

namespace Tempograph.Sieve

open Common

structure State where
  /-- The page in each slot; `-1` marks an empty slot. -/
  pages : ℕ → Page
  visited : ℕ → Bool
  hand : ℕ
  n : ℕ

/-- The static variables when the program starts. -/
def start : State := ⟨fun _ => 0, fun _ => false, 0, 0⟩

/-- Clears the first `n_frames` slots. Undefined if the arrays have fewer. -/
def sieveInit (s : State) (n_frames : ℤ) : Option State :=
  if 0 ≤ n_frames ∧ n_frames ≤ maxFrames then
    some
      { n := n_frames.toNat
        hand := 0
        pages := fun i => if i < n_frames.toNat then -1 else s.pages i
        visited := fun i => if i < n_frames.toNat then false else s.visited i }
  else none

/-- The slots are searched in order. -/
def find (s : State) (page : Page) : Option ℕ :=
  (List.range s.n).find? fun i => s.pages i = page

/-- Set the visited bit of slot `i`. -/
def visit (s : State) (i : ℕ) : State := { s with visited := Function.update s.visited i true }

/-- Clear the bit under the hand and step on. -/
def pass (s : State) : State :=
  { s with visited := Function.update s.visited s.hand false, hand := (s.hand + 1) % s.n }

/-- Put `page` in the slot under the hand and step on. -/
def replace (s : State) (page : Page) : State :=
  { s with
    pages := Function.update s.pages s.hand page
    visited := Function.update s.visited s.hand false
    hand := (s.hand + 1) % s.n }

/-- The hand loop, for at most `fuel` tests of the bit under the hand. Stepping on is
undefined for no slots, where it divides by zero. -/
def advance : ℕ → State → Option State
  | 0, _ => none
  | fuel + 1, s =>
    if s.visited s.hand then if s.n = 0 then none else advance fuel (pass s)
    else some s

/-- The loop clears a bit at each step, so `n + 1` tests are enough for it to stop. -/
def sieveAccess (s : State) (page : Page) : Option (State × Result) :=
  match find s page with
  | some i => some (visit s i, .hit)
  | none =>
    match advance (s.n + 1) s with
    | none => none
    | some s => if s.n = 0 then none else some (replace s page, .fault)

def sieveReset (s : State) : Option State := sieveInit s s.n

end Tempograph.Sieve
