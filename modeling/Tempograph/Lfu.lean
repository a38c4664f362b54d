import Tempograph.Common

/-!
Least frequently used replacement (`lfu.c`): slots with a page, the number of its accesses
and the time of the last one. The page -1 marks an empty slot.

The clock and the counts are unbounded; an `int` holds them on a trace of at most `maxTrace`
accesses. An access that would write to slot -1 is undefined and has no result.
-/

namespace Tempograph.Lfu

open Common

structure Slot where
  page : Page
  freq : ℕ
  lastTime : ℕ
  deriving DecidableEq, Repr

structure State where
  slots : ℕ → Slot
  cap : ℤ
  size : ℤ
  lfuClock : ℕ

/-- The static variables when the program starts. -/
def start : State := ⟨fun _ => ⟨0, 0, 0⟩, 0, 0, 0⟩

def lfuReset (_ : State) : State where
  slots := fun _ => ⟨-1, 0, 0⟩
  cap := 0
  size := 0
  lfuClock := 0

/-- No result if the loop over the slots leaves the array. -/
def lfuInit (s : State) (n_frames : ℤ) : Option State :=
  let s := lfuReset s
  if n_frames > maxFrames then none
  else some { s with
    cap := n_frames
    slots := fun i => if (i : ℤ) < n_frames then ⟨-1, 0, 0⟩ else s.slots i }

/-- The first slot with the page. -/
def find (s : State) (page : Page) : Option ℕ :=
  (List.range s.cap.toNat).find? fun i => (s.slots i).page == page

/-- The candidate of the search for a victim. -/
structure Least where
  freq : ℕ
  time : ℕ
  victim : Option ℕ

/-- Look at one slot. -/
def consider (s : State) (b : Least) (i : ℕ) : Least :=
  let e := s.slots i
  if e.freq < b.freq ∨ e.freq = b.freq ∧ e.lastTime < b.time then ⟨e.freq, e.lastTime, some i⟩
  else b

def leastUsed (s : State) : Option ℕ :=
  ((List.range s.cap.toNat).foldl (consider s) ⟨intMax, intMax, none⟩).victim

/-- The victim of a fault, and the new size. -/
def victim (s : State) : Option ℕ × ℤ :=
  if s.size < s.cap then (find s (-1), s.size + 1) else (leastUsed s, s.size)

def lfuAccess (s : State) (page : Page) : Option (State × Result) :=
  let s := { s with lfuClock := s.lfuClock + 1 }
  match find s page with
  | some i =>
    let e := { s.slots i with freq := (s.slots i).freq + 1, lastTime := s.lfuClock }
    some ({ s with slots := Function.update s.slots i e }, .hit)
  | none =>
    match victim s with
    | (none, _) => none
    | (some v, size) =>
      let e := ⟨page, 1, s.lfuClock⟩
      some ({ s with slots := Function.update s.slots v e, size := size }, .fault)

end Tempograph.Lfu
