import Tempograph.Common
import Tempograph.Graph
import Tempograph.LinkedList
import Tempograph.SlidingWindow

/-!
The replacement policy TempoGraph (`tempograph.c`): a frame table over page indices, a
recency list of frames, the co-occurrence graph and a window of the last accesses.

A frame or link of -1 is `none`, but the page -1 of an empty frame is the page -1. An access
that would use a frame -1 as an index is undefined and has no result. The counters are
unbounded; an `int` holds them on a trace of at most `maxTrace` accesses.
-/

namespace Tempograph.TempoGraph

open Common Tempograph.Graph LinkedList SlidingWindow

def sampleSize : ℕ := 64
def maxWindow : ℕ := 64
def decayInterval : ℕ := 2000

/-- `LONG_MAX`. -/
def longMax : ℕ := 9223372036854775807

structure State where
  graph : Adj
  links : Links ℕ
  ends : Ends ℕ
  frames : ℕ → Page
  inFrames : ℕ → Bool
  frameOf : ℕ → Option ℕ
  cap : ℤ
  size : ℤ
  win : Window ℕ
  mruTime : ℕ → ℕ
  globalTime : ℕ
  accessCount : ℕ

/-- The static variables when the program starts. -/
def start : State where
  graph := Adj.zero
  links := ⟨fun _ => some 0, fun _ => some 0⟩
  ends := Ends.empty
  frames := fun _ => 0
  inFrames := fun _ => false
  frameOf := fun _ => some 0
  cap := 0
  size := 0
  win := ⟨fun _ => 0, 0, 0, defaultWindow⟩
  mruTime := fun _ => 0
  globalTime := 0
  accessCount := 0

def lruUnlink (s : State) (f : ℕ) : State :=
  { s with links := s.links.unlink f, ends := s.ends.unlink s.links f }

def lruPushHead (s : State) (f : ℕ) : State :=
  { s with links := s.links.pushFront s.ends f, ends := s.ends.pushFront f }

def lruTouch (s : State) (f : ℕ) : State :=
  if s.ends.head = some f then s else lruPushHead (lruUnlink s f) f

def pageIdx (page : Page) : ℕ := unsignedOf page % maxUnique

/-- An edge to `new_idx` from every index in the window. -/
def addEdges (g : Adj) (items : List ℕ) (new_idx : ℕ) : Adj :=
  items.foldl (fun g u => if u ≠ new_idx then adjInc g u new_idx else g) g

def updateGraph (s : State) (new_idx : ℕ) : State :=
  { s with graph := addEdges s.graph s.win.items new_idx }

def slideWindow (s : State) (new_idx : ℕ) : State := { s with win := s.win.slide new_idx }

def scorePage (s : State) (idx : ℕ) : ℕ := (s.win.items.map fun u => adjWeight s.graph u idx).sum

/-- The candidate of `choose_victim`. -/
structure Best where
  frame : Option ℕ
  score : ℕ
  time : ℤ

/-- Look at one frame. -/
def consider (s : State) (b : Best) (f : ℕ) : Best :=
  let sc := scorePage s (pageIdx (s.frames f))
  let t := s.mruTime f
  if sc < b.score ∨ sc = b.score ∧ (t : ℤ) > b.time then ⟨some f, sc, t⟩ else b

/-- The frames sampled at an eviction. -/
def sample (s : State) : List ℕ := follow s.links.prev sampleSize s.ends.tail

def evictionVictim (s : State) : Option ℕ :=
  let best := (sample s).foldl (consider s) ⟨none, longMax, -1⟩
  if best.frame.isSome then best.frame else s.ends.tail

def chooseVictim (s : State) : Option ℕ :=
  if s.size < s.cap then
    match (List.range s.cap.toNat).find? fun f => s.frames f == -1 with
    | some f => some f
    | none => evictionVictim s
  else evictionVictim s

def tgReset (s : State) : State :=
  { s with
    graph := Adj.zero
    frames := fun _ => -1
    inFrames := fun _ => false
    frameOf := fun _ => none
    links := ⟨fun _ => none, fun _ => none⟩
    win := ⟨fun _ => 0, 0, 0, defaultWindow⟩
    mruTime := fun _ => 0
    cap := 0
    size := 0
    accessCount := 0
    globalTime := 0
    ends := Ends.empty }

/-- No result if the loop over the frames leaves the arrays. -/
def tgInit (s : State) (n_frames window_size : ℤ) : Option State :=
  let s := tgReset s
  let W := if window_size > 0 ∧ window_size ≤ maxWindow then window_size.toNat else defaultWindow
  if n_frames > maxFrames then none
  else some { s with
    cap := n_frames
    win := { s.win with W := W }
    frames := fun i => if (i : ℤ) < n_frames then -1 else s.frames i
    links := ⟨fun i => if (i : ℤ) < n_frames then none else s.links.prev i,
      fun i => if (i : ℤ) < n_frames then none else s.links.next i⟩ }

/-- Count the access, and decay the graph when it is time. -/
def tick (s : State) : State :=
  let s := { s with accessCount := s.accessCount + 1, globalTime := s.globalTime + 1 }
  if s.accessCount % decayInterval = 0 then { s with graph := applyDecay s.graph } else s

/-- Forget the page in the victim's slot, if there is one. -/
def evict (s : State) (victim : ℕ) : State :=
  if s.frames victim ≠ -1 then
    let old_idx := pageIdx (s.frames victim)
    lruUnlink { s with
      inFrames := Function.update s.inFrames old_idx false
      frameOf := Function.update s.frameOf old_idx none } victim
  else s

def load (s : State) (victim : ℕ) (page : Page) : State :=
  let idx := pageIdx page
  lruPushHead { s with
    frames := Function.update s.frames victim page
    inFrames := Function.update s.inFrames idx true
    frameOf := Function.update s.frameOf idx (some victim)
    mruTime := Function.update s.mruTime victim s.globalTime
    size := if s.size < s.cap then s.size + 1 else s.size } victim

def tgAccess (s : State) (page : Page) : Option (State × Result) :=
  let idx := pageIdx page
  let s := tick s
  if s.inFrames idx then
    match s.frameOf idx with
    | none => none
    | some f =>
      let s := lruTouch { s with mruTime := Function.update s.mruTime f s.globalTime } f
      some (slideWindow (updateGraph s idx) idx, .hit)
  else
    let s := updateGraph s idx
    match chooseVictim s with
    | none => none
    | some victim => some (slideWindow (load (evict s victim) victim page) idx, .fault)

end Tempograph.TempoGraph
