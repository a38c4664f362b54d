import Tempograph.Common
import Tempograph.ChainMap
import Tempograph.LinkedList

/-!
Adaptive replacement (`arc.c`): two lists of resident pages, two ghost lists of pages
evicted from them, and a target size for the first list.

The nodes of the four lists share one pool and carry the name of the list they are in; a
chained hash map finds the node of a page. An access that would dereference a null pointer
or divide by zero is undefined and has no result. The counters are unbounded integers:
`2 * c` is compared only once `c` pages are in the lists, so on a trace of at most
`maxTrace` accesses no counter leaves the range of an `int`.
-/

namespace Tempograph.Arc

open Common ChainMap LinkedList

/-- The `list` field of a node. -/
inductive ListId
  | t1 | t2 | b1 | b2
  deriving DecidableEq, Repr

def ahmSize : ℕ := 8192

def ahmHash (key : Page) : ℕ := unsignedOf key % ahmSize

structure DList where
  ends : Ends ℕ
  size : ℤ

structure State where
  page : ℕ → Page
  list : ℕ → ListId
  links : Links ℕ
  /-- The nodes allocated and not freed. -/
  live : List ℕ
  lists : ListId → DList
  ahmap : Table Page ℕ ahmHash
  c : ℤ
  p : ℤ

/-- The static variables when the program starts. -/
def start : State where
  page := fun _ => 0
  list := fun _ => .t1
  links := ⟨fun _ => none, fun _ => none⟩
  live := []
  lists := fun _ => ⟨Ends.empty, 0⟩
  ahmap := Table.empty
  c := 0
  p := 0

def ahmGet (s : State) (key : Page) : Option ℕ := s.ahmap.get key

def ahmPut (s : State) (key : Page) (val : ℕ) : State :=
  { s with ahmap := s.ahmap.put key val }

def ahmDel (s : State) (key : Page) : State := { s with ahmap := s.ahmap.del key }

def dlRemove (s : State) (l : ListId) (n : ℕ) : State :=
  { s with
    links := s.links.unlink n
    lists := Function.update s.lists l
      ⟨(s.lists l).ends.unlink s.links n, (s.lists l).size - 1⟩ }

def dlPushFront (s : State) (l : ListId) (n : ℕ) : State :=
  { s with
    links := s.links.pushFront (s.lists l).ends n
    lists := Function.update s.lists l
      ⟨(s.lists l).ends.pushFront n, (s.lists l).size + 1⟩ }

/-- The tail of the list and the state without it; no result is a null pointer. -/
def dlPopTail (s : State) (l : ListId) : Option (ℕ × State) :=
  match (s.lists l).ends.tail with
  | none => none
  | some n => some (n, dlRemove s l n)

def setList (s : State) (n : ℕ) (l : ListId) : State :=
  { s with list := Function.update s.list n l }

/-- Move the tail of `l` to the front of the ghost list `g`. -/
def demote (s : State) (l g : ListId) : Option State :=
  match dlPopTail s l with
  | none => none
  | some (victim, s) =>
    some (ahmPut (dlPushFront (setList s victim g) g victim) (s.page victim) victim)

def arcReplace (s : State) (in_b2 : Bool) : Option State :=
  let t1_size := (s.lists .t1).size
  if t1_size > 0 ∧ (t1_size > s.p ∨ in_b2 = true ∧ t1_size = s.p) then demote s .t1 .b1
  else demote s .t2 .b2

/-- Take the tail of `l` out of the directory. -/
def forget (s : State) (l : ListId) : Option State :=
  match dlPopTail s l with
  | none => none
  | some (victim, s) =>
    let s := ahmDel s (s.page victim)
    some { s with live := s.live.erase victim }

/-- Move the node `n` of `l` to the front of `T2`. -/
def promote (s : State) (l : ListId) (n : ℕ) : State :=
  dlPushFront (setList (dlRemove s l n) n .t2) .t2 n

/-- The step of the target: 1, or how often the smaller ghost list goes into the other. -/
def delta (own other : ℤ) : Option ℤ :=
  if own ≥ other then some 1
  else if own = 0 then none
  else some (other.tdiv own)

def setP (s : State) (p : ℤ) : State := { s with p := p }

/-- Case 4 up to the new node: give up a slot for a completely new page. -/
def makeRoom (s : State) : Option State :=
  let t1_len := (s.lists .t1).size + (s.lists .b1).size
  let total := t1_len + (s.lists .t2).size + (s.lists .b2).size
  if t1_len = s.c then
    if (s.lists .t1).size < s.c then
      match forget s .b1 with
      | none => none
      | some s => arcReplace s false
    else forget s .t1
  else if t1_len < s.c ∧ total ≥ s.c then
    if total ≥ 2 * s.c ∧ (s.lists .b2).size > 0 then
      match forget s .b2 with
      | none => none
      | some s => arcReplace s false
    else arcReplace s false
  else some s

/-- Put a new node for `page` at the front of `T1`. -/
def load (M : Malloc) (s : State) (page : Page) : State :=
  let n := M.pick s.live
  let s := { s with
    live := n :: s.live
    page := Function.update s.page n page
    list := Function.update s.list n .t1
    links := ⟨Function.update s.links.prev n none, Function.update s.links.next n none⟩ }
  ahmPut (dlPushFront s .t1 n) page n

def arcAccess (M : Malloc) (s : State) (page : Page) : Option (State × Result) :=
  match ahmGet s page with
  | some n =>
    match s.list n with
    | .t1 => some (promote s .t1 n, .hit)
    | .t2 => some (promote s .t2 n, .hit)
    | .b1 =>
      match delta (s.lists .b1).size (s.lists .b2).size with
      | none => none
      | some d =>
        match arcReplace (setP s (if s.p + d < s.c then s.p + d else s.c)) false with
        | none => none
        | some s => some (promote s .b1 n, .fault)
    | .b2 =>
      match delta (s.lists .b2).size (s.lists .b1).size with
      | none => none
      | some d =>
        match arcReplace (setP s (if s.p - d > 0 then s.p - d else 0)) true with
        | none => none
        | some s => some (promote s .b2 n, .fault)
  | none =>
    match makeRoom s with
    | none => none
    | some s => some (load M s page, .fault)

/-- The nodes met from the head of a list, at most as many as are live. -/
def walk (s : State) (l : ListId) : List ℕ :=
  follow s.links.next s.live.length (s.lists l).ends.head

def arcReset (s : State) : State :=
  { s with
    -- no node is freed twice, so each loop over a list meets at most all live nodes
    live := s.live.filter fun n => ∀ l ∈ [ListId.t1, .t2, .b1, .b2], n ∉ walk s l
    lists := fun _ => ⟨Ends.empty, 0⟩
    ahmap := Table.empty
    c := 0
    p := 0 }

def arcInit (s : State) (n_frames : ℤ) : State := { arcReset s with c := n_frames, p := 0 }

end Tempograph.Arc
