import Tempograph.Common
import Tempograph.ChainMap
import Tempograph.LinkedList

/-!
Least recently used replacement (`lru.c`): a doubly linked list of nodes, the head the most
recently used, and a chained hash map from page numbers to nodes.

Nodes are addresses handed out by an allocator; a null pointer is `none`. An access that
would dereference a null pointer is undefined and has no result.
-/

namespace Tempograph.Lru

open Common ChainMap LinkedList

def hmSize : ℕ := 8192

def hmHash (key : Page) : ℕ := unsignedOf key % hmSize

structure State where
  /-- The `page` field of each node. -/
  page : ℕ → Page
  links : Links ℕ
  /-- The nodes allocated and not freed. -/
  live : List ℕ
  hmap : Table Page ℕ hmHash
  ends : Ends ℕ
  size : ℤ
  capacity : ℤ

/-- The static variables when the program starts. -/
def start : State where
  page := fun _ => 0
  links := ⟨fun _ => none, fun _ => none⟩
  live := []
  hmap := Table.empty
  ends := Ends.empty
  size := 0
  capacity := 0

def hmGet (s : State) (key : Page) : Option ℕ := s.hmap.get key

def hmPut (s : State) (key : Page) (val : ℕ) : State := { s with hmap := s.hmap.put key val }

def hmDel (s : State) (key : Page) : State := { s with hmap := s.hmap.del key }

def listRemove (s : State) (n : ℕ) : State :=
  { s with links := s.links.unlink n, ends := s.ends.unlink s.links n }

def listPushFront (s : State) (n : ℕ) : State :=
  { s with links := s.links.pushFront s.ends n, ends := s.ends.pushFront n }

/-- The nodes met from the head of the list, at most as many as are live. -/
def walk (s : State) : List ℕ := follow s.links.next s.live.length s.ends.head

def lruReset (s : State) : State :=
  { s with
    -- no node is freed twice, so the loop over the list meets at most all live nodes
    live := s.live.filter (· ∉ walk s)
    ends := Ends.empty
    size := 0
    capacity := 0
    hmap := Table.empty }

def lruInit (s : State) (n_frames : ℤ) : State := { lruReset s with capacity := n_frames }

/-- Forget the page of `victim`, unlink the node and free it. -/
def drop (s : State) (victim : ℕ) : State :=
  let s := listRemove (hmDel s (s.page victim)) victim
  { s with live := s.live.erase victim, size := s.size - 1 }

/-- Evict the tail, if the cache is full. -/
def evict (s : State) : Option State :=
  if s.size = s.capacity then
    match s.ends.tail with
    | none => none
    | some victim => some (drop s victim)
  else some s

/-- Load a page into a new node at the head. -/
def load (M : Malloc) (s : State) (page : Page) : State :=
  let n := M.pick s.live
  let s := { s with
    live := n :: s.live
    page := Function.update s.page n page
    links := ⟨Function.update s.links.prev n none, Function.update s.links.next n none⟩ }
  let s := hmPut (listPushFront s n) page n
  { s with size := s.size + 1 }

def lruAccess (M : Malloc) (s : State) (page : Page) : Option (State × Result) :=
  match hmGet s page with
  | some n => some (listPushFront (listRemove s n) n, .hit)
  | none =>
    match evict s with
    | none => none
    | some s => some (load M s page, .fault)

end Tempograph.Lru
