import Tempograph.Arc
import Tempograph.HashChains
import Tempograph.Lru

/-!
The hash maps of `lru.c` and `arc.c`, entry by entry.

The two are copies of one table, from page numbers to nodes. The models of the policies use
the table as a whole; here it is the array of links and the entries that `malloc` returns.
-/

namespace Tempograph.HashMaps

open Common Runs HashChains

/-- Entries from page numbers to the addresses of nodes. -/
abbrev Memory := Heap Page ℕ

/-! ### `lru.c` -/

def hmGet (m : Memory) (key : Page) : Option (Option ℕ) := get Lru.hmHash m key

def hmPut (M : Malloc) (m : Memory) (key : Page) (val : ℕ) : Option Memory :=
  put Lru.hmHash M.pick m key val

def hmDel (m : Memory) (key : Page) : Option Memory := del Lru.hmHash m key

def hmStep (M : Malloc) : Memory → Op Page ℕ → Option (Memory × Option ℕ) :=
  step hmGet (hmPut M) hmDel

/-! ### `arc.c` -/

def ahmGet (m : Memory) (key : Page) : Option (Option ℕ) := get Arc.ahmHash m key

def ahmPut (M : Malloc) (m : Memory) (key : Page) (val : ℕ) : Option Memory :=
  put Arc.ahmHash M.pick m key val

def ahmDel (m : Memory) (key : Page) : Option Memory := del Arc.ahmHash m key

def ahmStep (M : Malloc) : Memory → Op Page ℕ → Option (Memory × Option ℕ) :=
  step ahmGet (ahmPut M) ahmDel

/-- **Both maps are finite maps.** Every sequence of operations on an empty table is defined,
each lookup returns what the operations before it say, and in the end the table is the map
that the operations build, with one entry at most for each key. -/
theorem hash_maps (M : Malloc) (m₀ : Memory) (h0 : ∀ b, m₀.bucket b = none)
    (ops : List (Op Page ℕ)) :
    (∃ m os, run (hmStep M) m₀ ops = some (m, os) ∧ IsMap hmGet (hmStep M) ops m ∧
      ∀ i (hi : i < ops.length) (hi' : i < os.length), os[i] = answer (ops.take i) ops[i]) ∧
    ∃ m os, run (ahmStep M) m₀ ops = some (m, os) ∧ IsMap ahmGet (ahmStep M) ops m ∧
      ∀ i (hi : i < ops.length) (hi' : i < os.length), os[i] = answer (ops.take i) ops[i] :=
  ⟨isMap_run M.fresh h0 ops, isMap_run M.fresh h0 ops⟩

/-- The theorem at three keys of one chain, the middle one deleted. -/
theorem hash_maps_three :
    (∀ b, (⟨fun _ => ⟨0, 0, none⟩, fun _ => none, []⟩ : Memory).bucket b = none) ∧
      ∃ m os, run (hmStep Malloc.above) ⟨fun _ => ⟨0, 0, none⟩, fun _ => none, []⟩
        [.put 1 10, .put 8193 20, .put (-8191) 30, .del 8193] = some (m, os) ∧
        hmGet m (-8191) = some (latest [.put 1 10, .put 8193 20, .put (-8191) 30, .del 8193]
          (-8191)) := by
  refine ⟨fun _ => rfl, ?_⟩
  obtain ⟨⟨m, os, hrun, hm, -⟩, -⟩ := hash_maps Malloc.above
    ⟨fun _ => ⟨0, 0, none⟩, fun _ => none, []⟩ (fun _ => rfl)
    [.put 1 10, .put 8193 20, .put (-8191) 30, .del 8193]
  exact ⟨m, os, hrun, hm.lookup _⟩

end Tempograph.HashMaps
