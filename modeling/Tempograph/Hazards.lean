import Tempograph.ArcSafe
import Tempograph.LfuSteps
import Tempograph.SieveHistory
import Tempograph.Sim
import Tempograph.TgSafe

/-!
What the policies could do that C leaves undefined: use an entry outside an array, take a
remainder or a quotient by zero, follow a null pointer.

Each access has a list of such hazards, in the order in which the source meets them: every
use of an array with an entry for each frame and of the window buffer, every division by a
variable, and every list node that is used without a test. A frame -1 is the index -1,
whatever the arrays hold.
-/

namespace Tempograph.Hazards

open Common LinkedList SlidingWindow Sim

inductive Hazard
  /-- Entry `i` of an array that has `size` entries. -/
  | index (size : ℕ) (i : ℤ)
  | divide (divisor : ℤ)
  /-- A list node, or a null pointer. -/
  | deref (node : Option ℕ)
  deriving DecidableEq, Repr

def Hazard.Safe : Hazard → Prop
  | .index size i => 0 ≤ i ∧ i < size
  | .divide divisor => divisor ≠ 0
  | .deref node => node ≠ none

/-- An entry of an array with one for each frame. -/
def frame (i : ℤ) : Hazard := .index maxFrames i

/-- A frame as an index. -/
def indexOf : Option ℕ → ℤ
  | none => -1
  | some i => i

def frames (is : List ℕ) : List Hazard := is.map fun i : ℕ => frame i

/-- The slots that a search for the first with a property looks at. -/
def looked (n : ℕ) (p : ℕ → Bool) : List ℕ :=
  match (List.range n).find? p with
  | some i => List.range (i + 1)
  | none => List.range n

/-! ### Lists of nodes: `lru.c` and `arc.c` -/

/-- A hit only follows pointers that were tested. -/
def lruAccessHazards (s : Lru.State) (page : Page) : List Hazard :=
  match Lru.hmGet s page with
  | some _ => []
  | none => if s.size = s.capacity then [.deref s.ends.tail] else []

/-- The hazard of an operation of `arc.c`; a ghost is unlinked through the hash map's pointer
to it, which was tested. -/
def opHazards : ArcSafe.Op → List Hazard
  | .pop s l => [.deref (s.lists l).ends.tail]
  | .divide divisor => [.divide divisor]
  | .unlink _ _ _ => []

def arcAccessHazards (s : Arc.State) (page : Page) : List Hazard :=
  (ArcSafe.ops s page).flatMap opHazards

/-! ### `lfu.c` -/

def lfuResetHazards : List Hazard := frames (List.range maxFrames)

def lfuInitHazards (n_frames : ℤ) : List Hazard :=
  lfuResetHazards ++ frames (List.range n_frames.toNat)

def lfuVictimHazards (s : Lfu.State) : List Hazard :=
  frames (if s.size < s.cap then looked s.cap.toNat fun i => (s.slots i).page == -1
    else List.range s.cap.toNat)

def lfuAccessHazards (s : Lfu.State) (page : Page) : List Hazard :=
  frames (looked s.cap.toNat fun i => (s.slots i).page == page) ++
    match Lfu.find s page with
    | some i => [frame i]
    | none => lfuVictimHazards s ++ [frame (indexOf (Lfu.victim s).1)]

/-! ### `sieve.c` -/

/-- The `int`s that `memset` writes for `sizeof(int) * n`: the product is a `size_t`. -/
def memsetInts (n : ℤ) : ℕ := (4 * n % 2 ^ 64).toNat / 4

def sieveInitHazards (n_frames : ℤ) : List Hazard := frames (List.range (memsetInts n_frames))

/-- Every slot that the hand loop passes is tested, cleared and stepped on from. -/
def sieveAccessHazards (s : Sieve.State) (page : Page) : List Hazard :=
  frames (looked s.n fun i => s.pages i = page) ++
    match Sieve.find s page with
    | some i => [frame i]
    | none =>
      (SieveHistory.passes (s.n + 1) s).flatMap (fun i : ℕ => [frame i, .divide s.n]) ++
        match Sieve.advance (s.n + 1) s with
        | none => []
        | some s => [frame s.hand, .divide s.n]

/-! ### `tempograph.c` -/

/-- The frames whose links `lru_unlink` uses. -/
def unlinked (k : Links ℕ) (f : ℕ) : List ℕ := f :: ((k.prev f).toList ++ (k.next f).toList)

/-- The frames whose links `lru_push_head` uses. -/
def pushed (d : Ends ℕ) (f : ℕ) : List ℕ := f :: d.head.toList

/-- The frames whose links `lru_touch` uses. -/
def touched (k : Links ℕ) (d : Ends ℕ) (f : ℕ) : List ℕ :=
  if d.head = some f then [] else unlinked k f ++ pushed (d.unlink k f) f

/-- Reading the window: a remainder and an entry of the buffer for each item. -/
def readHazards (w : Window ℕ) : List Hazard :=
  (List.range w.size).flatMap fun i : ℕ =>
    [.divide w.W,
      .index TempoGraph.maxWindow (((w.head : ℤ) - 1 - i + w.W + w.W).tmod w.W)]

def slideHazards (w : Window ℕ) : List Hazard :=
  [.index TempoGraph.maxWindow w.head, .divide w.W]

def tgInitHazards (n_frames : ℤ) : List Hazard := frames (List.range n_frames.toNat)

/-- The hazards of `choose_victim`: the search for an empty frame and, if there is none, the
frames sampled, each with its score. -/
def tgVictimHazards (s : TempoGraph.State) : List Hazard :=
  let empty := fun f => s.frames f == -1
  let sampled := (TempoGraph.sample s).flatMap fun f : ℕ => frame f :: readHazards s.win
  if s.size < s.cap then
    frames (looked s.cap.toNat empty) ++
      if ((List.range s.cap.toNat).find? empty).isSome then [] else sampled
  else sampled

def tgAccessHazards (s : TempoGraph.State) (page : Page) : List Hazard :=
  let idx := TempoGraph.pageIdx page
  let s := TempoGraph.tick s
  if s.inFrames idx then
    frame (indexOf (s.frameOf idx)) ::
      match s.frameOf idx with
      | none => []
      | some f => frames (touched s.links s.ends f) ++ readHazards s.win ++ slideHazards s.win
  else
    let s := TempoGraph.updateGraph s idx
    readHazards s.win ++ tgVictimHazards s ++
      frame (indexOf (TempoGraph.chooseVictim s)) ::
        match TempoGraph.chooseVictim s with
        | none => []
        | some v =>
          frames (if s.frames v ≠ -1 then unlinked s.links v else []) ++
            frames (pushed (TempoGraph.evict s v).ends v) ++ slideHazards s.win

/-! ### Simulation passes -/

def initHazards (algo : Algo) (n_frames : ℤ) : List Hazard :=
  match algo with
  | .lru | .arc => []
  | .lfu => lfuInitHazards n_frames
  | .tempograph => tgInitHazards n_frames
  | .sieve => sieveInitHazards n_frames

def accessHazards (algo : Algo) (σ : Statics) (page : Page) : List Hazard :=
  match algo with
  | .lru => lruAccessHazards σ.lru page
  | .lfu => lfuAccessHazards σ.lfu page
  | .arc => arcAccessHazards σ.arc page
  | .tempograph => tgAccessHazards σ.tg page
  | .sieve => sieveAccessHazards σ.sieve page

def resetHazards (algo : Algo) (σ : Statics) : List Hazard :=
  match algo with
  | .lru | .arc | .tempograph => []
  | .lfu => lfuResetHazards
  | .sieve => sieveInitHazards σ.sieve.n

/-- All of them are safe. -/
def AllSafe (hs : List Hazard) : Prop := ∀ h ∈ hs, h.Safe

variable {M : Malloc} {n i : ℕ} {page : Page} {hs hs' : List Hazard}

@[simp] lemma allSafe_nil : AllSafe [] := by simp [AllSafe]

@[simp] lemma allSafe_cons {h : Hazard} : AllSafe (h :: hs) ↔ h.Safe ∧ AllSafe hs := by
  simp [AllSafe]

@[simp] lemma allSafe_append : AllSafe (hs ++ hs') ↔ AllSafe hs ∧ AllSafe hs' := by
  simp [AllSafe, or_imp, forall_and]

lemma allSafe_flatMap {α : Type*} {l : List α} {f : α → List Hazard} :
    AllSafe (l.flatMap f) ↔ ∀ a ∈ l, AllSafe (f a) := by
  simp only [AllSafe, List.mem_flatMap]
  exact ⟨fun h a ha x hx => h x ⟨a, ha, hx⟩, fun h x hx => by
    obtain ⟨a, ha, hx⟩ := hx
    exact h a ha x hx⟩

@[simp] lemma frame_safe : (frame (i : ℕ)).Safe ↔ i < maxFrames := by
  simp [frame, Hazard.Safe]

lemma frame_none : ¬(frame (indexOf none)).Safe := by simp [frame, indexOf, Hazard.Safe]

lemma allSafe_frames {is : List ℕ} : AllSafe (frames is) ↔ ∀ i ∈ is, i < maxFrames := by
  simp [AllSafe, frames]

lemma allSafe_range : AllSafe (frames (List.range n)) ↔ n ≤ maxFrames := by
  rw [allSafe_frames]
  constructor
  · intro h
    by_contra hn
    exact absurd (h maxFrames (List.mem_range.mpr (by omega))) (lt_irrefl _)
  · intro hn i hi
    exact (List.mem_range.mp hi).trans_le hn

lemma looked_lt {p : ℕ → Bool} (hi : i ∈ looked n p) : i < n := by
  unfold looked at hi
  cases hf : (List.range n).find? p with
  | none =>
    rw [hf] at hi
    exact List.mem_range.mp hi
  | some j =>
    rw [hf] at hi
    have hj := List.mem_range.mp (List.mem_of_find?_eq_some hf)
    have := List.mem_range.mp hi
    omega

/-- A search of the frames of the cache. -/
lemma looked_safe (hn : n ≤ maxFrames) (p : ℕ → Bool) : AllSafe (frames (looked n p)) :=
  allSafe_frames.mpr fun _ hi => (looked_lt hi).trans_le hn

/-! ### Accesses of lists -/

/-- An access of `lru.c` is safe exactly if it has a result. -/
lemma lru_safe {s : Lru.State} :
    AllSafe (lruAccessHazards s page) ↔ Lru.lruAccess M s page ≠ none := by
  unfold lruAccessHazards Lru.lruAccess Lru.evict
  cases Lru.hmGet s page with
  | some a => simp
  | none =>
    dsimp only
    split_ifs with hfull
    · cases s.ends.tail <;> simp [Hazard.Safe]
    · simp

lemma opHazards_safe {op : ArcSafe.Op} : AllSafe (opHazards op) ↔ op.Defined := by
  cases op <;> simp [opHazards, Hazard.Safe, ArcSafe.Op.Defined]

/-- An access of `arc.c` is safe exactly if it has a result. -/
lemma arc_safe {s : Arc.State} :
    AllSafe (arcAccessHazards s page) ↔ Arc.arcAccess M s page ≠ none := by
  rw [ne_eq, ArcSafe.access_eq_none, ArcSafe.Fails, arcAccessHazards, allSafe_flatMap]
  simp only [opHazards_safe, not_exists, not_and, not_not]

/-! ### Accesses of arrays -/

lemma leastUsed_lt {s : Lfu.State} {v : ℕ} (hcap : s.cap = n) (h : Lfu.leastUsed s = some v) :
    v < n := by
  rw [LfuSteps.leastUsed_eq, ArgMin.search] at h
  rcases ArgMin.foldl_better (LfuSteps.key s) (List.range s.cap.toNat)
    (toLex (intMax, intMax), none) with ⟨he, -⟩ | ⟨i, hi, he, -⟩
  · rw [he] at h
    cases h
  · rw [he] at h
    obtain rfl : i = v := Option.some.inj h
    simpa [hcap] using hi

lemma lfuVictim_lt {s : Lfu.State} {v : ℕ} {size : ℤ} (hcap : s.cap = n)
    (h : Lfu.victim s = (some v, size)) : v < n := by
  have h := congrArg Prod.fst h
  unfold Lfu.victim at h
  split_ifs at h
  · exact (LfuSteps.find_eq_some hcap h).1
  · exact leastUsed_lt hcap h

/-- An access of `lfu.c` that has a result is safe, if the arrays have the frames. -/
lemma lfu_safe {s s' : Lfu.State} {r : Result} (hcap : s.cap = n) (hn : n ≤ maxFrames)
    (h : Lfu.lfuAccess s page = some (s', r)) :
    AllSafe (lfuAccessHazards s page) ∧ s'.cap = n := by
  have hnat : s.cap.toNat = n := by omega
  unfold lfuAccessHazards
  rw [hnat, allSafe_append]
  rcases LfuSteps.access_cases h with ⟨i, hf, -, rfl⟩ | ⟨hf, v, size, hv, -, rfl⟩
  · have hi := (LfuSteps.find_eq_some hcap hf).1
    simp only [hf]
    exact ⟨⟨looked_safe hn _, by simpa using hi.trans_le hn⟩, hcap⟩
  · have hlt := lfuVictim_lt hcap hv
    have hvic : AllSafe (lfuVictimHazards s) := by
      unfold lfuVictimHazards
      rw [hnat]
      split_ifs
      · exact looked_safe hn _
      · exact allSafe_range.mpr hn
    simp only [hf, hv, allSafe_append]
    exact ⟨⟨looked_safe hn _, hvic, by simpa [indexOf] using hlt.trans_le hn⟩, hcap⟩

/-- An access of `lfu.c` without a result uses the slot -1. -/
lemma lfu_undefined {s : Lfu.State} (h : Lfu.lfuAccess s page = none) :
    frame (indexOf none) ∈ lfuAccessHazards s page := by
  unfold lfuAccessHazards
  cases hf : Lfu.find s page with
  | some i =>
    rw [LfuSteps.access_hit hf] at h
    cases h
  | none =>
    rcases hv : Lfu.victim s with ⟨_ | v, size⟩
    · simp
    · rw [LfuSteps.access_fault hf hv] at h
      cases h

/-- An access of `sieve.c` is safe if the hand is at a frame of the arrays. -/
lemma sieve_safe {s : Sieve.State} (hh : s.hand < s.n) (hn : s.n ≤ maxFrames) :
    AllSafe (sieveAccessHazards s page) := by
  have hne : (Hazard.divide s.n).Safe := by
    simp only [Hazard.Safe]
    omega
  unfold sieveAccessHazards
  rw [allSafe_append]
  refine ⟨looked_safe hn _, ?_⟩
  cases hf : Sieve.find s page with
  | some i =>
    have hi := (SieveQueue.find_some hf).1
    simpa using hi.trans_le hn
  | none =>
    obtain ⟨t, ht, htn, -, hth, -⟩ := SieveHistory.fault_spec hh hf
    simp only [ht, htn, allSafe_append, allSafe_cons, allSafe_nil, frame_safe, and_true]
    refine ⟨allSafe_flatMap.mpr fun i hi => ?_, hth.trans_le hn, hne⟩
    obtain ⟨j, -, rfl⟩ := SieveHistory.mem_passes hh hi
    have hlt : (s.hand + j) % s.n < s.n := Nat.mod_lt _ (by omega)
    exact allSafe_cons.mpr ⟨frame_safe.mpr (hlt.trans_le hn), allSafe_cons.mpr ⟨hne, allSafe_nil⟩⟩

lemma sieve_hand {s s' : Sieve.State} {r : Result} (hh : s.hand < s.n)
    (h : Sieve.sieveAccess s page = some (s', r)) : s'.n = s.n ∧ s'.hand < s'.n := by
  cases hf : Sieve.find s page with
  | some i =>
    simp only [Sieve.sieveAccess, hf, Option.some.injEq, Prod.mk.injEq] at h
    obtain ⟨rfl, -⟩ := h
    exact ⟨rfl, hh⟩
  | none =>
    obtain ⟨t, -, htn, -, -, hacc⟩ := SieveHistory.fault_spec hh hf
    rw [hacc, Option.some.injEq, Prod.mk.injEq] at h
    obtain ⟨rfl, -⟩ := h
    exact ⟨htn, Nat.mod_lt _ (show 0 < t.n by omega)⟩

end Tempograph.Hazards
