import Tempograph.DemandPaging
import Tempograph.LoadTrace
import Tempograph.TgHazards
import Tempograph.TgVictim

/-!
No signed integer overflows.

The models count in unbounded integers, the source in `int`s. Each access has a list of the
values that its signed arithmetic computes: sums, differences, quotients and remainders, the
counters of its loops, and the small unsigned numbers that the arithmetic promotes to `int`.
On a trace that `load_trace` can store all of them are in the range of an `int`. So what the
models say of the policies they say of the machine's arithmetic too. The two policies that
keep lists allow every positive frame count that is an `int`: a counter is then bounded by the
trace.
-/

namespace Tempograph.IntRange

open Common LinkedList SlidingWindow Recency Runs Sim LoadTrace Renaming DemandPaging

/-! ### What an access computes -/

/-- A counter that counts up from `i` to `j`. -/
def countUp (i j : ℕ) : List ℤ := (List.range' (i + 1) (j - i)).map fun k : ℕ => (k : ℤ)

/-- The counter of a loop over `n` places that is left at the place found, if there is one. -/
def loopInts (found : Option ℕ) (n : ℕ) : List ℤ := countUp 0 (found.getD n)

def lruInts (s : Lru.State) (page : Page) : List ℤ :=
  match Lru.hmGet s page with
  | some _ => []
  | none => if s.size = s.capacity then [s.size - 1, s.size - 1 + 1] else [s.size + 1]

def lfuInts (s : Lfu.State) (page : Page) : List ℤ :=
  ((s.lfuClock + 1 : ℕ) : ℤ) :: (loopInts (Lfu.find s page) s.cap.toNat ++
    match Lfu.find s page with
    | some i => [(((s.slots i).freq + 1 : ℕ) : ℤ)]
    | none => if s.size < s.cap then loopInts (Lfu.find s (-1)) s.cap.toNat ++ [s.size + 1]
      else countUp 0 s.cap.toNat)

/-- A node moves from one list of `arc.c` to the front of another. -/
def moveInts (s : Arc.State) (l g : Arc.ListId) : List ℤ :=
  [(s.lists l).size - 1, (if g = l then (s.lists l).size - 1 else (s.lists g).size) + 1]

def replaceInts (s : Arc.State) (in_b2 : Bool) : List ℤ :=
  match ArcSafe.replaceFrom s in_b2 with
  | .t1 => moveInts s .t1 .b1
  | _ => moveInts s .t2 .b2

def forgetInts (s : Arc.State) (l : Arc.ListId) : List ℤ :=
  ((s.lists l).size - 1) ::
    match Arc.forget s l with
    | none => []
    | some s => replaceInts s false

/-- `total` is summed from the left, and `2 * c` is computed only where it is compared. -/
def makeRoomInts (s : Arc.State) : List ℤ :=
  let t1_len := (s.lists .t1).size + (s.lists .b1).size
  let total := t1_len + (s.lists .t2).size + (s.lists .b2).size
  [t1_len, t1_len + (s.lists .t2).size, total] ++
    if t1_len = s.c then
      if (s.lists .t1).size < s.c then forgetInts s .b1 else [(s.lists .t1).size - 1]
    else if t1_len < s.c ∧ total ≥ s.c then
      (2 * s.c) :: if total ≥ 2 * s.c ∧ (s.lists .b2).size > 0 then forgetInts s .b2
        else replaceInts s false
    else []

/-- The quotient, the new target and then the moves of a page that comes back. -/
def recallInts (s : Arc.State) (own other : Arc.ListId) (target : ℤ → ℤ) (clamp : ℤ → ℤ)
    (in_b2 : Bool) : List ℤ :=
  match Arc.delta (s.lists own).size (s.lists other).size with
  | none => []
  | some d => d :: target d :: (replaceInts (Arc.setP s (clamp (target d))) in_b2 ++
      match Arc.arcReplace (Arc.setP s (clamp (target d))) in_b2 with
      | none => []
      | some s => moveInts s own .t2)

def arcInts (s : Arc.State) (page : Page) : List ℤ :=
  match Arc.ahmGet s page with
  | some n =>
    match s.list n with
    | .t1 => moveInts s .t1 .t2
    | .t2 => moveInts s .t2 .t2
    | .b1 => recallInts s .b1 .b2 (s.p + ·) (fun p => if p < s.c then p else s.c) false
    | .b2 => recallInts s .b2 .b1 (s.p - ·) (fun p => if p > 0 then p else 0) true
  | none => makeRoomInts s ++
      match Arc.makeRoom s with
      | none => []
      | some s => [(s.lists .t1).size + 1]

/-- The hand steps on from slot `i`. -/
def stepInts (n i : ℕ) : List ℤ := [(i : ℤ) + 1, ((i + 1) % n : ℕ)]

def sieveInts (s : Sieve.State) (page : Page) : List ℤ :=
  loopInts (Sieve.find s page) s.n ++
    match Sieve.find s page with
    | some _ => []
    | none => (SieveHistory.passes (s.n + 1) s).flatMap (stepInts s.n) ++
        match Sieve.advance (s.n + 1) s with
        | none => []
        | some t => stepInts s.n t.hand

/-- The position of each item of the window. -/
def readInts (w : Window ℕ) : List ℤ :=
  (List.range w.size).flatMap fun i : ℕ =>
    [(w.head : ℤ) - 1, w.head - 1 - i, w.head - 1 - i + w.W, w.head - 1 - i + w.W + w.W,
      ((w.head : ℤ) - 1 - i + w.W + w.W).tmod w.W, (i : ℤ) + 1]

def slideInts (w : Window ℕ) : List ℤ :=
  stepInts w.W w.head ++ if w.size < w.W then [(w.size : ℤ) + 1] else []

/-- The loop of `adj_get`, and the first one of `adj_inc`. -/
def adjGetInts (g : Graph.Adj) (u v : ℕ) : List ℤ := loopInts (Graph.adjGet g u v) (g.edgeCnt u)

/-- A weight and a counter of edges are promoted to be increased. -/
def adjIncInts (g : Graph.Adj) (u v : ℕ) : List ℤ :=
  adjGetInts g u v ++
    match Graph.adjGet g u v with
    | some i => if (g.edges u i).w < 65535 then [((g.edges u i).w : ℤ) + 1] else []
    | none => if g.edgeCnt u < Graph.maxEdgesPerNode then [(g.edgeCnt u : ℤ) + 1]
      else countUp 1 Graph.maxEdgesPerNode

/-- The edges that `update_graph` learns, one after the other. -/
def learnInts (idx : ℕ) : Graph.Adj → List ℕ → List ℤ
  | _, [] => []
  | g, u :: items =>
    if u ≠ idx then adjIncInts g u idx ++ learnInts idx (Graph.adjInc g u idx) items
    else learnInts idx g items

/-- The loop of `apply_decay` over one node, at slot `i` with `r` slots to go. -/
def decayRowInts (row : ℕ → Graph.Edge) (i : ℕ) : ℕ → List ℤ
  | 0 => []
  | r + 1 =>
    let w := Graph.decay (row i).w
    let off := (row i).w >>> Graph.decayShift
    (off : ℤ) :: ((row i).w - off : ℤ) ::
      if w = 0 then ((i + r : ℕ) : ℤ) :: decayRowInts (Function.update row i (row (i + r))) i r
      else ((i + 1 : ℕ) : ℤ) ::
        decayRowInts (Function.update row i { row i with w := w }) (i + 1) r

def decayInts (g : Graph.Adj) : List ℤ :=
  (List.range maxUnique).flatMap fun u : ℕ =>
    decayRowInts (g.edges u) 0 (g.edgeCnt u) ++ [(u : ℤ) + 1]

/-- The sums of `score_page`, which are `long`s: these are `int`s as well. -/
def scoreInts (s : TempoGraph.State) (idx : ℕ) : List ℤ :=
  (s.win.items.flatMap fun u => adjGetInts s.graph u idx) ++
    (List.range (s.win.size + 1)).map fun k =>
      (((s.win.items.take k).map fun u => Graph.adjWeight s.graph u idx).sum : ℤ)

/-- The search for a victim among the frames sampled, with the number of steps. -/
def searchInts (s : TempoGraph.State) : List ℤ :=
  ((TempoGraph.sample s).flatMap fun f =>
    readInts s.win ++ scoreInts s (TempoGraph.pageIdx (s.frames f))) ++
    (List.range (TempoGraph.sample s).length).map fun k : ℕ => (k : ℤ) + 1

def tgVictimInts (s : TempoGraph.State) : List ℤ :=
  let empty := (List.range s.cap.toNat).find? fun f => s.frames f == -1
  (if s.size < s.cap then loopInts empty s.cap.toNat else []) ++
    if s.size < s.cap ∧ empty.isSome then [] else searchInts s

/-- Counting the access, and the sweep when it is time. -/
def tickInts (s : TempoGraph.State) : List ℤ :=
  [((s.accessCount + 1 : ℕ) : ℤ), ((s.globalTime + 1 : ℕ) : ℤ),
    ((s.accessCount + 1) % TempoGraph.decayInterval : ℕ)] ++
    if (s.accessCount + 1) % TempoGraph.decayInterval = 0 then decayInts s.graph else []

def tgInts (s : TempoGraph.State) (page : Page) : List ℤ :=
  let idx := TempoGraph.pageIdx page
  tickInts s ++
    let s := TempoGraph.tick s
    readInts s.win ++ learnInts idx s.graph s.win.items ++ slideInts s.win ++
      if s.inFrames idx then []
      else tgVictimInts (TempoGraph.updateGraph s idx) ++
        if s.size < s.cap then [s.size + 1] else []

/-- The values that the signed arithmetic of an access computes. -/
def accessInts (algo : Algo) (σ : Statics) (page : Page) : List ℤ :=
  match algo with
  | .lru => lruInts σ.lru page
  | .lfu => lfuInts σ.lfu page
  | .arc => arcInts σ.arc page
  | .tempograph => tgInts σ.tg page
  | .sieve => sieveInts σ.sieve page

/-- All of them are in the range of an `int`. -/
def AllFit (zs : List ℤ) : Prop := ∀ z ∈ zs, Fits z

variable {M : Malloc} {algo : Algo} {n : ℕ} {page : Page} {past tr : List Page} {zs zs' : List ℤ}
  {z lo hi : ℤ}

@[simp] lemma allFit_nil : AllFit [] := by simp [AllFit]

@[simp] lemma allFit_cons : AllFit (z :: zs) ↔ Fits z ∧ AllFit zs := by simp [AllFit]

@[simp] lemma allFit_append : AllFit (zs ++ zs') ↔ AllFit zs ∧ AllFit zs' := by
  simp [AllFit, or_imp, forall_and]

lemma allFit_flatMap {α : Type*} {l : List α} {f : α → List ℤ} :
    AllFit (l.flatMap f) ↔ ∀ a ∈ l, AllFit (f a) := by
  simp only [AllFit, List.mem_flatMap, forall_exists_index, and_imp]
  exact ⟨fun h a ha z hz => h z a ha hz, fun h z a ha hz => h a ha z hz⟩

lemma allFit_map {α : Type*} {l : List α} {f : α → ℤ} :
    AllFit (l.map f) ↔ ∀ a ∈ l, Fits (f a) := by
  simp [AllFit]

/-- What the proofs show of a value: it is small. -/
lemma fits_of_small (h : -(2 ^ 24) ≤ z) (h' : z ≤ 2 ^ 24) : Fits z := by
  unfold Fits
  omega

lemma countUp_fits {i j : ℕ} (h : j ≤ 2 ^ 24) : AllFit (countUp i j) := by
  refine allFit_map.mpr fun k hk => ?_
  rw [List.mem_range'_1] at hk
  exact fits_of_small (by omega) (by omega)

lemma loop_fits {p : ℕ → Bool} {k : ℕ} (h : k ≤ 2 ^ 24) :
    AllFit (loopInts ((List.range k).find? p) k) := by
  refine countUp_fits (le_trans ?_ h)
  cases hf : (List.range k).find? p with
  | none => exact le_rfl
  | some i => exact (List.mem_range.mp (List.mem_of_find?_eq_some hf)).le

lemma step_fits {k i : ℕ} (hk : k ≤ 2 ^ 24) (hi : i < k) : AllFit (stepInts k i) := by
  have hlt := Nat.mod_lt (i + 1) (show 0 < k by omega)
  simp only [stepInts, allFit_cons, allFit_nil, and_true]
  exact ⟨fits_of_small (by omega) (by omega), fits_of_small (by omega) (by omega)⟩

/-! ### `lru.c` and `lfu.c` -/

lemma lru_fits {s : Lru.State} (h : LruExact.Inv n past s) (hlen : past.length < maxTrace) :
    AllFit (lruInts s page) := by
  obtain ⟨l, hr, hl⟩ := h
  have hsize := hr.size
  have hle : l.length ≤ past.length := by
    rw [← List.length_map (f := s.page), hl, List.length_take, length_recency]
    exact (min_le_right _ _).trans (List.toFinset_card_le _)
  simp only [maxTrace] at hlen
  unfold lruInts
  split
  · exact allFit_nil
  · split_ifs <;> simp only [allFit_cons, allFit_nil, and_true, Fits] <;> omega

/-- The counters of LFU, on every trace. -/
structure LfuRanged (n : ℕ) (past : List Page) (s : Lfu.State) : Prop where
  counted : Counted n past s
  clock : s.lfuClock = past.length
  size_nonneg : 0 ≤ s.size
  size_le : s.size ≤ n

lemma lfuRanged_init (s₀ : Lfu.State) (hn' : n ≤ maxFrames) :
    ∃ s, Lfu.lfuInit s₀ n = some s ∧ LfuRanged n [] s := by
  refine ⟨_, LfuSteps.lfuInit_eq hn' s₀, ⟨rfl, ?_, fun i => le_rfl⟩, rfl, le_rfl, ?_⟩
  · simp [LfuSteps.initState, Slots.used]
  · simp [LfuSteps.initState]

lemma lfuRanged_step {s : Lfu.State} (hn : 1 ≤ n) (hlen : past.length < maxTrace)
    (h : LfuRanged n past s) (page : Page) :
    ∃ s' r, Lfu.lfuAccess s page = some (s', r) ∧ LfuRanged n (past ++ [page]) s' := by
  obtain ⟨s', r, ha, hc⟩ := counted_step hn hlen h.counted page
  have hcap := h.counted.cap
  have h0 := h.size_nonneg
  have h1 := h.size_le
  have hclock : s.lfuClock + 1 = (past ++ [page]).length := by
    rw [h.clock, List.length_append, List.length_singleton]
  refine ⟨s', r, ha, ?_⟩
  rcases LfuSteps.access_cases ha with ⟨i, -, -, rfl⟩ | ⟨-, v, size, hv, -, rfl⟩
  · exact ⟨hc, hclock, h0, h1⟩
  · have hsize : size = if s.size < s.cap then s.size + 1 else s.size := by
      unfold Lfu.victim at hv
      split_ifs at hv ⊢ <;> exact (Prod.mk.inj hv).2.symm
    refine ⟨hc, hclock, ?_, ?_⟩ <;> simp only [LfuSteps.faultState, hsize] <;> split_ifs <;> omega

lemma lfu_fits {s : Lfu.State} (hn' : n ≤ maxFrames) (h : LfuRanged n past s)
    (hlen : past.length < maxTrace) : AllFit (lfuInts s page) := by
  have hclock := h.clock
  have h0 := h.size_nonneg
  have h1 := h.size_le
  have hcap := h.counted.cap
  simp only [maxTrace, maxFrames] at hlen hn'
  have hsmall : s.cap.toNat ≤ 2 ^ 24 := by omega
  unfold lfuInts
  rw [allFit_cons, allFit_append]
  refine ⟨fits_of_small (by omega) (by omega), loop_fits hsmall, ?_⟩
  cases Lfu.find s page with
  | some i =>
    have := h.counted.freq i
    rw [allFit_cons]
    exact ⟨fits_of_small (by omega) (by omega), allFit_nil⟩
  | none =>
    dsimp only
    split_ifs
    · rw [allFit_append, allFit_cons]
      exact ⟨loop_fits hsmall, fits_of_small (by omega) (by omega), allFit_nil⟩
    · exact countUp_fits hsmall

/-! ### `arc.c` -/

section Arc

open Arc ArcLists

variable {s s' : State} {l g : ListId} {in_b2 : Bool}

/-- The sizes of the lists are within bounds. -/
def Sized (lo hi : ℤ) (s : State) : Prop := ∀ l, lo ≤ (s.lists l).size ∧ (s.lists l).size ≤ hi

lemma Sized.forget (h : Sized lo hi s) (hf : Arc.forget s l = some s') : Sized (lo - 1) hi s' := by
  unfold Arc.forget dlPopTail at hf
  cases ht : (s.lists l).ends.tail with
  | none => simp [ht] at hf
  | some v =>
    simp only [ht, Option.some.injEq] at hf
    subst hf
    intro i
    have hl := h l
    have hi := h i
    simp only [ahmDel, dlRemove, Function.update_apply, apply_ite DList.size]
    split_ifs <;> omega

lemma Sized.demote (h : Sized lo hi s) (hd : Arc.demote s l g = some s') :
    Sized (lo - 1) (hi + 1) s' := by
  unfold Arc.demote dlPopTail at hd
  cases ht : (s.lists l).ends.tail with
  | none => simp [ht] at hd
  | some v =>
    simp only [ht, Option.some.injEq] at hd
    subst hd
    intro i
    have hl := h l
    have hg := h g
    have hi := h i
    simp only [ahmPut, dlPushFront, setList, dlRemove, Function.update_apply,
      apply_ite DList.size]
    split_ifs <;> omega

lemma Sized.replace (h : Sized lo hi s) (hr : arcReplace s in_b2 = some s') :
    Sized (lo - 1) (hi + 1) s' := by
  unfold arcReplace at hr
  dsimp only at hr
  split_ifs at hr
  · exact h.demote hr
  · exact h.demote hr

/-- The values of the moves in a state whose sizes are small. -/
lemma Sized.move_fits (h : Sized lo hi s) (hlo : -(2 ^ 23) ≤ lo) (hhi : hi ≤ 2 ^ 23)
    (l g : ListId) : AllFit (moveInts s l g) := by
  have hl := h l
  have hg := h g
  simp only [moveInts, allFit_cons, allFit_nil, and_true]
  refine ⟨fits_of_small (by omega) (by omega), ?_⟩
  split_ifs <;> exact fits_of_small (by omega) (by omega)

lemma Sized.replace_fits (h : Sized lo hi s) (hlo : -(2 ^ 23) ≤ lo) (hhi : hi ≤ 2 ^ 23)
    (in_b2 : Bool) : AllFit (replaceInts s in_b2) := by
  unfold replaceInts
  split <;> exact h.move_fits hlo hhi _ _

lemma Sized.forget_fits (h : Sized lo hi s) (hlo : -(2 ^ 22) ≤ lo) (hhi : hi ≤ 2 ^ 23)
    (l : ListId) : AllFit (forgetInts s l) := by
  have hl := h l
  unfold forgetInts
  rw [allFit_cons]
  refine ⟨fits_of_small (by omega) (by omega), ?_⟩
  cases hf : Arc.forget s l with
  | none => exact allFit_nil
  | some s' => exact (h.forget hf).replace_fits (by omega) hhi false

/-- The state in which the next access of a run is made: a directory of a full cache bounds
the number of frames. -/
structure Counts (s : State) : Prop where
  sized : Sized 0 maxTrace s
  total : (s.lists .t1).size + (s.lists .b1).size + (s.lists .t2).size + (s.lists .b2).size ≤
    maxTrace
  p : 0 ≤ s.p ∧ s.p ≤ s.c
  found : ∀ page n, ahmGet s page = some n → 0 < (s.lists (s.list n)).size
  full : s.c ≤ (s.lists .t1).size + (s.lists .b1).size + (s.lists .t2).size + (s.lists .b2).size ∨
    (s.lists .b1).size = 0 ∧ (s.lists .b2).size = 0

lemma arc_counts (h : ArcDirectory.Inv n past s) (hlen : past.length < maxTrace) : Counts s := by
  obtain ⟨nd, hr, hs, hf⟩ := h
  obtain ⟨z1, z2, z3, z4⟩ := ArcRefine.abs_size hr
  have hdir := dir_length (ArcRefine.abs s nd)
  have hle : (ArcRefine.abs s nd).dir.length ≤ past.length := by
    have hsub : (ArcRefine.abs s nd).dir ⊆ recency past := fun q hq => by
      rw [dir_eq, List.mem_append] at hq
      exact hq.elim (fun hm => hf.recent.subset hm) fun hm => hf.frequent.subset hm
    refine (List.subperm_of_subset hf.nodup hsub).length_le.trans ?_
    rw [length_recency]
    exact List.toFinset_card_le _
  have hc := hr.c
  have h1 := hs.p_nonneg
  have h2 := hs.p_le
  have hp : (ArcRefine.abs s nd).p = s.p := rfl
  refine ⟨fun l => ?_, by omega, by omega, fun page a ha => ?_, ?_⟩
  · cases l <;> omega
  · obtain ⟨⟨i, hi⟩, -⟩ := (hr.get page a).mp ha
    rw [hr.tag i a hi, hr.size]
    exact_mod_cast List.length_pos_of_mem hi
  · rcases Nat.lt_or_ge ((ArcRefine.abs s nd).t1.length + (ArcRefine.abs s nd).t2.length) n with
      hlt | hge
    · obtain ⟨e1, e2⟩ := hs.ghosts hlt
      rw [z3, z4, e1, e2]
      exact Or.inr ⟨rfl, rfl⟩
    · exact Or.inl (by omega)

lemma Sized.makeRoom (h : Sized lo hi s) (hm : Arc.makeRoom s = some s') :
    Sized (lo - 2) (hi + 1) s' := by
  have hforget {l : ListId} (hf : (match Arc.forget s l with
      | none => none
      | some s => arcReplace s false) = some s') : Sized (lo - 2) (hi + 1) s' := by
    cases hs : Arc.forget s l with
    | none => simp [hs] at hf
    | some t =>
      rw [hs] at hf
      have := (h.forget hs).replace hf
      intro i
      have := this i
      omega
  have hweak {t : State} {a b : ℤ} (ht : Sized a b t) (ha : lo - 2 ≤ a) (hb : b ≤ hi + 1) :
      Sized (lo - 2) (hi + 1) t := fun i => by
    have := ht i
    omega
  unfold Arc.makeRoom at hm
  dsimp only at hm
  split_ifs at hm
  · exact hforget hm
  · exact hweak (h.forget hm) (by omega) (by omega)
  · exact hforget hm
  · exact hweak (h.replace hm) (by omega) le_rfl
  · obtain rfl := Option.some.inj hm
    exact hweak h (by omega) (by omega)

lemma Counts.makeRoom_fits (h : Counts s) : AllFit (makeRoomInts s) := by
  have h1 := h.sized .t1
  have h2 := h.sized .t2
  have h3 := h.sized .b1
  have h4 := h.sized .b2
  have htotal := h.total
  have hp := h.p
  simp only [maxTrace] at h1 h2 h3 h4 htotal
  have hforget (l : ListId) : AllFit (forgetInts s l) :=
    h.sized.forget_fits (by norm_num) (by norm_num [maxTrace]) l
  have hreplace : AllFit (replaceInts s false) :=
    h.sized.replace_fits (by norm_num) (by norm_num [maxTrace]) false
  have hfit {z : ℤ} (hz : -1 ≤ z) (hz' : z ≤ 10000000) : Fits z :=
    fits_of_small (by omega) (by omega)
  simp only [makeRoomInts, allFit_append, allFit_cons, allFit_nil, and_true]
  refine ⟨⟨hfit (by omega) (by omega), hfit (by omega) (by omega), hfit (by omega) (by omega)⟩, ?_⟩
  split_ifs with ha hb hc hd
  · exact hforget .b1
  · rw [allFit_cons]
    exact ⟨hfit (by omega) (by omega), allFit_nil⟩
  -- a directory of as many pages as there are frames: so many are in the trace
  · rw [allFit_cons]
    exact ⟨hfit (by omega) (by omega), hforget .b2⟩
  · rw [allFit_cons]
    exact ⟨hfit (by omega) (by omega), hreplace⟩
  · exact allFit_nil

lemma delta_bounds {own other d : ℤ} (ho : 0 ≤ own) (h0 : 0 ≤ other)
    (hd : delta own other = some d) : 0 ≤ d ∧ d ≤ other + 1 := by
  unfold delta at hd
  split_ifs at hd
  · obtain rfl := Option.some.inj hd
    omega
  · obtain rfl := Option.some.inj hd
    have h1 := Int.tdiv_nonneg h0 ho
    have h2 := Int.tdiv_le_self own h0
    omega

/-- A page that comes back: there are ghosts, so the frames are bounded too. -/
lemma Counts.recall_fits (h : Counts s) (own other : ListId) {target clamp : ℤ → ℤ}
    (htarget : ∀ d : ℤ, 0 ≤ d → d ≤ maxTrace + 1 → Fits (target d)) (in_b2 : Bool) :
    AllFit (recallInts s own other target clamp in_b2) := by
  have ho := h.sized own
  have h0 := h.sized other
  unfold recallInts
  cases hd : delta (s.lists own).size (s.lists other).size with
  | none => exact allFit_nil
  | some d =>
    obtain ⟨hd0, hd1⟩ := delta_bounds ho.1 h0.1 hd
    have hsized : Sized 0 maxTrace (setP s (clamp (target d))) := h.sized
    simp only [maxTrace] at h0 hsized htarget
    rw [allFit_cons, allFit_cons, allFit_append]
    refine ⟨fits_of_small (by omega) (by omega), htarget d hd0 (by push_cast at *; omega),
      hsized.replace_fits (by norm_num) (by norm_num) in_b2, ?_⟩
    cases hr : arcReplace (setP s (clamp (target d))) in_b2 with
    | none => exact allFit_nil
    | some t => exact (hsized.replace hr).move_fits (by norm_num) (by norm_num) own .t2

lemma arc_fits (h : Counts s) (page : Page) : AllFit (arcInts s page) := by
  have hp := h.p
  have htotal := h.total
  unfold arcInts
  cases hg : ahmGet s page with
  | none =>
    rw [allFit_append]
    refine ⟨h.makeRoom_fits, ?_⟩
    cases hm : Arc.makeRoom s with
    | none => exact allFit_nil
    | some t =>
      have := h.sized.makeRoom hm .t1
      simp only [maxTrace] at this
      rw [allFit_cons]
      exact ⟨fits_of_small (by omega) (by push_cast at *; omega), allFit_nil⟩
  | some a =>
    have hpos := h.found page a hg
    have hfull := h.full
    simp only [maxTrace] at htotal
    dsimp only
    cases hl : s.list a with
    | t1 => exact h.sized.move_fits (by norm_num) (by norm_num [maxTrace]) .t1 .t2
    | t2 => exact h.sized.move_fits (by norm_num) (by norm_num [maxTrace]) .t2 .t2
    | b1 =>
      rw [hl] at hpos
      refine h.recall_fits .b1 .b2 (fun d h1 h2 => ?_) false
      simp only [maxTrace] at h2
      exact fits_of_small (by omega) (by push_cast at *; omega)
    | b2 =>
      rw [hl] at hpos
      refine h.recall_fits .b2 .b1 (fun d h1 h2 => ?_) true
      simp only [maxTrace] at h2
      exact fits_of_small (by push_cast at *; omega) (by omega)

end Arc

/-! ### `sieve.c` -/

lemma sieve_fits {s : Sieve.State} (hn : s.n ≤ maxFrames) (hh : s.hand < s.n) :
    AllFit (sieveInts s page) := by
  simp only [maxFrames] at hn
  have hsmall : s.n ≤ 2 ^ 24 := by omega
  unfold sieveInts
  rw [allFit_append]
  refine ⟨loop_fits hsmall, ?_⟩
  cases hf : Sieve.find s page with
  | some i => exact allFit_nil
  | none =>
    obtain ⟨t, ht, htn, -, hth, -⟩ := SieveHistory.fault_spec hh hf
    simp only [ht]
    rw [allFit_append, allFit_flatMap]
    refine ⟨fun i hi => ?_, step_fits hsmall (by omega)⟩
    obtain ⟨j, -, rfl⟩ := SieveHistory.mem_passes hh hi
    exact step_fits hsmall (Nat.mod_lt _ (by omega))

lemma sieve_defined {s : Sieve.State} (hh : s.hand < s.n) (page : Page) :
    ∃ s' r, Sieve.sieveAccess s page = some (s', r) := by
  cases hf : Sieve.find s page with
  | some i => exact ⟨_, _, by simp only [Sieve.sieveAccess, hf]; rfl⟩
  | none =>
    obtain ⟨t, -, -, -, -, ha⟩ := SieveHistory.fault_spec hh hf
    exact ⟨_, _, ha⟩

/-! ### `tempograph.c` -/

section TempoGraph

open TempoGraph TgSafe TgHazards TgVictim Tempograph.Graph

variable {s s' : TempoGraph.State} {r : Result} {g : Adj} {u v idx : ℕ}

/-- The weights have 16 bits, and no node has more edges than slots. -/
structure Small (g : Adj) : Prop where
  light : Light g
  slots : ∀ u, g.edgeCnt u ≤ maxEdgesPerNode

lemma small_zero : Small Adj.zero := ⟨light_zero, fun _ => Nat.zero_le _⟩

lemma Small.adjInc (h : Small g) (u v : ℕ) : Small (adjInc g u v) := by
  refine ⟨h.light.adjInc u v, fun x => ?_⟩
  have hx := h.slots x
  unfold Graph.adjInc
  cases adjGet g u v with
  | some i =>
    dsimp only
    split_ifs <;> exact hx
  | none =>
    dsimp only
    split_ifs with hlt
    · simp only [Function.update_apply]
      split_ifs
      · exact (Nat.mod_le _ _).trans hlt
      · exact hx
    · exact hx

lemma decayRow_count_le (row : ℕ → Edge) (i k : ℕ) : (decayRow row i k).2 ≤ i + k := by
  induction k generalizing row i with
  | zero => exact le_rfl
  | succ k ih =>
    unfold decayRow
    dsimp only
    split_ifs
    · exact (ih _ i).trans (by omega)
    · exact (ih _ (i + 1)).trans (by omega)

lemma Small.applyDecay (h : Small g) : Small (applyDecay g) := by
  refine ⟨h.light.applyDecay, fun u => ?_⟩
  simp only [Graph.applyDecay]
  split_ifs
  · refine (Nat.mod_le _ _).trans ((decayRow_count_le _ 0 _).trans ?_)
    rw [Nat.zero_add]
    exact h.slots u
  · exact h.slots u

lemma Small.addEdges (h : Small g) (items : List ℕ) (idx : ℕ) : Small (addEdges g items idx) :=
  addEdges_keeps h fun _ u _ _ h => h.adjInc u idx

lemma Small.decayed (h : Small s.graph) : Small (decayed s) := decayed_keeps h Small.applyDecay

lemma adjGet_fits (h : Small g) (u v : ℕ) : AllFit (adjGetInts g u v) := by
  have hle := h.slots u
  simp only [maxEdgesPerNode] at hle
  exact loop_fits (by omega)

lemma adjInc_fits (h : Small g) (u v : ℕ) : AllFit (adjIncInts g u v) := by
  have hle := h.slots u
  simp only [maxEdgesPerNode] at hle
  unfold adjIncInts
  rw [allFit_append]
  refine ⟨adjGet_fits h u v, ?_⟩
  cases adjGet g u v with
  | some i =>
    have hw := h.light u i
    dsimp only
    split_ifs
    · rw [allFit_cons]
      exact ⟨fits_of_small (by omega) (by omega), allFit_nil⟩
    · exact allFit_nil
  | none =>
    dsimp only
    split_ifs
    · rw [allFit_cons]
      exact ⟨fits_of_small (by omega) (by omega), allFit_nil⟩
    · exact countUp_fits (by decide)

lemma learn_fits (h : Small g) (items : List ℕ) : AllFit (learnInts idx g items) := by
  induction items generalizing g with
  | nil => exact allFit_nil
  | cons u items ih =>
    unfold learnInts
    split_ifs
    · rw [allFit_append]
      exact ⟨adjInc_fits h u idx, ih (h.adjInc u idx)⟩
    · exact ih h

lemma decayRow_fits {row : ℕ → Edge} {i k : ℕ} (h : ∀ j, (row j).w ≤ 65535)
    (hle : i + k ≤ maxEdgesPerNode) : AllFit (decayRowInts row i k) := by
  induction k generalizing row i with
  | zero => exact allFit_nil
  | succ k ih =>
    have hw := h i
    have hdecay : decay (row i).w ≤ 65535 := by
      unfold decay
      omega
    have hshift : (row i).w >>> decayShift ≤ (row i).w := by
      rw [Nat.shiftRight_eq_div_pow]
      exact Nat.div_le_self _ _
    have hsmall := hle
    simp only [maxEdgesPerNode] at hsmall
    unfold decayRowInts
    simp only [allFit_cons]
    generalize (row i).w >>> decayShift = off at hshift ⊢
    refine ⟨fits_of_small (by omega) (by omega), fits_of_small (by omega) (by omega), ?_⟩
    split_ifs
    · rw [allFit_cons]
      refine ⟨fits_of_small (by omega) (by omega), ih (fun j => ?_) (by omega)⟩
      rw [Function.update_apply]
      split_ifs
      · exact h _
      · exact h j
    · rw [allFit_cons]
      refine ⟨fits_of_small (by omega) (by omega), ih (fun j => ?_) (by omega)⟩
      rw [Function.update_apply]
      split_ifs
      · exact hdecay
      · exact h j

lemma decay_fits (h : Small g) : AllFit (decayInts g) := by
  refine allFit_flatMap.mpr fun u hu => ?_
  have hu := List.mem_range.mp hu
  simp only [maxUnique] at hu
  rw [allFit_append, allFit_cons]
  exact ⟨decayRow_fits (h.light u) (by rw [Nat.zero_add]; exact h.slots u),
    fits_of_small (by omega) (by omega), allFit_nil⟩

/-- The counters of TempoGraph and the bounds of its window and its graph. -/
structure TgRanged (n : ℕ) (past : List Page) (s : State) : Prop where
  bounded : Bounded n s
  graph : Small s.graph
  access : s.accessCount = past.length
  time : s.globalTime = past.length

lemma tgRanged_init (s₀ : State) (hn' : n ≤ maxFrames) (W : ℤ) :
    ∃ s, tgInit s₀ n W = some s ∧ TgRanged n [] s := by
  have he := tgInit_eq s₀ hn' W
  exact ⟨_, he, bounded_init s₀ hn' W he, small_zero, rfl, rfl⟩

lemma access_time (h : tgAccess s page = some (s', r)) : s'.globalTime = s.globalTime + 1 := by
  rw [access_eq] at h
  split_ifs at h
  · obtain ⟨f, -, e⟩ := Option.map_eq_some_iff.mp h
    cases e
    rfl
  · obtain ⟨v, -, e⟩ := Option.map_eq_some_iff.mp h
    cases e
    rfl

lemma tgRanged_step (hn : 1 ≤ n) (h : TgRanged n past s) (page : Page) :
    ∃ s' r, tgAccess s page = some (s', r) ∧ TgRanged n (past ++ [page]) s' := by
  obtain ⟨s', r, ha, -⟩ := safe_step hn h.bounded.toSafe page
  obtain ⟨e1, -, e3⟩ := access_learns ha
  refine ⟨s', r, ha, h.bounded.step hn ha, ?_, ?_, ?_⟩
  · rw [e1]
    exact h.graph.decayed.addEdges _ _
  · rw [e3, h.access, List.length_append, List.length_singleton]
  · rw [access_time ha, h.time, List.length_append, List.length_singleton]

lemma read_fits {w : Window ℕ} (h : Kept w) : AllFit (readInts w) := by
  obtain ⟨hcap, hsize, hhead⟩ := h
  simp only [maxWindow] at hcap
  refine allFit_flatMap.mpr fun i hi => ?_
  have hi := List.mem_range.mp hi
  have hpos : (0 : ℤ) < w.W := by omega
  have h0 := Int.tmod_nonneg (w.W : ℤ) (show 0 ≤ (w.head : ℤ) - 1 - i + w.W + w.W by omega)
  have hlt := Int.tmod_lt_of_pos ((w.head : ℤ) - 1 - i + w.W + w.W) hpos
  simp only [allFit_cons, allFit_nil, and_true]
  exact ⟨fits_of_small (by omega) (by omega), fits_of_small (by omega) (by omega),
    fits_of_small (by omega) (by omega), fits_of_small (by omega) (by omega),
    fits_of_small (by omega) (by omega), fits_of_small (by omega) (by omega)⟩

lemma slide_fits {w : Window ℕ} (h : Kept w) : AllFit (slideInts w) := by
  obtain ⟨hcap, hsize, hhead⟩ := h
  simp only [maxWindow] at hcap
  unfold slideInts
  rw [allFit_append]
  refine ⟨step_fits (by omega) hhead, ?_⟩
  split_ifs
  · rw [allFit_cons]
    exact ⟨fits_of_small (by omega) (by omega), allFit_nil⟩
  · exact allFit_nil

/-- At most 64 weights of at most 65535. -/
lemma score_fits (hw : Kept s.win) (hg : Small s.graph) (idx : ℕ) : AllFit (scoreInts s idx) := by
  rw [scoreInts, allFit_append, allFit_flatMap, allFit_map]
  refine ⟨fun u _ => adjGet_fits hg u idx, fun k _ => ?_⟩
  have hlen : (s.win.items.take k).length ≤ 64 := by
    refine (List.length_take_le' _ _).trans ?_
    rw [Window.items, List.length_map, List.length_range]
    exact hw.size.trans hw.cap
  have hsum : ((s.win.items.take k).map fun u => adjWeight s.graph u idx).sum ≤ 64 * 65535 := by
    calc ((s.win.items.take k).map fun u => adjWeight s.graph u idx).sum
        ≤ ((s.win.items.take k).map fun u => adjWeight s.graph u idx).length • 65535 :=
          List.sum_le_card_nsmul _ _ fun x hx => by
            obtain ⟨u, -, rfl⟩ := List.mem_map.mp hx
            exact hg.light.adjWeight u idx
      _ ≤ 64 * 65535 := by
          rw [List.length_map, smul_eq_mul]
          exact Nat.mul_le_mul_right _ hlen
  exact fits_of_small (by omega) (by omega)

lemma length_follow_le {ν : Type*} {f : ν → Option ν} {m : ℕ} {i : Option ν} :
    (follow f m i).length ≤ m := by
  induction m generalizing i with
  | zero => simp [follow]
  | succ m ih =>
    cases i with
    | none => simp [follow]
    | some x => simpa [follow] using ih

lemma search_fits (hw : Kept s.win) (hg : Small s.graph) : AllFit (searchInts s) := by
  rw [searchInts, allFit_append, allFit_flatMap, allFit_map]
  refine ⟨fun f _ => allFit_append.mpr ⟨read_fits hw, score_fits hw hg _⟩, fun k hk => ?_⟩
  have hlen : (sample s).length ≤ sampleSize := by
    rw [sample]
    exact length_follow_le
  have hk := List.mem_range.mp hk
  simp only [sampleSize] at hlen
  exact fits_of_small (by omega) (by omega)

lemma tick_fits (h : TgRanged n past s) (hlen : past.length < maxTrace) : AllFit (tickInts s) := by
  have hcount := h.access
  have htime := h.time
  have hmod := Nat.mod_le (s.accessCount + 1) decayInterval
  simp only [maxTrace] at hlen
  unfold tickInts
  simp only [List.cons_append, List.nil_append, allFit_cons]
  refine ⟨fits_of_small (by omega) (by omega), fits_of_small (by omega) (by omega),
    fits_of_small (by omega) (by omega), ?_⟩
  split_ifs
  · exact decay_fits h.graph
  · exact allFit_nil

lemma victim_fits (hcap : s.cap.toNat ≤ 2 ^ 24) (hw : Kept s.win) (hg : Small s.graph) :
    AllFit (tgVictimInts s) := by
  unfold tgVictimInts
  dsimp only
  rw [allFit_append]
  constructor
  · split_ifs
    · exact loop_fits hcap
    · exact allFit_nil
  · split_ifs
    · exact allFit_nil
    · exact search_fits hw hg

lemma tg_fits (hn' : n ≤ maxFrames) (h : TgRanged n past s) (hlen : past.length < maxTrace) :
    AllFit (tgInts s page) := by
  have hw := h.bounded.win
  have hg := h.graph.decayed
  have hcap := h.bounded.cap
  have hsize := h.bounded.size_le
  have hpos := h.bounded.size_nonneg
  simp only [maxFrames] at hn'
  have hprep : Small (prepare s (pageIdx page)).graph := hg.addEdges _ _
  unfold tgInts
  dsimp only
  rw [allFit_append, allFit_append, allFit_append, allFit_append, updateGraph_tick, tick_eq]
  refine ⟨tick_fits h hlen, ⟨⟨read_fits hw, learn_fits hg _⟩, slide_fits hw⟩, ?_⟩
  split_ifs with hin hlt
  · exact allFit_nil
  · rw [allFit_append, allFit_cons]
    exact ⟨victim_fits (s := prepare s (pageIdx page)) (by show s.cap.toNat ≤ _; omega) hw hprep,
      fits_of_small (by dsimp only; omega) (by dsimp only; omega), allFit_nil⟩
  · rw [allFit_append]
    exact ⟨victim_fits (s := prepare s (pageIdx page)) (by show s.cap.toNat ≤ _; omega) hw hprep,
      allFit_nil⟩

end TempoGraph

/-! ### Whole runs -/

/-- The frame counts that a policy can run: those with slots have arrays for them. -/
def frameLimit : Algo → ℕ
  | .lru | .arc => intMax
  | .lfu | .tempograph | .sieve => maxFrames

/-- What a run over `past` keeps of the counters. -/
def Ranged (algo : Algo) (n : ℕ) (past : List Page) (σ : Statics) : Prop :=
  match algo with
  | .lru => LruExact.Inv n past σ.lru
  | .lfu => LfuRanged n past σ.lfu
  | .arc => ArcDirectory.Inv n past σ.arc
  | .tempograph => TgRanged n past σ.tg
  | .sieve => σ.sieve.n = n ∧ σ.sieve.hand < σ.sieve.n

lemma ranged_init (σ : Statics) (algo : Algo) (hn : 1 ≤ n) (hn' : n ≤ frameLimit algo) (W : ℤ) :
    ∃ σ', initAlgo σ algo n W = some σ' ∧ Ranged algo n [] σ' := by
  cases algo with
  | lru => exact ⟨_, rfl, LruExact.inv_init σ.lru n⟩
  | lfu =>
    obtain ⟨s, he, hs⟩ := lfuRanged_init σ.lfu hn'
    exact ⟨{ σ with lfu := s }, by rw [initAlgo, he]; rfl, hs⟩
  | arc => exact ⟨_, rfl, ArcDirectory.inv_init σ.arc n⟩
  | tempograph =>
    obtain ⟨s, he, hs⟩ := tgRanged_init σ.tg hn' W
    exact ⟨{ σ with tg := s }, by rw [initAlgo, he]; rfl, hs⟩
  | sieve =>
    obtain ⟨s, he, hs⟩ := CompulsoryMisses.sieve_init σ.sieve hn hn'
    exact ⟨{ σ with sieve := s }, by rw [initAlgo, he]; rfl, hs.size, hs.hand.trans_eq hs.size.symm⟩

lemma ranged_step {σ : Statics} (hn : 1 ≤ n) (hlen : past.length < maxTrace)
    (h : Ranged algo n past σ) (page : Page) :
    ∃ σ' r, accessAlgo M algo σ page = some (σ', r) ∧ Ranged algo n (past ++ [page]) σ' := by
  cases algo with
  | lru =>
    obtain ⟨s, r, ha, hs, -⟩ := LruExact.inv_step M hn h page
    exact ⟨{ σ with lru := s }, r, by rw [accessAlgo, ha]; rfl, hs⟩
  | lfu =>
    obtain ⟨s, r, ha, hs⟩ := lfuRanged_step hn hlen h page
    exact ⟨{ σ with lfu := s }, r, by rw [accessAlgo, ha]; rfl, hs⟩
  | arc =>
    obtain ⟨s, r, ha, hs, -⟩ := ArcDirectory.inv_step M hn h page
    exact ⟨{ σ with arc := s }, r, by rw [accessAlgo, ha]; rfl, hs⟩
  | tempograph =>
    obtain ⟨s, r, ha, hs⟩ := tgRanged_step hn h page
    exact ⟨{ σ with tg := s }, r, by rw [accessAlgo, ha]; rfl, hs⟩
  | sieve =>
    obtain ⟨s, r, ha⟩ := sieve_defined h.2 page
    obtain ⟨e, hh⟩ := Hazards.sieve_hand h.2 ha
    exact ⟨{ σ with sieve := s }, r, by rw [accessAlgo, ha]; rfl, e.trans h.1, hh⟩

lemma ranged_fits {σ : Statics} (hn' : n ≤ frameLimit algo) (hlen : past.length < maxTrace)
    (h : Ranged algo n past σ) (page : Page) : AllFit (accessInts algo σ page) := by
  cases algo with
  | lru => exact lru_fits h hlen
  | lfu => exact lfu_fits hn' h hlen
  | arc => exact arc_fits (arc_counts h hlen) page
  | tempograph => exact tg_fits hn' h hlen
  | sieve => exact sieve_fits (h.1.le.trans hn') h.2

/-- **No signed integer overflows.** For every policy, every frame count that it can run, every
window and every trace that fits in memory: each access is defined, and each value that its
signed arithmetic computes is in the range of an `int`, as are the numbers of accesses and of
faults that `run_sim` counts. -/
theorem no_overflow (M : Malloc) (σ : Statics) (algo : Algo) (n : ℕ) (hn : 1 ≤ n)
    (hn' : n ≤ frameLimit algo) (W : ℤ) (tr : List Page) (hlen : tr.length ≤ maxTrace) :
    ∀ past page, past ++ [page] <+: tr → ∃ σ₁ os, replay M σ algo n W past = some (σ₁, os) ∧
      AllFit (accessInts algo σ₁ page) ∧ Fits (past.length + 1) ∧ Fits (os.count .fault + 1) := by
  intro past page hp
  have hlt : past.length < maxTrace := by
    have := hp.length_le
    rw [List.length_append, List.length_singleton] at this
    omega
  obtain ⟨σ₀, hinit, h0⟩ := ranged_init σ algo hn hn' W
  obtain ⟨σ₁, os, hrun, h1⟩ := run_inv (I := Ranged algo n) past h0 fun past' page' σ' hp' h' => by
    have := hp'.length_le
    rw [List.length_append, List.length_singleton] at this
    exact ranged_step (M := M) hn (by omega) h' page'
  refine ⟨σ₁, os, by rw [replay, hinit]; exact hrun, ranged_fits hn' hlt h1 page, ?_⟩
  have hcount := List.count_le_length (a := Result.fault) (l := os)
  have hos := run_length hrun
  simp only [maxTrace] at hlt
  exact ⟨fits_of_small (by omega) (by omega), fits_of_small (by omega) (by omega)⟩

/-- The theorem at the most frames that an `int` can ask for: `2 * c` is not computed here. -/
theorem no_overflow_max : 1 ≤ intMax ∧ intMax ≤ frameLimit .arc ∧ [3, 5, 3].length ≤ maxTrace ∧
    ∃ σ₁ os, replay Malloc.above start .arc intMax 10 [3, 5] = some (σ₁, os) ∧
      AllFit (accessInts .arc σ₁ 3) := by
  obtain ⟨σ₁, os, h1, h2, -⟩ := no_overflow Malloc.above start .arc intMax (by decide)
    le_rfl 10 [3, 5, 3] (by decide) [3, 5] 3 (List.prefix_refl _)
  exact ⟨by decide, le_rfl, by decide, σ₁, os, h1, h2⟩

end Tempograph.IntRange
