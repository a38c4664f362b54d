import Tempograph.Runs
import Tempograph.Slots
import Tempograph.TempoGraph

/-!
What an access of `tempograph.c` does, and that it is always defined.

An access is a hit or a fault, decided by the frame table alone, and each case is one
explicit next state. Whatever pages a trace has, the page -1 included, the links and the
frame table keep pointing at frames of the cache, so there is always a victim.
-/

namespace Tempograph.TgSafe

open Common Tempograph.Graph LinkedList SlidingWindow Runs TempoGraph

variable {n f v idx : ℕ} {s s' : State} {page : Page} {r : Result}

lemma pageIdx_lt (page : Page) : pageIdx page < maxUnique := Nat.mod_lt _ (by decide)

/-- The graph after the decay that an access may start with. -/
def decayed (s : State) : Adj :=
  if (s.accessCount + 1) % decayInterval = 0 then applyDecay s.graph else s.graph

lemma decayed_keeps {Q : Adj → Prop} {s : State} (h0 : Q s.graph)
    (hstep : Q s.graph → Q (applyDecay s.graph)) : Q (decayed s) := by
  unfold decayed
  split_ifs
  · exact hstep h0
  · exact h0

/-- The rule for `addEdges`: what each edge keeps, all of them keep. -/
lemma addEdges_keeps {Q : Adj → Prop} {g : Adj} {items : List ℕ} {v : ℕ} (h0 : Q g)
    (hstep : ∀ g, ∀ u ∈ items, u ≠ v → Q g → Q (adjInc g u v)) : Q (addEdges g items v) := by
  unfold addEdges
  induction items generalizing g with
  | nil => exact h0
  | cons u items ih =>
    have hrest : ∀ g, ∀ u ∈ items, u ≠ v → Q g → Q (adjInc g u v) := fun g u hu =>
      hstep g u (List.mem_cons_of_mem _ hu)
    rw [List.foldl_cons]
    split_ifs with huv
    · exact ih (hstep g u List.mem_cons_self huv h0) hrest
    · exact ih h0 hrest

/-- The state in which an access looks for a victim. -/
def prepare (s : State) (idx : ℕ) : State :=
  { s with
    graph := addEdges (decayed s) s.win.items idx
    accessCount := s.accessCount + 1
    globalTime := s.globalTime + 1 }

def hitState (s : State) (f idx : ℕ) : State :=
  { prepare s idx with
    links := (lruTouch s f).links
    ends := (lruTouch s f).ends
    mruTime := Function.update s.mruTime f (s.globalTime + 1)
    win := s.win.slide idx }

def faultState (s : State) (v : ℕ) (page : Page) : State :=
  { prepare s (pageIdx page) with
    links := (evict s v).links.pushFront (evict s v).ends v
    ends := (evict s v).ends.pushFront v
    frames := Function.update s.frames v page
    inFrames := Function.update (evict s v).inFrames (pageIdx page) true
    frameOf := Function.update (evict s v).frameOf (pageIdx page) (some v)
    size := if s.size < s.cap then s.size + 1 else s.size
    mruTime := Function.update s.mruTime v (s.globalTime + 1)
    win := s.win.slide (pageIdx page) }

lemma tick_eq (s : State) : tick s = { s with
    graph := decayed s, accessCount := s.accessCount + 1, globalTime := s.globalTime + 1 } := by
  unfold tick decayed
  dsimp only
  split_ifs <;> rfl

lemma updateGraph_tick (s : State) (idx : ℕ) : updateGraph (tick s) idx = prepare s idx := by
  rw [tick_eq]; rfl

lemma hitState_eq (s : State) (f idx : ℕ) :
    slideWindow (updateGraph (lruTouch { tick s with
      mruTime := Function.update (tick s).mruTime f (tick s).globalTime } f) idx) idx =
    hitState s f idx := by
  rw [tick_eq]
  unfold lruTouch hitState lruTouch
  dsimp only
  split_ifs <;> rfl

lemma faultState_eq (s : State) (v : ℕ) (page : Page) :
    slideWindow (load (evict (prepare s (pageIdx page)) v) v page) (pageIdx page) =
      faultState s v page := by
  unfold faultState evict prepare
  by_cases h : s.frames v = -1
  · simp only [h, ne_eq, not_true_eq_false, if_false]; rfl
  · simp only [h, ne_eq, not_false_eq_true, if_true]; rfl

/-- **What an access does.** -/
theorem access_eq (s : State) (page : Page) :
    tgAccess s page =
      if s.inFrames (pageIdx page) then
        (s.frameOf (pageIdx page)).map fun f => (hitState s f (pageIdx page), .hit)
      else (chooseVictim (prepare s (pageIdx page))).map fun v =>
        (faultState s v page, .fault) := by
  have h1 : (tick s).inFrames (pageIdx page) = s.inFrames (pageIdx page) := by rw [tick_eq]
  have h2 : (tick s).frameOf (pageIdx page) = s.frameOf (pageIdx page) := by rw [tick_eq]
  unfold tgAccess
  simp only [h1, h2, updateGraph_tick]
  split_ifs
  · cases s.frameOf (pageIdx page) with
    | none => rfl
    | some f => exact congrArg (fun t => some (t, Result.hit)) (hitState_eq s f (pageIdx page))
  · cases chooseVictim (prepare s (pageIdx page)) with
    | none => rfl
    | some v => exact congrArg (fun t => some (t, Result.fault)) (faultState_eq s v page)

/-! ### Victims -/

/-- The best candidate is one of the frames looked at. -/
lemma foldl_consider_frame (s : State) (l : List ℕ) (b : Best) :
    (l.foldl (consider s) b).frame = b.frame ∨
      ∃ f ∈ l, (l.foldl (consider s) b).frame = some f := by
  induction l generalizing b with
  | nil => exact Or.inl rfl
  | cons a l ih =>
    rcases ih (consider s b a) with h | ⟨f, hf, h⟩
    · rw [List.foldl_cons, h]
      unfold consider
      dsimp only
      split_ifs
      · exact Or.inr ⟨a, List.mem_cons_self, rfl⟩
      · exact Or.inl rfl
    · exact Or.inr ⟨f, List.mem_cons_of_mem _ hf, h⟩

/-- With a tail to start from, the victim of an eviction is a sampled frame. -/
lemma evictionVictim_mem (h : s.ends.tail ≠ none) : ∃ v ∈ sample s, evictionVictim s = some v := by
  obtain ⟨t, ht⟩ := Option.ne_none_iff_exists'.mp h
  unfold evictionVictim
  rcases foldl_consider_frame s (sample s) ⟨none, longMax, -1⟩ with h | ⟨f, hf, h⟩
  · exact ⟨t, by simp [sample, sampleSize, ht, follow], by simp [h, ht]⟩
  · exact ⟨f, hf, by simp [h]⟩

lemma mem_follow {ν : Type*} {g : ν → Option ν} {m : ℕ} {i : Option ν} {x : ν}
    (h : x ∈ follow g m i) : i = some x ∨ ∃ y, g y = some x := by
  induction m generalizing i with
  | zero => simp [follow] at h
  | succ m ih =>
    cases i with
    | none => simp [follow] at h
    | some y =>
      rcases List.mem_cons.mp h with rfl | h
      · exact Or.inl rfl
      · rcases ih h with h | h
        · exact Or.inr ⟨y, h⟩
        · exact Or.inr h

/-- The frames that do not hold the page -1. -/
def occupied (n : ℕ) (s : State) : Finset ℕ := (Finset.range n).filter fun f => s.frames f ≠ -1

/-- The links stay in the cache, and the table finds a frame for every resident index. -/
structure Safe (n : ℕ) (s : State) : Prop where
  cap : s.cap = n
  size_nonneg : 0 ≤ s.size
  size_le : s.size ≤ n
  table : ∀ i, s.inFrames i = true → ∃ f < n, s.frameOf i = some f
  count : ((occupied n s).card : ℤ) ≤ s.size
  tail : 0 < s.size → s.ends.tail ≠ none
  tail_lt : ∀ f, s.ends.tail = some f → f < n
  prev_lt : ∀ f g, s.links.prev f = some g → g < n

lemma mem_occupied : f ∈ occupied n s ↔ f < n ∧ s.frames f ≠ -1 := by
  simp [occupied]

lemma card_occupied_le (n : ℕ) (s : State) : (occupied n s).card ≤ n :=
  (Finset.card_filter_le _ _).trans (Finset.card_range n).le

lemma exists_empty (h : (occupied n s).card < n) : ∃ f < n, s.frames f = -1 :=
  Slots.held_of_card_used h

lemma ne_of_card_occupied (h : n ≤ (occupied n s).card) (hf : f < n) : s.frames f ≠ -1 :=
  Slots.ne_of_card_used h hf

lemma Safe.prepare (h : Safe n s) (idx : ℕ) : Safe n (prepare s idx) :=
  ⟨h.cap, h.size_nonneg, h.size_le, h.table, h.count, h.tail, h.tail_lt, h.prev_lt⟩

/-- There is always a victim in the cache: an empty frame while the cache is not full, a
sampled one when it is. -/
theorem chooseVictim_spec (hn : 1 ≤ n) (h : Safe n s) :
    ∃ v < n, chooseVictim s = some v ∧ (s.size < n → s.frames v = -1) ∧
      (n ≤ s.size → v ∈ sample s) := by
  have hcap := h.cap
  have hsize := h.size_nonneg
  by_cases hlt : s.size < s.cap
  · cases hf : (List.range s.cap.toNat).find? fun f => s.frames f == -1 with
    | none =>
      -- the search does not miss the empty frame
      obtain ⟨f, hfn, he⟩ : ∃ f < n, s.frames f = -1 := exists_empty (by
        have := h.count
        omega)
      have := List.find?_eq_none.mp hf f (by simpa [hcap] using hfn)
      simp [he] at this
    | some v =>
      have hv := List.mem_of_find?_eq_some hf
      have he := List.find?_some hf
      refine ⟨v, by simpa [hcap] using hv, ?_, fun _ => by simpa using he,
        fun hh => absurd hh (by omega)⟩
      simp only [chooseVictim, if_pos hlt, hf]
  · have htail := h.tail (by omega)
    have hvic : chooseVictim s = evictionVictim s := by simp only [chooseVictim, if_neg hlt]
    obtain ⟨v, hv, he⟩ := evictionVictim_mem htail
    refine ⟨v, ?_, hvic.trans he, fun hh => absurd hh (by omega), fun _ => hv⟩
    rcases mem_follow hv with hv | ⟨y, hy⟩
    · exact h.tail_lt v hv
    · exact h.prev_lt y v hy

/-! ### Links that stay in the cache -/

/-- No link towards the head and no tail leaves the first `n` frames. -/
def Within (n : ℕ) (k : Links ℕ) (d : Ends ℕ) : Prop :=
  (∀ f, d.tail = some f → f < n) ∧ ∀ f g, k.prev f = some g → g < n

lemma Within.unlink {k : Links ℕ} {d : Ends ℕ} (h : Within n k d) (f : ℕ) :
    Within n (k.unlink f) (d.unlink k f) := by
  refine ⟨fun t ht => ?_, fun x g hx => ?_⟩
  · simp only [Ends.unlink] at ht
    split_ifs at ht
    · exact h.1 t ht
    · exact h.2 f t ht
  · rw [unlink_prev] at hx
    split_ifs at hx
    · exact h.2 f g hx
    · exact h.2 x g hx

lemma Within.pushFront {k : Links ℕ} {d : Ends ℕ} (h : Within n k d) (hf : f < n) :
    Within n (k.pushFront d f) (d.pushFront f) := by
  refine ⟨fun t ht => ?_, fun x g hx => ?_⟩
  · simp only [Ends.pushFront] at ht
    split_ifs at ht
    · exact h.1 t ht
    · obtain rfl : f = t := by simpa using ht
      exact hf
  · rw [pushFront_prev] at hx
    split_ifs at hx
    · obtain rfl : f = g := by simpa using hx
      exact hf
    · exact h.2 x g hx

lemma pushFront_tail_ne_none (d : Ends ℕ) (f : ℕ) : (d.pushFront f).tail ≠ none := by
  unfold Ends.pushFront
  cases h : d.tail <;> simp

lemma evict_links (s : State) (v : ℕ) :
    (evict s v).links = (if s.frames v ≠ -1 then s.links.unlink v else s.links) ∧
      (evict s v).ends = (if s.frames v ≠ -1 then s.ends.unlink s.links v else s.ends) := by
  unfold evict
  split_ifs <;> exact ⟨rfl, rfl⟩

lemma lruTouch_links (s : State) (f : ℕ) :
    (lruTouch s f).links = (if s.ends.head = some f then s.links
      else (s.links.unlink f).pushFront (s.ends.unlink s.links f) f) ∧
    (lruTouch s f).ends = (if s.ends.head = some f then s.ends
      else (s.ends.unlink s.links f).pushFront f) := by
  unfold lruTouch
  split_ifs <;> exact ⟨rfl, rfl⟩

lemma Safe.hit (h : Safe n s) (hf : f < n) (idx : ℕ) : Safe n (hitState s f idx) := by
  have hw : Within n s.links s.ends := ⟨h.tail_lt, h.prev_lt⟩
  obtain ⟨e1, e2⟩ := lruTouch_links s f
  have hw' : Within n (lruTouch s f).links (lruTouch s f).ends := by
    rw [e1, e2]
    split_ifs
    · exact hw
    · exact (hw.unlink f).pushFront hf
  refine ⟨h.cap, h.size_nonneg, h.size_le, h.table, h.count, fun hs => ?_, hw'.1, hw'.2⟩
  show (lruTouch s f).ends.tail ≠ none
  rw [e2]
  split_ifs
  · exact h.tail hs
  · exact pushFront_tail_ne_none _ _

lemma evict_frameOf (s : State) (v i : ℕ) (hi : (evict s v).inFrames i = true) :
    s.inFrames i = true ∧ (evict s v).frameOf i = s.frameOf i := by
  unfold evict at hi ⊢
  split_ifs at hi ⊢ with he
  · by_cases e : i = pageIdx (s.frames v)
    · simp [lruUnlink, e] at hi
    · simpa [lruUnlink, e] using hi
  · exact ⟨hi, rfl⟩

lemma Safe.fault (h : Safe n s) (hv : v < n) (page : Page) : Safe n (faultState s v page) := by
  have hcap := h.cap
  have hle := h.size_le
  have hnn := h.size_nonneg
  have hw : Within n s.links s.ends := ⟨h.tail_lt, h.prev_lt⟩
  obtain ⟨e1, e2⟩ := evict_links s v
  have hw' : Within n (faultState s v page).links (faultState s v page).ends := by
    refine Within.pushFront ?_ hv
    rw [e1, e2]
    split_ifs
    · exact hw.unlink v
    · exact hw
  have hsize : (faultState s v page).size = if s.size < n then s.size + 1 else s.size := by
    simp only [faultState, hcap]
  refine ⟨hcap, ?_, ?_, fun i hi => ?_, ?_, fun _ => pushFront_tail_ne_none _ _, hw'.1, hw'.2⟩
  · rw [hsize]; split_ifs <;> omega
  · rw [hsize]; split_ifs <;> omega
  · simp only [faultState] at hi ⊢
    by_cases e : i = pageIdx page
    · exact ⟨v, hv, by simp [e]⟩
    · rw [Function.update_of_ne e] at hi ⊢
      obtain ⟨h1, h2⟩ := evict_frameOf s v i hi
      rw [h2]
      exact h.table i h1
  · rw [hsize]
    have hsub : occupied n (faultState s v page) ⊆ insert v (occupied n s) := by
      intro f hf
      rw [mem_occupied] at hf
      rw [Finset.mem_insert, mem_occupied]
      by_cases e : f = v
      · exact Or.inl e
      · simp only [faultState, Function.update_of_ne e] at hf
        exact Or.inr hf
    have hcard := Finset.card_le_card hsub
    have hins := Finset.card_insert_le v (occupied n s)
    have hall := card_occupied_le n (faultState s v page)
    have hcount := h.count
    split_ifs <;> omega

/-- **Every access is defined**, whatever its page. -/
theorem safe_step (hn : 1 ≤ n) (h : Safe n s) (page : Page) :
    ∃ s' r, tgAccess s page = some (s', r) ∧ Safe n s' ∧
      (r = .hit ↔ s.inFrames (pageIdx page) = true) := by
  rw [access_eq]
  split_ifs with hin
  · obtain ⟨f, hf, he⟩ := h.table _ hin
    exact ⟨_, _, by rw [he]; rfl, h.hit hf _, by simp [hin]⟩
  · obtain ⟨v, hv, he, -, -⟩ := chooseVictim_spec hn (h.prepare (pageIdx page))
    exact ⟨_, _, by rw [he]; rfl, h.fault hv page, by simp [hin]⟩

/-- Every run is defined. -/
lemma safe_run (hn : 1 ≤ n) (h : Safe n s) (tr : List Page) :
    ∃ s' os, run tgAccess s tr = some (s', os) ∧ Safe n s' :=
  run_inv (I := fun _ => Safe n) tr h fun _ page _ _ hs => by
    obtain ⟨s', r, h1, h2, -⟩ := safe_step hn hs page
    exact ⟨s', r, h1, h2⟩

/-- What an access learns is the same whether it hits or faults. -/
theorem access_learns (h : tgAccess s page = some (s', r)) :
    s'.graph = addEdges (decayed s) s.win.items (pageIdx page) ∧
      s'.win = s.win.slide (pageIdx page) ∧ s'.accessCount = s.accessCount + 1 := by
  rw [access_eq] at h
  split_ifs at h
  · obtain ⟨f, -, e⟩ := Option.map_eq_some_iff.mp h
    cases e
    exact ⟨rfl, rfl, rfl⟩
  · obtain ⟨v, -, e⟩ := Option.map_eq_some_iff.mp h
    cases e
    exact ⟨rfl, rfl, rfl⟩

/-- The window size that `tg_init` settles on. -/
def windowOf (window_size : ℤ) : ℕ :=
  if window_size > 0 ∧ window_size ≤ maxWindow then window_size.toNat else defaultWindow

/-- The state that `tg_init` leaves. -/
lemma tgInit_eq (s₀ : State) (hn : n ≤ maxFrames) (W : ℤ) :
    tgInit s₀ n W = some { tgReset s₀ with
      cap := n, win := ⟨fun _ => 0, 0, 0, windowOf W⟩ } := by
  have hle : ¬((n : ℤ) > maxFrames) := by omega
  simp only [tgInit, if_neg hle, tgReset, windowOf, ite_self]

lemma safe_init (s₀ : State) (hn : n ≤ maxFrames) (W : ℤ) :
    ∃ s, tgInit s₀ n W = some s ∧ Safe n s := by
  refine ⟨_, tgInit_eq s₀ hn W, ⟨rfl, le_rfl, by simp [tgReset], ?_, ?_, ?_, ?_, ?_⟩⟩
  all_goals simp [tgReset, occupied, Ends.empty]

end Tempograph.TgSafe
