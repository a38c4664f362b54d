import Tempograph.Hazards

/-!
No access of `tempograph.c` leaves its arrays.

Besides the tail and the links towards the head, which `TgSafe` keeps in the cache, the head
and the links towards the tail stay there, and the window keeps to its buffer.
-/

namespace Tempograph.TgHazards

open Common LinkedList SlidingWindow TempoGraph TgSafe Hazards

variable {n f v : ℕ} {s s' : State} {page : Page} {r : Result}

/-! ### Links towards the tail -/

/-- No link towards the tail and no head leaves the first `n` frames. -/
def Ahead (n : ℕ) (k : Links ℕ) (d : Ends ℕ) : Prop :=
  (∀ f, d.head = some f → f < n) ∧ ∀ f g, k.next f = some g → g < n

variable {k : Links ℕ} {d : Ends ℕ}

lemma Ahead.unlink (h : Ahead n k d) (f : ℕ) : Ahead n (k.unlink f) (d.unlink k f) := by
  refine ⟨fun g hg => ?_, fun x g hx => ?_⟩
  · simp only [Ends.unlink] at hg
    split_ifs at hg
    · exact h.1 g hg
    · exact h.2 f g hg
  · rw [unlink_next] at hx
    split_ifs at hx
    · exact h.2 f g hx
    · exact h.2 x g hx

lemma Ahead.pushFront (h : Ahead n k d) (hf : f < n) :
    Ahead n (k.pushFront d f) (d.pushFront f) := by
  refine ⟨fun g hg => ?_, fun x g hx => ?_⟩
  · obtain rfl : f = g := Option.some.inj hg
    exact hf
  · rw [pushFront_next] at hx
    split_ifs at hx
    · exact h.1 g hx
    · exact h.2 x g hx

/-! ### The window -/

/-- The window keeps to its buffer. -/
structure Kept (w : Window ℕ) : Prop where
  cap : w.W ≤ maxWindow
  size : w.size ≤ w.W
  head : w.head < w.W

lemma Kept.slide {w : Window ℕ} (h : Kept w) (x : ℕ) : Kept (w.slide x) := by
  have hW : 0 < w.W := (Nat.zero_le _).trans_lt h.head
  have hsize := h.size
  refine ⟨h.cap, ?_, Nat.mod_lt _ hW⟩
  simp only [Window.slide]
  split_ifs <;> omega

lemma Kept.read_safe {w : Window ℕ} (h : Kept w) : AllSafe (readHazards w) := by
  obtain ⟨hcap, hsize, hhead⟩ := h
  refine allSafe_flatMap.mpr fun i hi => ?_
  have hi := List.mem_range.mp hi
  have hpos : (0 : ℤ) < w.W := by omega
  simp only [allSafe_cons, allSafe_nil, Hazard.Safe, and_true]
  refine ⟨hpos.ne', Int.tmod_nonneg _ (by omega), ?_⟩
  have hlt := Int.tmod_lt_of_pos ((w.head : ℤ) - 1 - i + w.W + w.W) hpos
  omega

lemma Kept.slide_safe {w : Window ℕ} (h : Kept w) : AllSafe (slideHazards w) := by
  obtain ⟨hcap, -, hhead⟩ := h
  simp only [slideHazards, allSafe_cons, allSafe_nil, Hazard.Safe, and_true]
  omega

lemma windowOf_bounds (W : ℤ) : 1 ≤ windowOf W ∧ windowOf W ≤ maxWindow := by
  unfold windowOf maxWindow defaultWindow
  split_ifs <;> omega

/-! ### Accesses -/

structure Bounded (n : ℕ) (s : State) : Prop extends Safe n s where
  ahead : Ahead n s.links s.ends
  win : Kept s.win

lemma bounded_init (s₀ : State) (hn : n ≤ maxFrames) (W : ℤ) (h : tgInit s₀ n W = some s) :
    Bounded n s := by
  obtain ⟨t, ht, hsafe⟩ := safe_init s₀ hn W
  rw [h] at ht
  obtain rfl : s = t := Option.some.inj ht
  rw [tgInit_eq s₀ hn W] at h
  obtain ⟨h1, h2⟩ := windowOf_bounds W
  obtain rfl := Option.some.inj h
  refine ⟨hsafe, ⟨?_, ?_⟩, h2, Nat.zero_le _, h1⟩
  all_goals simp [tgReset, Ends.empty]

lemma Bounded.step (hn : 1 ≤ n) (h : Bounded n s) (hacc : tgAccess s page = some (s', r)) :
    Bounded n s' := by
  rw [access_eq] at hacc
  split_ifs at hacc with hin
  · obtain ⟨f, hf, he⟩ := h.table _ hin
    rw [he, Option.map_some, Option.some.injEq, Prod.mk.injEq] at hacc
    obtain ⟨rfl, -⟩ := hacc
    obtain ⟨e1, e2⟩ := lruTouch_links s f
    refine ⟨h.toSafe.hit hf _, ?_, h.win.slide _⟩
    show Ahead n (lruTouch s f).links (lruTouch s f).ends
    rw [e1, e2]
    split_ifs
    · exact h.ahead
    · exact (h.ahead.unlink f).pushFront hf
  · obtain ⟨v, hv, he, -, -⟩ := chooseVictim_spec hn (h.toSafe.prepare (pageIdx page))
    rw [he, Option.map_some, Option.some.injEq, Prod.mk.injEq] at hacc
    obtain ⟨rfl, -⟩ := hacc
    obtain ⟨e1, e2⟩ := evict_links s v
    refine ⟨h.toSafe.fault hv page, Ahead.pushFront ?_ hv, h.win.slide _⟩
    rw [e1, e2]
    split_ifs
    · exact h.ahead.unlink v
    · exact h.ahead

lemma unlinked_lt (h : Bounded n s) (hf : f < n) : ∀ g ∈ unlinked s.links f, g < n := by
  intro g hg
  simp only [unlinked, List.mem_cons, List.mem_append, Option.mem_toList] at hg
  rcases hg with rfl | hg | hg
  · exact hf
  · exact h.prev_lt f g hg
  · exact h.ahead.2 f g hg

lemma pushed_lt (h : Ahead n k d) (hf : f < n) : ∀ g ∈ pushed d f, g < n := by
  intro g hg
  simp only [pushed, List.mem_cons, Option.mem_toList] at hg
  rcases hg with rfl | hg
  · exact hf
  · exact h.1 g hg

lemma touched_lt (h : Bounded n s) (hf : f < n) : ∀ g ∈ touched s.links s.ends f, g < n := by
  intro g hg
  unfold touched at hg
  split_ifs at hg
  · cases hg
  · rcases List.mem_append.mp hg with hg | hg
    · exact unlinked_lt h hf g hg
    · exact pushed_lt (h.ahead.unlink f) hf g hg

lemma frames_safe {is : List ℕ} (hn : n ≤ maxFrames) (h : ∀ i ∈ is, i < n) :
    AllSafe (frames is) :=
  allSafe_frames.mpr fun i hi => (h i hi).trans_le hn

lemma sample_lt (h : Bounded n s) : ∀ g ∈ sample s, g < n := by
  intro g hg
  rcases mem_follow hg with hg | ⟨f, hf⟩
  · exact h.tail_lt g hg
  · exact h.prev_lt f g hf

lemma victim_safe (hn : n ≤ maxFrames) (h : Bounded n s) : AllSafe (tgVictimHazards s) := by
  have hcap : s.cap.toNat ≤ maxFrames := by
    have := h.cap
    omega
  have hsampled : AllSafe ((sample s).flatMap fun f : ℕ => frame f :: readHazards s.win) :=
    allSafe_flatMap.mpr fun f hf => allSafe_cons.mpr
      ⟨frame_safe.mpr ((sample_lt h f hf).trans_le hn), h.win.read_safe⟩
  unfold tgVictimHazards
  dsimp only
  split_ifs
  · exact allSafe_append.mpr ⟨looked_safe hcap _, allSafe_nil⟩
  · exact allSafe_append.mpr ⟨looked_safe hcap _, hsampled⟩
  · exact hsampled

lemma Bounded.prepare (h : Bounded n s) (idx : ℕ) : Bounded n (prepare s idx) :=
  ⟨h.toSafe.prepare idx, h.ahead, h.win⟩

/-- The hazards of an access, without what it counts and learns. -/
lemma hazards_eq (s : State) (page : Page) :
    tgAccessHazards s page =
      if s.inFrames (pageIdx page) then
        frame (indexOf (s.frameOf (pageIdx page))) ::
          match s.frameOf (pageIdx page) with
          | none => []
          | some f =>
            frames (touched s.links s.ends f) ++ readHazards s.win ++ slideHazards s.win
      else
        let t := TgSafe.prepare s (pageIdx page)
        readHazards s.win ++ tgVictimHazards t ++
          frame (indexOf (chooseVictim t)) ::
            match chooseVictim t with
            | none => []
            | some v =>
              frames (if s.frames v ≠ -1 then unlinked s.links v else []) ++
                frames (pushed (evict t v).ends v) ++ slideHazards s.win := by
  simp only [tgAccessHazards, updateGraph_tick]
  rw [tick_eq]
  rfl

/-- **Every access stays in the arrays.** -/
theorem tg_safe (hn : 1 ≤ n) (hn' : n ≤ maxFrames) (h : Bounded n s) (page : Page) :
    AllSafe (tgAccessHazards s page) := by
  rw [hazards_eq]
  split_ifs with hin
  · obtain ⟨f, hf, he⟩ := h.table _ hin
    simp only [he, allSafe_cons, allSafe_append]
    exact ⟨frame_safe.mpr (hf.trans_le hn'), ⟨frames_safe hn' (touched_lt h hf), h.win.read_safe⟩,
      h.win.slide_safe⟩
  · have hp := h.prepare (pageIdx page)
    obtain ⟨v, hv, he, -, -⟩ := chooseVictim_spec hn hp.toSafe
    obtain ⟨-, hends⟩ := evict_links (TgSafe.prepare s (pageIdx page)) v
    have hpush : ∀ g ∈ pushed (evict (TgSafe.prepare s (pageIdx page)) v).ends v, g < n := by
      rw [hends]
      split_ifs
      · exact pushed_lt (hp.ahead.unlink v) hv
      · exact pushed_lt hp.ahead hv
    have hunlink : AllSafe (frames (if s.frames v ≠ -1 then unlinked s.links v else [])) := by
      split_ifs
      · exact frames_safe hn' (unlinked_lt h hv)
      · exact allSafe_nil
    simp only [he, allSafe_cons, allSafe_append]
    exact ⟨⟨h.win.read_safe, victim_safe hn' hp⟩, frame_safe.mpr (hv.trans_le hn'),
      ⟨hunlink, frames_safe hn' hpush⟩, h.win.slide_safe⟩

/-- An access without a result uses the frame -1. -/
lemma tg_undefined (h : tgAccess s page = none) :
    frame (indexOf none) ∈ tgAccessHazards s page := by
  rw [access_eq] at h
  rw [hazards_eq]
  split_ifs at h ⊢ with hin
  · rw [Option.map_eq_none_iff.mp h]
    exact List.mem_cons_self
  · rw [Option.map_eq_none_iff] at h
    simp only [h]
    exact List.mem_append_right _ List.mem_cons_self

end Tempograph.TgHazards
