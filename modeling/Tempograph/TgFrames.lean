import Tempograph.Recency
import Tempograph.TgSafe

/-!
The frame table and the recency list of `tempograph.c`.

On a trace without the page -1 the list holds exactly the occupied frames, the table finds
each of them by its index, and the order of the list is the order of last use of the indices.
A victim is one of the 64 frames at the tail, so the frames before them are out of reach.
-/

namespace Tempograph.TgFrames

open Common LinkedList Recency Runs TempoGraph TgSafe

variable {n f v idx : ℕ} {s : State} {l : List ℕ} {h : List ℕ} {page : Page}

/-- The index of the page in frame `f`. -/
def held (s : State) (f : ℕ) : ℕ := pageIdx (s.frames f)

/-- The list `l` of frames, the table, the counters and the times after the history `h` of
page indices. -/
structure Rep (n : ℕ) (h : List ℕ) (s : State) (l : List ℕ) : Prop where
  list : IsList s.links s.ends l
  cap : s.cap = n
  size : s.size = l.length
  occupied : ∀ f, f ∈ l ↔ f < n ∧ s.frames f ≠ -1
  found : ∀ f ∈ l, s.inFrames (held s f) = true ∧ s.frameOf (held s f) = some f
  table : ∀ i, s.inFrames i = true → ∃ f ∈ l, held s f = i
  clock : s.globalTime = h.length
  time : ∀ f ∈ l, s.mruTime f = lastAccess h (held s f)
  order : (l.map (held s)).Sublist (recency h)
  /-- The most recent indices are resident. -/
  recent : ∀ q ∈ (recency h).take (n - sampleSize), q ∈ l.map (held s)

lemma Rep.held_inj (hr : Rep n h s l) {a b : ℕ} (ha : a ∈ l) (hb : b ∈ l)
    (e : held s a = held s b) : a = b := by
  have h1 := (hr.found a ha).2
  rw [e, (hr.found b hb).2] at h1
  exact (Option.some.inj h1).symm

lemma Rep.length_le (hr : Rep n h s l) : l.length ≤ n := by
  have hsub : l ⊆ List.range n := fun f hf => List.mem_range.mpr ((hr.occupied f).mp hf).1
  simpa using (List.subperm_of_subset hr.list.nodup hsub).length_le

lemma rep_init (s₀ : State) (hn : n ≤ maxFrames) (W : ℤ) :
    ∃ s, tgInit s₀ n W = some s ∧ Safe n s ∧ Rep n [] s [] := by
  obtain ⟨s, he, hs⟩ := safe_init s₀ hn W
  refine ⟨s, he, hs, ?_⟩
  rw [tgInit_eq s₀ hn] at he
  obtain rfl := Option.some.inj he
  refine ⟨?_, rfl, rfl, ?_, by simp, ?_, rfl, by simp, ?_, by simp⟩
  · exact isList_nil _
  · simp [tgReset]
  · simp [tgReset]
  · exact List.Sublist.refl _

/-! ### Hits -/

lemma touch_spec {k : Links ℕ} (hl : IsList k s.ends l) (hk : s.links = k) (hf : f ∈ l) :
    IsList (lruTouch s f).links (lruTouch s f).ends (touch f l) := by
  subst hk
  obtain ⟨e1, e2⟩ := lruTouch_links s f
  rw [e1, e2]
  split_ifs with hhead
  · -- the head stays where it is
    rw [hl.head] at hhead
    obtain ⟨r, rfl⟩ : ∃ r, l = f :: r := by
      cases l with
      | nil => simp at hhead
      | cons a r => exact ⟨r, by simpa using hhead⟩
    simpa [touch] using hl
  · exact (hl.unlink hf).pushFront hl.nodup.not_mem_erase

lemma Rep.hit (hr : Rep n h s l) (hf : f ∈ l) :
    Rep n (h ++ [held s f]) (hitState s f (held s f)) (touch f l) := by
  have hmem : ∀ g, g ∈ touch f l ↔ g ∈ l := fun _ => mem_touch_of_mem hf
  have hmap : (touch f l).map (held s) = touch (held s f) (l.map (held s)) :=
    map_touch_of_injOn fun g hg e => hr.held_inj hg hf e
  refine ⟨touch_spec hr.list rfl hf, hr.cap, ?_, fun g => ?_, fun g hg => ?_, fun i hi => ?_,
    ?_, fun g hg => ?_, ?_, fun q hq => ?_⟩
  · rw [length_touch_of_mem hf]; exact hr.size
  · rw [hmem]; exact hr.occupied g
  · exact hr.found g ((hmem g).mp hg)
  · obtain ⟨g, hg, e⟩ := hr.table i hi
    exact ⟨g, (hmem g).mpr hg, e⟩
  · simp [hitState, prepare, hr.clock]
  · have hg := (hmem g).mp hg
    show Function.update s.mruTime f (s.globalTime + 1) g = lastAccess _ (held s g)
    rw [lastAccess_snoc, hr.clock]
    by_cases e : g = f
    · simp [e]
    · have hne : held s g ≠ held s f := fun e' => e (hr.held_inj hg hf e')
      rw [Function.update_of_ne e, if_neg hne]
      exact hr.time g hg
  · show ((touch f l).map (held s)).Sublist _
    rw [hmap, recency_snoc]
    exact sublist_touch hr.order
  · show q ∈ (touch f l).map (held s)
    rw [recency_snoc] at hq
    rw [hmap, mem_touch]
    exact (mem_take_touch hq).imp_right (hr.recent q)

/-! ### Faults -/

lemma Rep.mem_iff (hr : Rep n h s l) (hv : v < n) : v ∈ l ↔ s.frames v ≠ -1 := by
  rw [hr.occupied]
  exact and_iff_right hv

/-- Eviction takes the victim's slot out of the list and its index out of the table. -/
lemma Rep.evict (hr : Rep n h s l) (hv : v < n) :
    IsList (evict s v).links (evict s v).ends (l.erase v) ∧
      (∀ f ∈ l.erase v, (evict s v).inFrames (held s f) = true ∧
        (evict s v).frameOf (held s f) = some f) ∧
      ∀ i, (evict s v).inFrames i = true → ∃ f ∈ l.erase v, held s f = i := by
  have hnd := hr.list.nodup
  obtain ⟨e1, e2⟩ := evict_links s v
  by_cases hvl : v ∈ l
  · have hocc := (hr.mem_iff hv).mp hvl
    rw [e1, e2, if_pos hocc, if_pos hocc]
    have hin : (TempoGraph.evict s v).inFrames =
        Function.update s.inFrames (held s v) false := by
      simp [TempoGraph.evict, hocc, lruUnlink, held]
    have hof : (TempoGraph.evict s v).frameOf =
        Function.update s.frameOf (held s v) none := by
      simp [TempoGraph.evict, hocc, lruUnlink, held]
    rw [hin, hof]
    refine ⟨hr.list.unlink hvl, fun f hf => ?_, fun i hi => ?_⟩
    · obtain ⟨hfv, hf⟩ := hnd.mem_erase_iff.mp hf
      have hne : held s f ≠ held s v := fun e => hfv (hr.held_inj hf hvl e)
      rw [Function.update_of_ne hne, Function.update_of_ne hne]
      exact hr.found f hf
    · have hne : i ≠ held s v := by rintro rfl; simp at hi
      rw [Function.update_of_ne hne] at hi
      obtain ⟨f, hf, rfl⟩ := hr.table i hi
      exact ⟨f, hnd.mem_erase_iff.mpr ⟨fun e => hne (e ▸ rfl), hf⟩, rfl⟩
  · have hemp : s.frames v = -1 := by
      by_contra hne
      exact hvl ((hr.mem_iff hv).mpr hne)
    have hev : TempoGraph.evict s v = s := by simp [TempoGraph.evict, hemp]
    rw [hev, List.erase_of_not_mem hvl]
    exact ⟨hr.list, hr.found, hr.table⟩

/-- No frame of the list holds an index that is not in the table. -/
lemma Rep.held_ne (hr : Rep n h s l) (hin : s.inFrames idx = false) :
    ∀ f ∈ l, held s f ≠ idx := fun f hf e => by
  rw [← e, (hr.found f hf).1] at hin
  cases hin

/-- The victim does not hold one of the most recent indices once the new page is loaded. -/
lemma Rep.recent_of_victim (hr : Rep n h s l) (hin : s.inFrames idx = false) (hvl : v ∈ l)
    (hlen : l.length = n) (hv : v ∈ sample s) :
    held s v ∉ (touch idx (recency h)).take (n - sampleSize) := by
  -- a sampled frame has at most 63 frames behind it
  obtain ⟨a, b, rfl, hb⟩ := hr.list.split_of_mem_follow hv
  have hidx : idx ∉ (a ++ v :: b).map (held s) := by
    intro hm
    obtain ⟨f, hf, e⟩ := List.mem_map.mp hm
    exact hr.held_ne hin f hf e
  have hsub := hr.order.erase idx
  rw [List.erase_of_not_mem hidx, List.map_append, List.map_cons] at hsub
  have hpre : (a.map (held s) ++ [held s v]).Sublist
      (a.map (held s) ++ held s v :: b.map (held s)) :=
    List.Sublist.append (List.Sublist.refl _) (List.singleton_sublist.mpr List.mem_cons_self)
  refine not_mem_take_of_sublist (l := idx :: a.map (held s)) ((hpre.trans hsub).cons_cons idx)
    (nodup_touch (nodup_recency h)) ?_
  simp only [List.length_append, List.length_cons, List.length_map] at hlen ⊢
  omega

/-- The victim is in the list exactly if the cache is full. -/
lemma Rep.full_iff (hr : Rep n h s l) (hv : v < n) (hfree : s.size < n → s.frames v = -1)
    (hfull : n ≤ s.size → v ∈ sample s) : n ≤ s.size ↔ v ∈ l := by
  rw [hr.mem_iff hv]
  constructor
  · intro hge
    have hm := hfull hge
    rw [sample, hr.list.follow_prev] at hm
    exact (hr.mem_iff hv).mp (List.mem_reverse.mp (List.mem_of_mem_take hm))
  · intro hocc
    by_contra hlt
    exact hocc (hfree (by omega))

lemma held_fault (s : State) (v : ℕ) (page : Page) (f : ℕ) :
    held (faultState s v page) f = if f = v then pageIdx page else held s f := by
  simp only [held, faultState, Function.update_apply]
  split_ifs <;> rfl

/-- The indices in the list after a fault. -/
lemma map_fault (hnd : l.Nodup) (page : Page) :
    (touch v l).map (held (faultState s v page)) =
      pageIdx page :: (l.erase v).map (held s) := by
  rw [touch, List.map_cons, held_fault, if_pos rfl]
  congr 1
  exact List.map_congr_left fun f hf => by
    rw [held_fault, if_neg (hnd.mem_erase_iff.mp hf).1]

/-- A fault loads the page into the victim's slot, at the head of the list. -/
lemma Rep.fault (hr : Rep n h s l) (hv : v < n) (hfree : s.size < n → s.frames v = -1)
    (hfull : n ≤ s.size → v ∈ sample s) (hp : page ≠ -1)
    (hin : s.inFrames (pageIdx page) = false) :
    Rep n (h ++ [pageIdx page]) (faultState s v page) (touch v l) := by
  have hnd := hr.list.nodup
  have hsize := hr.size
  have hcap := hr.cap
  have hlen := hr.length_le
  have hvl := hr.full_iff hv hfree hfull
  have hidx := hr.held_ne hin
  have hmap := map_fault (s := s) (v := v) hnd page
  obtain ⟨hlist, hfound, htable⟩ := hr.evict hv
  have hvn : v ∉ l.erase v := hnd.not_mem_erase
  have hother : ∀ f ∈ l.erase v, f ≠ v ∧ f ∈ l := fun f hf => hnd.mem_erase_iff.mp hf
  have hsub : ((l.erase v).map (held s)).Sublist (recency h) :=
    (List.erase_sublist.map _).trans hr.order
  have hnot : pageIdx page ∉ (l.erase v).map (held s) := by
    intro hm
    obtain ⟨f, hf, e⟩ := List.mem_map.mp hm
    exact hidx f (hother f hf).2 e
  refine ⟨hlist.pushFront hvn, hcap, ?_, fun f => ?_, fun f hf => ?_, fun i hi => ?_, ?_,
    fun f hf => ?_, ?_, fun q hq => ?_⟩
  · show (if s.size < s.cap then s.size + 1 else s.size) = _
    split_ifs with hlt
    · have : v ∉ l := fun hm => by have := hvl.mpr hm; omega
      rw [touch_of_not_mem this, List.length_cons, hsize]
      omega
    · rw [length_touch_of_mem (hvl.mp (by omega)), hsize]
  · rw [mem_touch]
    simp only [faultState]
    by_cases e : f = v
    · subst e; simp [hv, hp]
    · rw [Function.update_of_ne e]; simp [e, hr.occupied f]
  · rw [held_fault]
    simp only [faultState]
    by_cases e : f = v
    · subst e; simp
    · have hf : f ∈ l.erase v := by simpa [touch, e] using hf
      have hne := hidx f (hother f hf).2
      rw [if_neg e, Function.update_of_ne hne, Function.update_of_ne hne]
      exact hfound f hf
  · by_cases e : i = pageIdx page
    · exact ⟨v, by simp, by rw [held_fault, if_pos rfl, e]⟩
    · simp only [faultState, Function.update_of_ne e] at hi
      obtain ⟨f, hf, e'⟩ := htable i hi
      exact ⟨f, List.mem_cons_of_mem _ hf, by rw [held_fault, if_neg (hother f hf).1, e']⟩
  · simp [faultState, prepare, hr.clock]
  · rw [held_fault, lastAccess_snoc]
    simp only [faultState, hr.clock]
    by_cases e : f = v
    · subst e; simp
    · have hf := hother f (by simpa [touch, e] using hf)
      rw [if_neg e, Function.update_of_ne e, if_neg (hidx f hf.2)]
      exact hr.time f hf.2
  · rw [hmap, recency_snoc]
    have := hsub.erase (pageIdx page)
    rw [List.erase_of_not_mem hnot] at this
    exact this.cons_cons _
  · rw [hmap, List.mem_cons]
    rw [recency_snoc] at hq
    rcases mem_take_touch hq with e | hq'
    · exact Or.inl e
    · right
      obtain ⟨f, hf, rfl⟩ := List.mem_map.mp (hr.recent q hq')
      refine List.mem_map_of_mem (hnd.mem_erase_iff.mpr ⟨?_, hf⟩)
      rintro rfl
      have hge := hvl.mpr hf
      exact hr.recent_of_victim hin hf (by omega) (hfull hge) hq

/-! ### Whole runs -/

/-- What a run without the page -1 keeps. -/
def Inv (n : ℕ) (h : List ℕ) (s : State) : Prop := Safe n s ∧ ∃ l, Rep n h s l

/-- **One access** to a page other than -1 keeps the representation. -/
theorem inv_step (hn : 1 ≤ n) (hi : Inv n h s) (hp : page ≠ -1) :
    ∃ s' r, tgAccess s page = some (s', r) ∧ Inv n (h ++ [pageIdx page]) s' ∧
      (r = .hit ↔ s.inFrames (pageIdx page) = true) := by
  obtain ⟨hs, l, hr⟩ := hi
  rw [access_eq]
  split_ifs with hin
  · obtain ⟨f, hf, e⟩ := hr.table _ hin
    have hof := (hr.found f hf).2
    have hfn := ((hr.occupied f).mp hf).1
    rw [e] at hof
    have hr' := hr.hit hf
    rw [e] at hr'
    exact ⟨_, _, by rw [hof]; rfl, ⟨hs.hit hfn _, _, hr'⟩, by simp [hin]⟩
  · have hin : s.inFrames (pageIdx page) = false := by simpa using hin
    obtain ⟨v, hv, he, hfree, hfull⟩ := chooseVictim_spec hn (hs.prepare (pageIdx page))
    exact ⟨_, _, by rw [he]; rfl, ⟨hs.fault hv page, _, hr.fault hv hfree hfull hp hin⟩,
      by simp [hin]⟩

/-- Every trace without the page -1 runs to its end. -/
lemma tg_run (s₀ : State) (hn : 1 ≤ n) (hn' : n ≤ maxFrames) (W : ℤ) (tr : List Page)
    (htr : (-1 : Page) ∉ tr) :
    ∃ s s' os, tgInit s₀ n W = some s ∧ run tgAccess s tr = some (s', os) ∧
      Inv n (tr.map pageIdx) s' ∧
      ∀ k (hk : k < tr.length) (hk' : k < os.length), os[k] = .fault →
        pageIdx tr[k] ∉ (recency ((tr.take k).map pageIdx)).take (n - sampleSize) := by
  obtain ⟨s, he, hs, hr⟩ := rep_init s₀ hn' W
  obtain ⟨s', os, hrun, hi, ho⟩ := run_spec
    (I := fun past s => Inv n (past.map pageIdx) s)
    (O := fun past page r => r = Result.fault →
      pageIdx page ∉ (recency (past.map pageIdx)).take (n - sampleSize)) tr ⟨hs, [], hr⟩
    fun past page s hp hi => by
      have hne : page ≠ -1 := by
        rintro rfl
        exact htr (hp.subset (by simp))
      obtain ⟨s', r, ha, hi', hhit⟩ := inv_step hn hi hne
      refine ⟨s', r, ha, by simpa using hi', fun e hm => ?_⟩
      obtain ⟨-, l, hr⟩ := hi
      obtain ⟨f, hf, e'⟩ := List.mem_map.mp (hr.recent _ hm)
      have hin := (hr.found f hf).1
      rw [e'] at hin
      rw [hhit.mpr hin] at e
      cases e
  exact ⟨s, s', os, he, hrun, hi, ho⟩

/-- The eight pieces of state agree on which frame holds what and on the order of use. -/
structure Coherent (n : ℕ) (tr : List Page) (s : State) : Prop where
  table : ∀ i, s.inFrames i = true ↔ ∃ f, s.frameOf i = some f ∧ f < n ∧ s.frames f ≠ -1 ∧
    pageIdx (s.frames f) = i
  distinct : ∀ f g, f < n → g < n → s.frames f ≠ -1 → s.frames g ≠ -1 →
    pageIdx (s.frames f) = pageIdx (s.frames g) → f = g
  size : s.size = (occupied n s).card
  walk : ∃ l, (∀ m, l.length ≤ m → follow s.links.next m s.ends.head = l ∧
      follow s.links.prev m s.ends.tail = l.reverse) ∧
    l.Nodup ∧ (∀ f, f ∈ l ↔ f < n ∧ s.frames f ≠ -1) ∧
    s.ends.head = l.head? ∧ s.ends.tail = l.getLast? ∧
    l.Pairwise fun f g => s.mruTime g < s.mruTime f
  time : ∀ f < n, s.frames f ≠ -1 →
    s.mruTime f = lastAccess (tr.map pageIdx) (pageIdx (s.frames f))

lemma Rep.coherent {tr : List Page} (hr : Rep n (tr.map pageIdx) s l) : Coherent n tr s := by
  refine ⟨fun i => ?_, fun f g hf hg hf' hg' e => ?_, ?_, ?_, fun f hf hf' => ?_⟩
  · constructor
    · intro hi
      obtain ⟨f, hf, rfl⟩ := hr.table i hi
      obtain ⟨h1, h2⟩ := (hr.occupied f).mp hf
      exact ⟨f, (hr.found f hf).2, h1, h2, rfl⟩
    · rintro ⟨f, -, h1, h2, rfl⟩
      exact (hr.found f ((hr.occupied f).mpr ⟨h1, h2⟩)).1
  · exact hr.held_inj ((hr.occupied f).mpr ⟨hf, hf'⟩) ((hr.occupied g).mpr ⟨hg, hg'⟩) e
  · have hset : l.toFinset = TgSafe.occupied n s := by
      ext f
      rw [List.mem_toFinset, hr.occupied, mem_occupied]
    rw [hr.size, ← hset, List.toFinset_card_of_nodup hr.list.nodup]
  · refine ⟨l, fun m hm => ⟨?_, ?_⟩, hr.list.nodup, hr.occupied, hr.list.head, hr.list.tail, ?_⟩
    · rw [hr.list.follow_next, List.take_of_length_le hm]
    · rw [hr.list.follow_prev, List.take_of_length_le (by simpa using hm)]
    · have hp := List.pairwise_map.mp ((pairwise_recency _).sublist hr.order)
      exact hp.imp_of_mem fun {f g} hf hg hlt => by rwa [hr.time f hf, hr.time g hg]
  · exact hr.time f ((hr.occupied f).mpr ⟨hf, hf'⟩)

/-- **The representation is coherent** in every state of a run without the page -1. -/
theorem tg_coherent (s₀ : State) (n : ℕ) (hn : 1 ≤ n) (hn' : n ≤ maxFrames) (W : ℤ)
    (tr : List Page) (htr : (-1 : Page) ∉ tr) :
    ∃ s s' os, tgInit s₀ n W = some s ∧ run tgAccess s tr = some (s', os) ∧
      Coherent n tr s' := by
  obtain ⟨s, s', os, he, hrun, ⟨-, l, hr⟩, -⟩ := tg_run s₀ hn hn' W tr htr
  exact ⟨s, s', os, he, hrun, hr.coherent⟩

/-- The theorem at two frames and a trace with an eviction. -/
theorem tg_coherent_two :
    1 ≤ 2 ∧ 2 ≤ maxFrames ∧ (-1 : Page) ∉ [7, 9, 7, 11] ∧
      ∃ (s s' : State) (os : List Result), tgInit start 2 10 = some s ∧
        run tgAccess s [7, 9, 7, 11] = some (s', os) ∧ Coherent 2 [7, 9, 7, 11] s' :=
  ⟨by decide, by decide, by decide,
    tg_coherent start 2 (by decide) (by decide) 10 [7, 9, 7, 11] (by decide)⟩

end Tempograph.TgFrames
