import Tempograph.Isolation
import Tempograph.LfuExact
import Tempograph.Paging

/-!
The five policies are demand paging.

Whatever a policy does to choose its victims, an access hits exactly the pages that it holds,
brings its page in and no other, and never holds more pages than there are frames. What holds
of all demand paging then holds of each of them.
-/

namespace Tempograph.DemandPaging

open Common LinkedList Recency Runs Slots Sim CompulsoryMisses Renaming Paging

variable {M : Malloc} {algo : Algo} {n : ℕ} {W : ℤ} {σ σ' : Statics} {tr past : List Page}
  {page q : Page} {P P' : ℕ → Page} {r : Result}

/-- The pages in the slots that are not empty. -/
def slotPages (n : ℕ) (P : ℕ → Page) : List Page := ((List.range n).map P).filter (· ≠ -1)

/-- The pages that a policy holds. -/
def residents (algo : Algo) (σ : Statics) : List Page :=
  match algo with
  | .lru => (Lru.walk σ.lru).map σ.lru.page
  | .lfu => slotPages σ.lfu.cap.toNat fun i => (σ.lfu.slots i).page
  | .arc => ArcRuns.pages σ.arc .t1 ++ ArcRuns.pages σ.arc .t2
  | .tempograph => slotPages σ.tg.cap.toNat σ.tg.frames
  | .sieve => slotPages σ.sieve.n σ.sieve.pages

def isHit (r : Result) : Bool := r = .hit

/-- What a policy assumes of a trace: those with slots take the page -1 for an empty one,
TempoGraph takes pages with the same index for one, and LFU counts with an `int`. -/
def Suits (algo : Algo) (tr : List Page) : Prop :=
  match algo with
  | .lru | .arc => True
  | .lfu => (-1 : Page) ∉ tr ∧ tr.length ≤ maxTrace
  | .tempograph => (-1 : Page) ∉ tr ∧ Incongruent tr
  | .sieve => (-1 : Page) ∉ tr

lemma Suits.mono (h : Suits algo tr) (hp : past <+: tr) : Suits algo past := by
  have hsub := hp.subset
  cases algo with
  | lru => trivial
  | arc => trivial
  | lfu => exact ⟨fun hm => h.1 (hsub hm), hp.length_le.trans h.2⟩
  | tempograph =>
    exact ⟨fun hm => h.1 (hsub hm), fun p hp q hq => h.2 p (hsub hp) q (hsub hq)⟩
  | sieve => exact fun hm => h (hsub hm)

lemma ne_mark (h : (-1 : Page) ∉ past ++ [page]) : page ≠ -1 := by
  rintro rfl
  exact h (by simp)

/-! ### Slots -/

lemma mem_slotPages : q ∈ slotPages n P ↔ q ≠ -1 ∧ Held n P q := by
  simp only [slotPages, Held, List.mem_filter, List.mem_map, List.mem_range, decide_eq_true_iff]
  exact and_comm

lemma length_slotPages (n : ℕ) (P : ℕ → Page) : (slotPages n P).length ≤ n :=
  (List.length_filter_le _ _).trans (by simp)

/-- Without the mark in the trace every slot that can be is in use. -/
lemma length_of_filled (hf : Filled (-1) n past P) (hm : (-1 : Page) ∉ past) :
    (slotPages n P).length = min n past.toFinset.card := by
  have hused : (slotPages n P).length = (used (-1) n P).card := by
    rw [slotPages, List.filter_map, List.length_map]
    rfl
  rw [hused]
  rcases Nat.lt_or_ge n past.toFinset.card with hlt | hge
  · have hall : used (-1) n P = Finset.range n := by
      rw [used, Finset.filter_eq_self]
      intro i hi he
      rcases hf.mem i (Finset.mem_range.mp hi) with h | h
      · exact hm (he ▸ h)
      · omega
    rw [hall, Finset.card_range, Nat.min_eq_left hlt.le]
  · rw [hf.count hge, Nat.min_eq_right hge]

lemma slotPages_congr (h : ∀ i < n, P' i = P i) : slotPages n P' = slotPages n P := by
  rw [slotPages, slotPages]
  congr 1
  exact List.map_congr_left fun i hi => h i (List.mem_range.mp hi)

lemma nodup_slotPages (h : ∀ i < n, ∀ j < n, P i = P j → P i ≠ -1 → i = j) :
    (slotPages n P).Nodup := by
  unfold slotPages
  rw [List.filter_map]
  refine (List.nodup_range.filter _).map_on fun i hi j hj e => ?_
  simp only [List.mem_filter, List.mem_range, Function.comp_apply, decide_eq_true_iff] at hi hj
  exact h i hi.1 j hj.1 e hi.2

/-- A request to slots: a hit leaves the pages, a fault writes its page into one slot. -/
lemma served_slots (hpage : page ≠ -1) (hr : r = .hit ↔ Held n P page)
    (hhit : r = .hit → ∀ i < n, P' i = P i)
    (hfault : r = .fault → ∃ v < n, ∀ i < n, P' i = if i = v then page else P i) :
    Served n (slotPages n P).toFinset page (isHit r) (slotPages n P').toFinset := by
  cases r with
  | hit =>
    rw [slotPages_congr (hhit rfl)]
    exact .hit (List.mem_toFinset.mpr (mem_slotPages.mpr ⟨hpage, hr.mp rfl⟩))
  | fault =>
    obtain ⟨v, hv, hP⟩ := hfault rfl
    have hnot : ¬Held n P page := fun h => by cases hr.mpr h
    refine .fault (fun hm => ?_) ?_ (fun y hy => ?_)
      ((List.toFinset_card_le _).trans (length_slotPages n P'))
    · exact hnot (mem_slotPages.mp (List.mem_toFinset.mp hm)).2
    · exact List.mem_toFinset.mpr (mem_slotPages.mpr ⟨hpage, v, hv, by rw [hP v hv, if_pos rfl]⟩)
    · obtain ⟨hy, i, hi, rfl⟩ := mem_slotPages.mp (List.mem_toFinset.mp hy)
      rw [hP i hi] at hy ⊢
      rw [Finset.mem_insert, List.mem_toFinset, mem_slotPages]
      split_ifs at hy ⊢
      · exact Or.inl rfl
      · exact Or.inr ⟨hy, i, hi, rfl⟩

/-! ### One access -/

/-- What a run over `past` keeps. -/
def Good (algo : Algo) (n : ℕ) (past : List Page) (σ : Statics) : Prop :=
  match algo with
  | .lru => LruExact.Inv n past σ.lru
  | .lfu => LfuInv n past σ.lfu
  | .arc => ArcDirectory.Inv n past σ.arc
  | .tempograph => TgFrames.Inv n (past.map TempoGraph.pageIdx) σ.tg ∧
      (∀ f < n, σ.tg.frames f = -1 ∨ σ.tg.frames f ∈ past) ∧
      ((min n (past.map TempoGraph.pageIdx).toFinset.card : ℕ) : ℤ) ≤ σ.tg.size
  | .sieve => SieveInv n past σ.sieve

/-- What one access does to the pages. -/
def Serving (M : Malloc) (algo : Algo) (n : ℕ) (past : List Page) (σ : Statics) (page : Page) :
    Prop :=
  ∃ σ' r, accessAlgo M algo σ page = some (σ', r) ∧ Good algo n (past ++ [page]) σ' ∧
    Served n (residents algo σ).toFinset page (isHit r) (residents algo σ').toFinset

lemma lru_residents {c : ℕ} {l : List ℕ} (h : LruExact.Rep c σ.lru l) :
    residents .lru σ = l.map σ.lru.page := by
  rw [residents, Lru.walk, h.list.follow_all h.live]

lemma lru_serving (hn : 1 ≤ n) (h : Good .lru n past σ) (page : Page) :
    Serving M .lru n past σ page := by
  obtain ⟨l, hr, hl⟩ := h
  have hlen : l.length ≤ n := by
    rw [← List.length_map (f := σ.lru.page), hl]
    exact List.length_take_le _ _
  obtain ⟨s', l', he, hr', hl'⟩ := LruExact.access_spec M hn hr hlen page
  refine ⟨{ σ with lru := s' }, _, by rw [accessAlgo, he]; rfl, ⟨l', hr', ?_⟩, ?_⟩
  · rw [hl', hl, recency_snoc, ← take_touch]
  · have hserved := served_lruStep (x := page) hn (l := l.map σ.lru.page) (by simpa using hlen)
    have hres : residents .lru { σ with lru := s' } = l'.map s'.page := lru_residents hr'
    rw [lru_residents hr, hres, hl']
    unfold isHit
    split_ifs with hm <;> simpa [lruStep, hm] using hserved

lemma lfu_serving (hn : 1 ≤ n) (h : Good .lfu n past σ) (hs : Suits .lfu (past ++ [page])) :
    Serving M .lfu n past σ page := by
  have hpage := ne_mark hs.1
  have hlen : past.length < maxTrace := by simpa using hs.2
  have hcap : σ.lfu.cap.toNat = n := by rw [h.cap, Int.toNat_natCast]
  obtain ⟨s', r, ha, hi, hr⟩ := lfu_step hn hlen (fun _ => hpage) h
  refine ⟨{ σ with lfu := s' }, r, by rw [accessAlgo, ha]; rfl, hi, ?_⟩
  have hcap' : s'.cap.toNat = n := by rw [hi.cap, Int.toNat_natCast]
  simp only [residents, hcap, hcap']
  refine served_slots hpage hr (fun e i _ => ?_) (fun e => ?_)
  · rcases LfuSteps.access_cases ha with ⟨j, -, -, rfl⟩ | ⟨-, v, size, -, rfl, -⟩
    · exact LfuSteps.hitState_page _ _ _
    · cases e
  · rcases LfuSteps.access_cases ha with ⟨j, -, rfl, -⟩ | ⟨hf, v, size, hv, -, rfl⟩
    · cases e
    · obtain ⟨w, hw, hvic, -⟩ := victim_spec hn hlen h (LfuSteps.find_eq_none h.cap hf)
      rw [hv] at hvic
      obtain rfl : v = w := Option.some.inj (Prod.mk.inj hvic).1
      exact ⟨v, hw, fun i _ => LfuSteps.faultState_page _ _ _ _ _⟩

lemma sieve_serving (h : Good .sieve n past σ) (hs : Suits .sieve (past ++ [page])) :
    Serving M .sieve n past σ page := by
  have hpage := ne_mark hs
  have hsize := h.size
  have hh := h.hand
  obtain ⟨s', r, ha, hi, hr⟩ : ∃ s' r, Sieve.sieveAccess σ.sieve page = some (s', r) ∧
      SieveInv n (past ++ [page]) s' ∧ (r = .hit ↔ Held n σ.sieve.pages page) := by
    rcases Nat.lt_or_ge past.toFinset.card n with hlt | hge
    · exact sieve_fill h hlt hpage
    · exact sieve_full h hge page
  refine ⟨{ σ with sieve := s' }, r, by rw [accessAlgo, ha]; rfl, hi, ?_⟩
  have honce : SieveQueue.Once σ.sieve page := fun i j hi hj e e' =>
    (h.filled.inj i (by omega) j (by omega) (e.trans e'.symm)).resolve_right
      fun h => hpage (e.symm.trans h.1)
  obtain ⟨s'', ha', -, -, -, hcases⟩ := SieveQueue.access_sim (by omega) honce
  obtain ⟨rfl, -⟩ := Prod.mk.inj (Option.some.inj (ha.symm.trans ha'))
  rw [hsize] at hcases
  simp only [residents, hsize, hi.size]
  refine served_slots hpage hr (fun e i _ => ?_) (fun e => ?_)
  · rcases hcases with ⟨-, hp⟩ | ⟨hnone, -⟩
    · rw [hp]
    · obtain ⟨i, hi, hpi⟩ := hr.mp e
      exact absurd hpi (hnone i hi)
  · rcases hcases with ⟨hheld, -⟩ | ⟨-, v, hv, hp⟩
    · rw [hr.mpr hheld] at e
      cases e
    · exact ⟨v, hv, fun i _ => by rw [hp, Function.update_apply]⟩

section Arc

open ArcLists

variable {c : ℕ} {a : Cache Page}

lemma replace_subset (a : Cache Page) (in_b2 : Bool) :
    (a.replace in_b2).t1 ⊆ a.t1 ∧ (a.replace in_b2).t2 ⊆ a.t2 := by
  unfold Cache.replace
  split_ifs
  · exact ⟨List.dropLast_subset _, List.Subset.refl _⟩
  · exact ⟨List.Subset.refl _, List.dropLast_subset _⟩

lemma makeRoom_subset (c : ℕ) (a : Cache Page) :
    (a.makeRoom c).t1 ⊆ a.t1 ∧ (a.makeRoom c).t2 ⊆ a.t2 := by
  unfold Cache.makeRoom
  split_ifs
  · exact replace_subset _ _
  · exact ⟨List.dropLast_subset _, List.Subset.refl _⟩
  · exact replace_subset _ _
  · exact replace_subset _ _
  · exact ⟨List.Subset.refl _, List.Subset.refl _⟩

/-- The residents of adaptive replacement. -/
def held (a : Cache Page) : Finset Page := (a.t1 ++ a.t2).toFinset

lemma mem_held : q ∈ held a ↔ q ∈ a.t1 ∨ q ∈ a.t2 := by simp [held]

/-- A fault evicts, and puts its page at a front. -/
lemma held_fault (h : (a.access c page).2 = false) :
    ∀ y ∈ held (a.access c page).1, y = page ∨ y ∈ held a := by
  have hfrom (b : Cache Page) (h1 : b.t1 ⊆ a.t1) (h2 : b.t2 ⊆ a.t2) (y : Page) :
      y = page ∨ y ∈ b.t1 ∨ y ∈ b.t2 → y = page ∨ y ∈ held a := by
    rw [mem_held]
    exact Or.imp_right (Or.imp (@h1 y) (@h2 y))
  intro y hy
  rw [mem_held] at hy
  unfold Cache.access at h hy
  split_ifs at h hy with h1 h2 h3 h4
  · obtain ⟨s1, s2⟩ := replace_subset (a.raise c) false
    exact hfrom _ s1 s2 y (by simp only [List.mem_cons] at hy; tauto)
  · obtain ⟨s1, s2⟩ := replace_subset a.lower true
    exact hfrom _ s1 s2 y (by simp only [List.mem_cons] at hy; tauto)
  · obtain ⟨s1, s2⟩ := makeRoom_subset c a
    exact hfrom _ s1 s2 y (by simp only [List.mem_cons] at hy; tauto)

lemma held_hit (hnd : a.dir.Nodup) (h : page ∈ a.t1 ∨ page ∈ a.t2) :
    held (a.access c page).1 = held a := by
  have h12 : (a.t1 ++ a.t2).Nodup := by
    refine hnd.sublist ?_
    exact List.Sublist.append (List.sublist_append_left _ _) (List.sublist_append_left _ _)
  rw [List.nodup_append] at h12
  obtain ⟨hn1, hn2, -⟩ := h12
  ext y
  rw [mem_held, mem_held]
  unfold Cache.access
  split_ifs with h1 h2
  · by_cases hy : y = page
    · simp [hy, h1]
    · simp [hy, List.mem_erase_of_ne hy]
  · by_cases hy : y = page
    · simp [hy, h2]
    · simp [hy, List.mem_erase_of_ne hy]
  all_goals exact absurd h (by tauto)

lemma served_access (hc : 1 ≤ c) (hs : Sizes c a) (hnd : a.dir.Nodup) (page : Page) :
    Served c (held a) page (a.access c page).2 (held (a.access c page).1) := by
  have hiff := access_hit_iff (a := a) (c := c) (x := page)
  cases h : (a.access c page).2 with
  | true =>
    have hm := hiff.mp h
    rw [held_hit hnd hm]
    exact .hit (mem_held.mpr hm)
  | false =>
    have hm : page ∉ held a := by
      rw [mem_held, ← hiff, h]
      exact Bool.false_ne_true
    have hres := (hs.access hc page).1.resident
    refine .fault hm ?_ (fun y hy => ?_) ?_
    · rw [mem_held]
      exact (access_head c a page).imp List.mem_of_mem_head? List.mem_of_mem_head?
    · rw [Finset.mem_insert]
      exact held_fault h y hy
    · refine (List.toFinset_card_le _).trans ?_
      rw [List.length_append]
      omega

/-- The cache of adaptive replacement is full once as many pages were met as it holds. -/
lemma arc_length (hs : Sizes c a) (hf : Follows c (recency past) a) :
    (a.t1 ++ a.t2).length = min c past.toFinset.card := by
  have hres := hs.resident
  have hdir := dir_length a
  have hcover : (past.toFinset.card ⊓ c) ≤ a.dir.length := by
    have hsub : (recency past).take c ⊆ a.dir := hf.covers
    have hnd := (nodup_recency past).sublist (List.take_sublist c _)
    have := (List.subperm_of_subset hnd hsub).length_le
    rwa [List.length_take, length_recency, min_comm] at this
  have hle : a.dir.length ≤ past.toFinset.card := by
    rw [← List.toFinset_card_of_nodup hf.nodup]
    refine Finset.card_le_card fun q hq => ?_
    rw [List.mem_toFinset, dir_eq, List.mem_append] at hq
    rw [List.mem_toFinset, ← mem_recency]
    exact hq.elim (fun hm => hf.recent.subset hm) fun hm => hf.frequent.subset hm
  rw [List.length_append]
  rcases Nat.lt_or_ge (a.t1.length + a.t2.length) c with hlt | hge
  · obtain ⟨h1, h2⟩ := hs.ghosts hlt
    rw [h1, h2] at hdir
    simp only [List.length_nil] at hdir
    omega
  · omega

lemma arc_residents {nd : Arc.ListId → List ℕ} (h : ArcRefine.Rep n σ.arc nd) :
    residents .arc σ = (ArcRefine.abs σ.arc nd).t1 ++ (ArcRefine.abs σ.arc nd).t2 := by
  rw [residents, ArcRuns.pages_eq h, ArcRuns.pages_eq h]
  rfl

lemma arc_serving (hn : 1 ≤ n) (h : Good .arc n past σ) (page : Page) :
    Serving M .arc n past σ page := by
  obtain ⟨nd, hr, hs, hf⟩ := id h
  obtain ⟨s', nd', he, hr', ha⟩ := ArcRefine.access_spec M hn hr hs page
  obtain ⟨s'', r, he', hi, -⟩ := ArcDirectory.inv_step M hn h page
  obtain ⟨rfl, rfl⟩ := Prod.mk.inj (Option.some.inj (he.symm.trans he'))
  refine ⟨{ σ with arc := s' }, _, by rw [accessAlgo, he]; rfl, hi, ?_⟩
  have hserved := served_access hn hs hf.nodup page
  have hres : residents .arc { σ with arc := s' } =
      (ArcRefine.abs s' nd').t1 ++ (ArcRefine.abs s' nd').t2 := arc_residents hr'
  rw [arc_residents hr, hres, ha]
  cases hb : ((ArcRefine.abs σ.arc nd).access n page).2 <;> simpa [hb, held, isHit] using hserved

end Arc

section TempoGraph

open TempoGraph TgSafe TgFrames

lemma tg_held_iff {s : TempoGraph.State} {l : List ℕ} {h : List ℕ} (hr : Rep n h s l)
    (hf : ∀ f < n, s.frames f = -1 ∨ s.frames f ∈ past) (hs : Suits .tempograph (past ++ [page])) :
    s.inFrames (pageIdx page) = true ↔ Held n s.frames page := by
  constructor
  · intro hin
    obtain ⟨f, hfl, e⟩ := hr.table _ hin
    obtain ⟨hfn, hne⟩ := (hr.occupied f).mp hfl
    have hm := (hf f hfn).resolve_left hne
    exact ⟨f, hfn, hs.2 _ (by simp [hm]) _ (by simp) e⟩
  · rintro ⟨f, hfn, rfl⟩
    exact (hr.found f ((hr.occupied f).mpr ⟨hfn, ne_mark hs.1⟩)).1

/-- What an access does to the frames. -/
lemma tg_frames {s s' : TempoGraph.State} (hn : 1 ≤ n) (hsafe : Safe n s)
    (ha : tgAccess s page = some (s', r)) :
    (r = .hit → s'.frames = s.frames ∧ s'.size = s.size) ∧
      (r = .fault → ∃ v < n, s'.frames = Function.update s.frames v page ∧
        s'.size = if s.size < n then s.size + 1 else s.size) := by
  rw [access_eq] at ha
  split_ifs at ha
  · obtain ⟨f, -, e⟩ := Option.map_eq_some_iff.mp ha
    cases e
    exact ⟨fun _ => ⟨rfl, rfl⟩, fun e => by cases e⟩
  · obtain ⟨v, hv, he, -, -⟩ := chooseVictim_spec hn (hsafe.prepare (pageIdx page))
    rw [he] at ha
    cases ha
    exact ⟨fun e => (by cases e), fun _ => ⟨v, hv, rfl, by simp only [faultState, hsafe.cap]⟩⟩

lemma tg_serving (hn : 1 ≤ n) (h : Good .tempograph n past σ)
    (hs : Suits .tempograph (past ++ [page])) : Serving M .tempograph n past σ page := by
  obtain ⟨hi, hf, hsize⟩ := h
  have hpage := ne_mark hs.1
  obtain ⟨s', r, ha, hi', hhit⟩ := TgFrames.inv_step hn hi hpage
  obtain ⟨hsafe, l, hr⟩ := id hi
  obtain ⟨h1, h2⟩ := tg_frames hn hsafe ha
  have hheld := hhit.trans (tg_held_iff hr hf hs)
  have hcap : σ.tg.cap.toNat = n := by rw [hr.cap, Int.toNat_natCast]
  have hcap' : s'.cap.toNat = n := by rw [hi'.1.cap, Int.toNat_natCast]
  refine ⟨{ σ with tg := s' }, r, by rw [accessAlgo, ha]; rfl, ⟨by simpa using hi', ?_, ?_⟩, ?_⟩
  · intro f hfn
    cases r with
    | hit =>
      simp only [(h1 rfl).1, List.mem_append]
      exact (hf f hfn).imp_right Or.inl
    | fault =>
      obtain ⟨v, -, he, -⟩ := h2 rfl
      simp only [he, Function.update_apply]
      split_ifs
      · exact Or.inr (by simp)
      · exact (hf f hfn).imp_right (List.mem_append_left _)
  · rw [List.map_append, List.map_singleton, card_snoc]
    cases r with
    | hit =>
      obtain ⟨f, hfn, e⟩ := hheld.mp rfl
      have hm : pageIdx page ∈ past.map pageIdx := by
        rw [← e]
        exact List.mem_map_of_mem ((hf f hfn).resolve_left (e ▸ hpage))
      rw [if_pos hm, (h1 rfl).2]
      exact hsize
    | fault =>
      obtain ⟨v, -, -, he⟩ := h2 rfl
      rw [he]
      split_ifs <;> omega
  · simp only [residents, hcap, hcap']
    refine served_slots hpage hheld (fun e i _ => by rw [(h1 e).1]) fun e => ?_
    obtain ⟨v, hv, he, -⟩ := h2 e
    exact ⟨v, hv, fun i _ => by rw [he, Function.update_apply]⟩

/-- As many frames are in use as can be. -/
lemma tg_length {s : TempoGraph.State} {h l : List ℕ} (hr : Rep n h s l)
    (hf : ∀ f < n, s.frames f = -1 ∨ s.frames f ∈ past) (hinc : Incongruent past)
    (hsize : ((min n (past.map pageIdx).toFinset.card : ℕ) : ℤ) ≤ s.size) :
    (slotPages n s.frames).length = min n past.toFinset.card := by
  have hused : (slotPages n s.frames).length = l.length := by
    rw [slotPages, List.filter_map, List.length_map]
    have hnd := (List.nodup_range (n := n)).filter ((fun q => decide (q ≠ -1)) ∘ s.frames)
    refine (List.Perm.length_eq ((List.perm_ext_iff_of_nodup hnd hr.list.nodup).mpr fun f => ?_))
    rw [hr.occupied, List.mem_filter, List.mem_range, Function.comp_apply, decide_eq_true_iff]
  have hindices : (past.map pageIdx).toFinset.card = past.toFinset.card := by
    have himage : (past.map pageIdx).toFinset = past.toFinset.image pageIdx := by ext; simp
    rw [himage]
    exact Finset.card_image_of_injOn fun p hp q hq e =>
      hinc p (List.mem_toFinset.mp hp) q (List.mem_toFinset.mp hq) e
  have hle : l.length ≤ past.toFinset.card := by
    have hnd : (l.map s.frames).Nodup := hr.list.nodup.map_on fun a ha b hb e =>
      hr.held_inj ha hb (congrArg pageIdx e)
    rw [← List.length_map (f := s.frames), ← List.toFinset_card_of_nodup hnd]
    refine Finset.card_le_card fun q hq => ?_
    obtain ⟨f, hfl, rfl⟩ := List.mem_map.mp (List.mem_toFinset.mp hq)
    obtain ⟨hfn, hne⟩ := (hr.occupied f).mp hfl
    exact List.mem_toFinset.mpr ((hf f hfn).resolve_left hne)
  have hn := hr.length_le
  have hlen := hr.size
  rw [hindices] at hsize
  rw [hused]
  omega

end TempoGraph

/-- **One access is one request.** -/
theorem serving (hn : 1 ≤ n) (h : Good algo n past σ) (hs : Suits algo (past ++ [page])) :
    Serving M algo n past σ page := by
  cases algo with
  | lru => exact lru_serving hn h page
  | lfu => exact lfu_serving hn h hs
  | arc => exact arc_serving hn h page
  | tempograph => exact tg_serving hn h hs
  | sieve => exact sieve_serving h hs

/-! ### Whole runs -/

/-- Initialised, a policy holds no page. -/
lemma good_init (σ : Statics) (algo : Algo) (hn : 1 ≤ n) (hn' : n ≤ maxFrames) (W : ℤ) :
    ∃ σ', initAlgo σ algo n W = some σ' ∧ Good algo n [] σ' ∧ residents algo σ' = [] := by
  cases algo with
  | lru =>
    refine ⟨_, rfl, LruExact.inv_init σ.lru n, ?_⟩
    have hr : LruExact.Rep n ({ σ with lru := Lru.lruInit σ.lru n } : Statics).lru [] :=
      LruExact.rep_init σ.lru n
    exact lru_residents hr
  | lfu =>
    obtain ⟨s, he, hs⟩ := lfu_init σ.lfu hn hn'
    refine ⟨{ σ with lfu := s }, by rw [initAlgo, he]; rfl, hs, ?_⟩
    rw [residents, List.eq_nil_iff_forall_not_mem]
    intro q hq
    obtain ⟨hq, i, hi, rfl⟩ := mem_slotPages.mp hq
    rw [hs.cap, Int.toNat_natCast] at hi
    exact hq ((hs.filled.mem i hi).resolve_left List.not_mem_nil).1
  | arc =>
    refine ⟨_, rfl, ArcDirectory.inv_init σ.arc n, ?_⟩
    have hr : ArcRefine.Rep n ({ σ with arc := Arc.arcInit σ.arc n } : Statics).arc fun _ => [] :=
      ArcRefine.rep_init σ.arc n
    exact arc_residents hr
  | tempograph =>
    obtain ⟨s, he, hs, hr⟩ := TgFrames.rep_init σ.tg hn' W
    have hempty : ∀ f < n, s.frames f = -1 := fun f hf => by
      by_contra hne
      exact List.not_mem_nil ((hr.occupied f).mpr ⟨hf, hne⟩)
    refine ⟨{ σ with tg := s }, by rw [initAlgo, he]; rfl, ⟨⟨hs, [], hr⟩, fun f hf =>
      Or.inl (hempty f hf), by simpa using hs.size_nonneg⟩, ?_⟩
    rw [residents, List.eq_nil_iff_forall_not_mem]
    intro q hq
    obtain ⟨hq, i, hi, rfl⟩ := mem_slotPages.mp hq
    rw [hr.cap, Int.toNat_natCast] at hi
    exact hq (hempty i hi)
  | sieve =>
    obtain ⟨s, he, hs⟩ := sieve_init σ.sieve hn hn'
    refine ⟨{ σ with sieve := s }, by rw [initAlgo, he]; rfl, hs, ?_⟩
    rw [residents, List.eq_nil_iff_forall_not_mem]
    intro q hq
    obtain ⟨hq, i, hi, rfl⟩ := mem_slotPages.mp hq
    rw [hs.size] at hi
    exact hq ((hs.filled.mem i hi).resolve_left List.not_mem_nil).1

/-- No page is held twice, and as many are held as can be. -/
lemma good_residents (h : Good algo n past σ) (hs : Suits algo past) :
    (residents algo σ).Nodup ∧ (residents algo σ).length = min n past.toFinset.card := by
  cases algo with
  | lru =>
    obtain ⟨l, hr, hl⟩ := h
    rw [lru_residents hr, hl, List.length_take, length_recency]
    exact ⟨(nodup_recency past).sublist (List.take_sublist _ _), rfl⟩
  | lfu =>
    have hcap : σ.lfu.cap.toNat = n := by rw [h.cap, Int.toNat_natCast]
    rw [residents, hcap]
    refine ⟨nodup_slotPages fun i hi j hj e hne => ?_, length_of_filled h.filled hs.1⟩
    exact (h.filled.inj i hi j hj e).resolve_right fun h => hne h.1
  | arc =>
    obtain ⟨nd, hr, hsz, hf⟩ := h
    rw [arc_residents hr]
    refine ⟨hf.nodup.sublist ?_, arc_length hsz hf⟩
    exact List.Sublist.append (List.sublist_append_left _ _) (List.sublist_append_left _ _)
  | tempograph =>
    obtain ⟨⟨-, l, hr⟩, hf, hsize⟩ := h
    have hcap : σ.tg.cap.toNat = n := by rw [hr.cap, Int.toNat_natCast]
    rw [residents, hcap]
    refine ⟨nodup_slotPages fun i hi j hj e hne => ?_, ?_⟩
    · exact hr.held_inj ((hr.occupied i).mpr ⟨hi, hne⟩) ((hr.occupied j).mpr ⟨hj, e ▸ hne⟩)
        (congrArg TempoGraph.pageIdx e)
    · exact tg_length hr hf hs.2 hsize
  | sieve =>
    rw [residents, h.size]
    refine ⟨nodup_slotPages fun i hi j hj e hne => ?_, length_of_filled h.filled hs⟩
    exact (h.filled.inj i hi j hj e).resolve_right fun h => hne h.1

/-- **A run of accesses is a run of requests.** -/
lemma good_run (h : Good algo n [] σ) (hn : 1 ≤ n) (hs : Suits algo tr) :
    ∃ σ' os, run (accessAlgo M algo) σ tr = some (σ', os) ∧ Good algo n tr σ' ∧
      Serves n (residents algo σ).toFinset tr (os.map isHit) (residents algo σ').toFinset := by
  obtain ⟨σ', -, -, os, hrun, hg, hserves⟩ := @run_inv _ _ _ (accessAlgo M algo)
    (fun past σ' => ∃ os, run (accessAlgo M algo) σ past = some (σ', os) ∧
      Good algo n past σ' ∧ Serves n (residents algo σ).toFinset past (os.map isHit)
        (residents algo σ').toFinset) σ tr ⟨[], rfl, h, .nil _⟩ fun past page σ₁ hp hi => by
      obtain ⟨os, hrun, hg, hserves⟩ := hi
      obtain ⟨σ₂, r, ha, hg', hserved⟩ := serving (M := M) hn hg (hs.mono hp)
      refine ⟨σ₂, r, ha, os ++ [r], run_snoc hrun ha, hg', ?_⟩
      rw [List.map_append]
      exact hserves.snoc hserved
  exact ⟨σ', os, hrun, hg, hserves⟩

/-- Accesses to pages that are held are hits, and nothing else is brought in. -/
lemma run_hits (hn : 1 ≤ n) (hg : Good algo n past σ) (hs : Suits algo (past ++ tr))
    (hsub : ∀ p ∈ tr, p ∈ residents algo σ) :
    ∃ σ', run (accessAlgo M algo) σ tr = some (σ', List.replicate tr.length .hit) := by
  induction tr generalizing past σ with
  | nil => exact ⟨σ, rfl⟩
  | cons page tr ih =>
    have hpre : past ++ [page] <+: past ++ page :: tr := ⟨tr, by simp⟩
    obtain ⟨σ₁, r, ha, hg₁, hserved⟩ := serving (M := M) hn hg (hs.mono hpre)
    have hheld := List.mem_toFinset.mpr (hsub page List.mem_cons_self)
    have hr : isHit r = true := hserved.hit_iff.mpr hheld
    obtain rfl : r = .hit := by simpa [isHit] using hr
    have hsame : (residents algo σ₁).toFinset = (residents algo σ).toFinset := hserved.eq_of_hit
    obtain ⟨σ', hrun⟩ := ih hg₁ (by simpa using hs) fun p hp => by
      rw [← List.mem_toFinset, hsame]
      exact List.mem_toFinset.mpr (hsub p (List.mem_cons_of_mem _ hp))
    exact ⟨σ', run_cons ha hrun⟩

/-- If all pages fit, the faults are as many as there are pages. -/
lemma count_faults_of_fits (M : Malloc) (σ : Statics) (algo : Algo) (hn : 1 ≤ n)
    (hn' : n ≤ maxFrames) (W : ℤ) (hs : Suits algo tr) (hcard : tr.toFinset.card ≤ n) :
    ∃ os, answers M σ algo n W tr = some os ∧ os.count .fault = tr.toFinset.card := by
  obtain ⟨σ₀, hinit, hg, hempty⟩ := good_init σ algo hn hn' W
  obtain ⟨σ', -, -, os, hrun, -, -, hcount⟩ := @run_inv _ _ _ (accessAlgo M algo)
    (fun past σ' => ∃ os, run (accessAlgo M algo) σ₀ past = some (σ', os) ∧ Good algo n past σ' ∧
      (residents algo σ').toFinset = past.toFinset ∧ os.count .fault = past.toFinset.card) σ₀ tr
    ⟨[], rfl, hg, by rw [hempty], rfl⟩ fun past page σ₁ hp hi => by
      obtain ⟨os, hrun, hg₁, hres, hcount⟩ := hi
      obtain ⟨σ₂, r, ha, hg₂, hserved⟩ := serving (M := M) hn hg₁ (hs.mono hp)
      obtain ⟨hnd, hlen⟩ := good_residents hg₂ (hs.mono hp)
      have hset : (past ++ [page]).toFinset = insert page past.toFinset := by ext; simp
      have hle : (past ++ [page]).toFinset.card ≤ n :=
        (Finset.card_le_card fun q hq => List.mem_toFinset.mpr
          (hp.subset (List.mem_toFinset.mp hq))).trans hcard
      -- nothing else is held, and nothing is missing
      have hsub : (residents algo σ₂).toFinset ⊆ (past ++ [page]).toFinset := by
        rw [hset, ← hres]
        exact hserved.subset
      have hall : (residents algo σ₂).toFinset = (past ++ [page]).toFinset := by
        refine Finset.eq_of_subset_of_card_le hsub ?_
        rw [List.toFinset_card_of_nodup hnd, hlen, Nat.min_eq_right hle]
      refine ⟨σ₂, r, ha, os ++ [r], run_snoc hrun ha, hg₂, hall, ?_⟩
      have hhit := hserved.hit_iff
      rw [hres, List.mem_toFinset] at hhit
      rw [List.count_append, hcount, card_snoc]
      cases r with
      | hit => rw [if_pos (hhit.mp rfl)]; rfl
      | fault => rw [if_neg fun hm => Bool.false_ne_true (hhit.mpr hm)]; rfl
  refine ⟨os, ?_, hcount⟩
  rw [answers, replay, hinit]
  exact congrArg _ hrun

lemma good_replay (M : Malloc) (σ : Statics) (algo : Algo) (hn : 1 ≤ n) (hn' : n ≤ maxFrames)
    (W : ℤ) (hs : Suits algo tr) :
    ∃ σ' os, replay M σ algo n W tr = some (σ', os) ∧ Good algo n tr σ' ∧
      Serves n ∅ tr (os.map isHit) (residents algo σ').toFinset := by
  obtain ⟨σ₀, hinit, hg, hempty⟩ := good_init σ algo hn hn' W
  obtain ⟨σ', os, hrun, hg', hserves⟩ := good_run (M := M) hg hn hs
  rw [hempty] at hserves
  exact ⟨σ', os, by rw [replay, hinit]; exact hrun, hg', hserves⟩

/-- `lru.c` has the hits of the `n` most recently used pages. -/
lemma lru_answers (M : Malloc) (σ : Statics) (hn : 1 ≤ n) (W : ℤ) (tr : List Page) :
    ∃ os, answers M σ .lru n W tr = some os ∧ os.map isHit = lruHits n tr := by
  obtain ⟨s, -, -, os, hrun, -, hos⟩ := @run_inv _ _ _ (Lru.lruAccess M)
    (fun past s => ∃ os, run (Lru.lruAccess M) (Lru.lruInit σ.lru n) past = some (s, os) ∧
      LruExact.Inv n past s ∧ os.map isHit = lruHits n past) (Lru.lruInit σ.lru n) tr
    ⟨[], rfl, LruExact.inv_init σ.lru n, rfl⟩ fun past page s _ hi => by
      obtain ⟨os, hrun, hinv, hos⟩ := hi
      obtain ⟨s', r, ha, hinv', hr⟩ := LruExact.inv_step M hn hinv page
      refine ⟨s', r, ha, os ++ [r], run_snoc hrun ha, hinv', ?_⟩
      have hlast : isHit r = decide (page ∈ (recency past).take n) := by
        rw [Bool.eq_iff_iff, isHit, decide_eq_true_iff, decide_eq_true_iff, hr]
      rw [List.map_append, hos, lruHits_snoc, List.map_singleton, hlast]
  exact ⟨os, by rw [answers_lru, outputs_eq hrun], hos⟩

/-- `arc.c` has the hits of adaptive replacement. -/
lemma arc_answers (M : Malloc) (σ : Statics) (hn : 1 ≤ n) (W : ℤ) (tr : List Page) :
    ∃ os, answers M σ .arc n W tr = some os ∧
      os.map isHit = results (ArcLists.Cache.access n) ArcLists.Cache.empty tr := by
  obtain ⟨s, nd, hrun, -⟩ := ArcRuns.run_after M σ.arc hn tr
  refine ⟨_, by rw [answers_arc, outputs_eq hrun], ?_⟩
  rw [List.map_map]
  refine (List.map_congr_left fun hit _ => ?_).trans (List.map_id _)
  cases hit <;> rfl

/-- **All five policies are demand paging.** At every access of every trace that suits the
policy it holds each page once and at most as many as there are frames; the access is a hit
exactly if its page is held, and then the pages held stay; a fault brings its page in, and
no other. -/
theorem demand_paging (M : Malloc) (σ : Statics) (algo : Algo) (n : ℕ) (hn : 1 ≤ n)
    (hn' : n ≤ maxFrames) (W : ℤ) (tr : List Page) (hs : Suits algo tr) :
    (∃ σ₀, replay M σ algo n W [] = some (σ₀, []) ∧ residents algo σ₀ = []) ∧
    ∀ past page, past ++ [page] <+: tr → ∃ σ₁ os σ₂ r,
      replay M σ algo n W past = some (σ₁, os) ∧
      replay M σ algo n W (past ++ [page]) = some (σ₂, os ++ [r]) ∧
      (residents algo σ₁).Nodup ∧ (residents algo σ₁).length = min n past.toFinset.card ∧
      Served n (residents algo σ₁).toFinset page (isHit r) (residents algo σ₂).toFinset := by
  obtain ⟨σ₀, hinit, hg, hempty⟩ := good_init σ algo hn hn' W
  refine ⟨⟨σ₀, by rw [replay, hinit]; rfl, hempty⟩, fun past page hp => ?_⟩
  obtain ⟨σ₁, os, hrun, hg₁, -⟩ :=
    good_run (M := M) hg hn (hs.mono ((List.prefix_append _ _).trans hp))
  obtain ⟨σ₂, r, ha, -, hserved⟩ := serving (M := M) hn hg₁ (hs.mono hp)
  obtain ⟨hnd, hlen⟩ := good_residents hg₁ (hs.mono ((List.prefix_append _ _).trans hp))
  refine ⟨σ₁, os, σ₂, r, ?_, ?_, hnd, hlen, hserved⟩
  · rw [replay, hinit]
    exact hrun
  · rw [replay, hinit]
    exact run_snoc hrun ha

/-- The theorem at two frames and a trace with an eviction. -/
theorem demand_paging_two : 1 ≤ 2 ∧ 2 ≤ maxFrames ∧ Suits .tempograph [7, 9, 11] ∧
    ∃ σ₁ os σ₂ r, replay Malloc.above start .tempograph 2 10 [7, 9] = some (σ₁, os) ∧
      replay Malloc.above start .tempograph 2 10 [7, 9, 11] = some (σ₂, os ++ [r]) ∧
      (residents .tempograph σ₁).length = 2 := by
  have hs : Suits .tempograph [7, 9, 11] := by
    refine ⟨by decide, ?_⟩
    simp only [Incongruent, List.mem_cons, List.not_mem_nil, or_false, forall_eq_or_imp, forall_eq]
    decide
  obtain ⟨σ₁, os, σ₂, r, h1, h2, -, hlen, -⟩ := (demand_paging Malloc.above start .tempograph 2
    (by decide) (by decide) 10 [7, 9, 11] hs).2 [7, 9] 11 (List.prefix_refl _)
  exact ⟨by decide, by decide, hs, σ₁, os, σ₂, r, h1, h2, hlen⟩

end Tempograph.DemandPaging
