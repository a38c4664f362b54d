import Tempograph.Competitive
import Tempograph.CyclicScan
import Tempograph.TgVictim
import Tempograph.TgWeights

/-!
What TempoGraph keeps of a scan.

A scan asks for no index twice. On a cold graph the only edges are then the ones inside the
window, so a frame scores only while its index is still in the window. Of the frames without
a score the search takes the one used last: the pages loaded first are never evicted, and
when the scan comes round again they are hits. The other policies evict them first.
-/

namespace Tempograph.TgScan

open Common Tempograph.Graph LinkedList SlidingWindow Recency Runs TempoGraph TgSafe TgFrames
  TgVictim TgWeights

variable {α : Type*} {n k f v x W : ℕ} {s : State} {l h : List ℕ} {page : Page}

section Scan

/-- What is left of a scan: the first `k` items, and the last ones. -/
def survivors (n k : ℕ) (h : List α) : List α := h.take k ++ h.drop (k + (h.length - n))

/-- The pages of a scan that are not evicted again. -/
def spared (n W : ℕ) : ℕ := min (sampleSize - 1) (n - W)

lemma survivors_short {h : List α} (hlen : h.length ≤ n) : survivors n k h = h := by
  rw [survivors, Nat.sub_eq_zero_of_le hlen, Nat.add_zero, List.take_append_drop]

/-- The next item of a scan takes the place of the one after the first `k`. -/
lemma survivors_snoc {h : List α} (x : α) (hk : k < n) (hlen : n ≤ h.length) :
    survivors n k h = h.take k ++ h[k + (h.length - n)] :: h.drop (k + (h.length - n) + 1) ∧
      survivors n k (h ++ [x]) = h.take k ++ h.drop (k + (h.length - n) + 1) ++ [x] := by
  constructor
  · rw [survivors, List.drop_eq_getElem_cons]
  · have hsub : h.length + 1 - n = h.length - n + 1 := by omega
    rw [survivors, List.length_append, List.length_singleton, hsub, ← Nat.add_assoc,
      List.take_append_of_le_length (by omega), List.drop_append_of_le_length (by omega),
      List.append_assoc]

lemma survivors_getElem? {h : List α} (hk : k < n) (hlen : n ≤ h.length) (p : ℕ) :
    (survivors n k h)[p]? = if p < k then h[p]? else h[p + (h.length - n)]? := by
  rw [survivors, List.getElem?_append, List.length_take, Nat.min_eq_left (by omega),
    List.getElem?_take, List.getElem?_drop]
  split_ifs
  · rfl
  · congr 1
    omega

lemma length_survivors {h : List α} (hk : k < n) (hlen : n ≤ h.length) :
    (survivors n k h).length = n := by
  rw [survivors, List.length_append, List.length_take, List.length_drop]
  omega

lemma mem_of_survives {h : List α} {x : α} (hx : x ∈ survivors n k h) : x ∈ h := by
  rcases List.mem_append.mp hx with hx | hx
  · exact List.mem_of_mem_take hx
  · exact List.mem_of_mem_drop hx

lemma survivors_map {β : Type*} (g : α → β) (h : List α) :
    survivors n k (h.map g) = (survivors n k h).map g := by
  simp only [survivors, List.map_append, List.map_take, List.map_drop, List.length_map]

/-! ### Times in a scan -/

/-- In a scan item `i` is asked for at time `i + 1`. -/
lemma lastAccess_getElem (hnd : h.Nodup) {i : ℕ} (hi : i < h.length) :
    lastAccess h h[i] = i + 1 := by
  induction h using List.reverseRecOn with
  | nil => cases hi
  | append_singleton h x ih =>
    obtain ⟨hnd', -, hx⟩ := List.nodup_append.mp hnd
    rcases Nat.lt_or_ge i h.length with hlt | hge
    · have hne : h[i] ≠ x := hx _ (List.getElem_mem _) x (by simp)
      rw [List.getElem_append_left hlt, lastAccess_snoc, if_neg hne, ih hnd' hlt]
    · obtain rfl : i = h.length := by
        rw [List.length_append, List.length_singleton] at hi
        omega
      simp

lemma lastAccess_eq_zero (hv : v ∉ h) : lastAccess h v = 0 := by
  rw [lastAccess, List.idxOf_of_notMem (by simpa using hv), List.length_reverse, Nat.sub_self]

lemma lastAccess_pos (hv : v ∈ h) : 0 < lastAccess h v := by
  have := List.idxOf_lt_length_of_mem (List.mem_reverse.mpr hv)
  rw [List.length_reverse] at this
  rw [lastAccess]
  omega

/-- The window holds what was asked for less than `W` accesses ago. -/
lemma mem_window : v ∈ h.reverse.take W ↔ v ∈ h ∧ h.length < lastAccess h v + W := by
  have hle : h.reverse.idxOf v ≤ h.length := by
    rw [← List.length_reverse]
    exact List.idxOf_le_length
  constructor
  · intro hm
    have hv := List.mem_reverse.mp (List.mem_of_mem_take hm)
    have := (List.mem_take_iff_idxOf_lt (List.mem_reverse.mpr hv)).mp hm
    refine ⟨hv, ?_⟩
    rw [lastAccess]
    omega
  · rintro ⟨hv, hlt⟩
    rw [lastAccess] at hlt
    exact (List.mem_take_iff_idxOf_lt (List.mem_reverse.mpr hv)).mpr (by omega)

/-! ### The graph of a scan -/

/-- **The weights after a scan.** There is an edge to each item from those that were in the
window with it, of weight one. -/
theorem reference_scan (hnd : h.Nodup) (u v : ℕ) :
    reference W h u v = if 0 < lastAccess h u ∧ lastAccess h u < lastAccess h v ∧
      lastAccess h v ≤ lastAccess h u + W then 1 else 0 := by
  induction h using List.reverseRecOn generalizing u v with
  | nil => simp [reference]
  | append_singleton h x ih =>
    obtain ⟨hnd', -, hx⟩ := List.nodup_append.mp hnd
    have hx : x ∉ h := fun hm => hx x hm x (by simp) rfl
    have ih := ih hnd'
    -- a weight of one does not decay
    have hdecay : (if (h.length + 1) % 2000 = 0 then fun a b => reference W h a b -
        reference W h a b / 64 else reference W h) = reference W h := by
      split_ifs
      · funext a b
        rw [ih]
        split_ifs <;> rfl
      · rfl
    have hzero := lastAccess_eq_zero hx
    have hu := lastAccess_le h u
    have hv := lastAccess_le h v
    rw [reference_snoc, refStep, hdecay, lastAccess_snoc, lastAccess_snoc]
    dsimp only
    by_cases hvx : v = x
    · subst hvx
      by_cases hux : u = v
      · simp [hux, ih, hzero]
      · have hcount : (h.reverse.take W).count u =
            if 0 < lastAccess h u ∧ h.length < lastAccess h u + W then 1 else 0 := by
          have hwin : (h.reverse.take W).Nodup :=
            (List.nodup_reverse.mpr hnd').sublist (List.take_sublist _ _)
          rw [List.Nodup.count hwin]
          refine if_congr ?_ rfl rfl
          rw [mem_window]
          refine and_congr_left fun _ => ⟨lastAccess_pos, fun hpos => ?_⟩
          by_contra hm
          rw [lastAccess_eq_zero hm] at hpos
          omega
        rw [ih, hzero, hcount]
        simp only [hux, ne_eq, not_false_eq_true, and_self, if_true, if_false]
        split_ifs <;> omega
    · simp only [hvx, false_and, if_false, ih]
      by_cases hux : u = x
      · subst hux
        rw [hzero, if_pos rfl, if_neg (by omega), if_neg (by omega)]
      · rw [if_neg hux]

/-- In a scan no index has more successors than the window is long. -/
lemma card_successors (hnd : h.Nodup) (u : ℕ) : (successors W h u).card ≤ W := by
  refine Finset.card_image_le.trans ?_
  have hsub : ((Finset.range h.length).filter fun j =>
      u ≠ h.getD j 0 ∧ u ∈ (h.take j).reverse.take W) ⊆
        Finset.Ico (lastAccess h u) (lastAccess h u + W) := by
    intro j hj
    simp only [Finset.mem_filter, Finset.mem_range] at hj
    obtain ⟨hj, -, hm⟩ := hj
    obtain ⟨hm, hlt⟩ := mem_window.mp hm
    obtain ⟨i, hi, rfl⟩ := List.getElem_of_mem hm
    have hi' := hi
    rw [List.length_take] at hi'
    have htake := lastAccess_getElem (hnd.sublist (List.take_sublist j h)) hi
    rw [List.length_take, htake] at hlt
    rw [List.getElem_take, lastAccess_getElem hnd (by omega), Finset.mem_Ico]
    omega
  simpa using Finset.card_le_card hsub

lemma sum_range_lt (a m : ℕ) :
    ((List.range m).map fun i => if a < i then 1 else 0).sum = m - 1 - a := by
  induction m with
  | zero => simp
  | succ m ih =>
    rw [List.range_succ, List.map_append, List.sum_append, ih]
    simp only [List.map_cons, List.map_nil, List.sum_singleton]
    split_ifs <;> omega

/-- **The score of an item of a scan** is the number of window items before it. -/
theorem score_scan (hnd : (h ++ [x]).Nodup) (hv : v ∈ h) :
    ((h.reverse.take W).map fun u => reference W (h ++ [x]) u v).sum =
      lastAccess h v - 1 - (h.length - W) := by
  obtain ⟨hnd', -, hx⟩ := List.nodup_append.mp hnd
  have hx : x ∉ h := fun hm => hx x hm x (by simp) rfl
  have hvx : v ≠ x := fun e => hx (e ▸ hv)
  have hpos := lastAccess_pos hv
  have hle := lastAccess_le h v
  have hterm : (h.reverse.take W).map (fun u => reference W (h ++ [x]) u v) =
      (List.range (min W h.length)).map
        fun i => if h.length - lastAccess h v < i then 1 else 0 := by
    apply List.ext_getElem
    · simp
    · intro i h1 h2
      have hi : i < min W h.length := by simpa using h2
      have hlast : lastAccess h h[h.length - 1 - i] = h.length - 1 - i + 1 :=
        lastAccess_getElem hnd' (by omega)
      have hne : h[h.length - 1 - i] ≠ x := fun e => hx (e ▸ List.getElem_mem _)
      simp only [List.getElem_map, List.getElem_take, List.getElem_reverse, List.getElem_range]
      rw [reference_scan hnd, lastAccess_snoc, lastAccess_snoc, if_neg hne, if_neg hvx, hlast]
      refine if_congr ?_ rfl rfl
      omega
  rw [hterm, sum_range_lt]
  omega

/-! ### The victim in a scan -/

/-- The state after a scan of the indices `h`. -/
structure Scanned (n W : ℕ) (h : List ℕ) (s : State) (l : List ℕ) : Prop where
  safe : Safe n s
  rep : Rep n h s l
  learned : Learned W h s
  light : Light s.graph
  /-- The frames, the one used longest ago first. -/
  kept : l.reverse.map (held s) = survivors n (spared n W) h

lemma spared_lt (hn : 1 ≤ n) (hW : 1 ≤ W) : spared n W < n := by
  unfold spared
  omega

lemma Scanned.ready (hs : Scanned n W h s l) (idx : ℕ) : Ready n W h (prepare s idx) l :=
  (ready_of_rep hs.rep hs.learned.window hs.light).prepare idx

lemma Scanned.mem (hs : Scanned n W h s l) (hf : f ∈ l) : held s f ∈ h :=
  mem_recency.mp (hs.rep.order.subset (List.mem_map_of_mem hf))

/-- The graph in which a victim is looked for. -/
lemma Scanned.weight (hs : Scanned n W h s l) (hn : 1 ≤ n) (hW : W ≤ maxWindow)
    (hnd : (h ++ [pageIdx page]).Nodup) {u : ℕ} (hu : u < maxUnique) (hv : v < 65536) :
    adjWeight (prepare s (pageIdx page)).graph u v = reference W (h ++ [pageIdx page]) u v := by
  obtain ⟨s', r, ha, -⟩ := safe_step hn hs.safe page
  have hl := learned_step (fun u => (card_successors hnd u).trans hW) hs.learned ha
  rw [← hl.weight u v hu hv, (access_learns ha).1]
  rfl

lemma Scanned.score (hs : Scanned n W h s l) (hn : 1 ≤ n) (hW : W ≤ maxWindow)
    (hnd : (h ++ [pageIdx page]).Nodup) (hidx : ∀ u ∈ h, u < maxUnique) (hf : f ∈ l) :
    scorePage (prepare s (pageIdx page)) (held s f) =
      lastAccess h (held s f) - 1 - (h.length - W) := by
  have hlt : held s f < 65536 := (pageIdx_lt _).trans (by decide)
  have hsum := (hs.ready (pageIdx page)).score_eq f
  rw [← score_scan hnd (hs.mem hf)]
  refine hsum.trans ?_
  rw [TgVictim.score]
  congr 1
  exact List.map_congr_left fun u hu =>
    hs.weight hn hW hnd (hidx u (List.mem_reverse.mp (List.mem_of_mem_take hu))) hlt

/-- The time of last use at a place of the list. -/
lemma Scanned.time (hs : Scanned n W h s l) (hn : 1 ≤ n) (hW : 1 ≤ W) (hnd : h.Nodup)
    (hlen : n ≤ h.length) {p : ℕ} (hp : l.reverse[p]? = some f) :
    lastAccess h (held s f) = if p < spared n W then p + 1 else p + (h.length - n) + 1 := by
  have hk := spared_lt hn hW
  have hheld : (survivors n (spared n W) h)[p]? = some (held s f) := by
    rw [← hs.kept, List.getElem?_map, hp]
    rfl
  rw [survivors_getElem? hk hlen] at hheld
  split_ifs at hheld ⊢
  all_goals
    obtain ⟨hi, e⟩ := List.getElem?_eq_some_iff.mp hheld
    rw [← e, lastAccess_getElem hnd hi]

/-- **The victim in a scan** holds the item after those that are spared. -/
theorem Scanned.victim (hs : Scanned n W h s l) (hn : 1 ≤ n) (hW : 1 ≤ W) (hW' : W ≤ maxWindow)
    (hnd : (h ++ [pageIdx page]).Nodup) (hidx : ∀ u ∈ h, u < maxUnique) (hlen : n ≤ h.length)
    (hv : chooseVictim (prepare s (pageIdx page)) = some v) :
    v ∈ l ∧ h[spared n W + (h.length - n)]? = some (held s v) := by
  have hk := spared_lt hn hW
  have hready := hs.ready (pageIdx page)
  have hl : l.length = n := by
    rw [← length_survivors hk hlen, ← hs.kept, List.length_map, List.length_reverse]
  have hsample : sample (prepare s (pageIdx page)) = l.reverse.take sampleSize :=
    hready.list.follow_prev _
  have hfull : ¬(prepare s (pageIdx page)).size < (prepare s (pageIdx page)).cap := by
    rw [hready.size, hready.cap]
    omega
  have hmem : ∀ f ∈ sample (prepare s (pageIdx page)), f ∈ l := fun f hf =>
    List.mem_reverse.mp (List.mem_of_mem_take (hsample ▸ hf))
  have hne : sample (prepare s (pageIdx page)) ≠ [] := by
    rw [hsample]
    intro e
    have := congrArg List.length e
    simp [hl, sampleSize] at this
    omega
  obtain ⟨v', hv', he, hle⟩ := evictionVictim_least hne fun f _ => hready.score_lt hW' _
  obtain rfl : v' = v := by
    rw [chooseVictim, if_neg hfull, he] at hv
    exact Option.some.inj hv
  -- the frame that is next in line, and the place of the victim
  obtain ⟨g, hg⟩ : ∃ g, l.reverse[spared n W]? = some g :=
    ⟨_, List.getElem?_eq_getElem (by rw [List.length_reverse]; omega)⟩
  have hgs : g ∈ sample (prepare s (pageIdx page)) := by
    rw [hsample]
    refine List.mem_of_getElem? (i := spared n W) ?_
    rw [List.getElem?_take, if_pos (by unfold spared sampleSize; omega), hg]
  obtain ⟨p, hp⟩ := List.mem_iff_getElem?.mp (hsample ▸ hv')
  rw [List.getElem?_take] at hp
  split_ifs at hp with hp64
  have htv := hs.time hn hW (List.nodup_append.mp hnd).1 hlen hp
  have htg := hs.time hn hW (List.nodup_append.mp hnd).1 hlen hg
  have hplace : p = spared n W := by
    have hkey := hle g hgs
    have hsv : scorePage _ (held (prepare s (pageIdx page)) v') = _ :=
      hs.score hn hW' hnd hidx (hmem v' hv')
    have hsg : scorePage _ (held (prepare s (pageIdx page)) g) = _ :=
      hs.score hn hW' hnd hidx (hmem g hgs)
    have hmv : (prepare s (pageIdx page)).mruTime v' = _ := hs.rep.time v' (hmem v' hv')
    have hmg : (prepare s (pageIdx page)).mruTime g = _ := hs.rep.time g (hmem g hgs)
    rw [key, key, Prod.Lex.toLex_le_toLex, OrderDual.toDual_le_toDual, hsv, hsg, hmv, hmg, htv,
      htg, if_neg (lt_irrefl _)] at hkey
    have hsp : spared n W = min 63 (n - W) := rfl
    have hp64 : p < 64 := hp64
    split_ifs at hkey with hpk
    · omega
    · rcases hkey with hlt | ⟨heq, hle⟩
      · omega
      · have := Int.ofNat_le.mp hle
        omega
  refine ⟨hmem v' hv', ?_⟩
  have hheld : (survivors n (spared n W) h)[p]? = some (held s v') := by
    rw [← hs.kept, List.getElem?_map, hp]
    rfl
  rwa [hplace, survivors_getElem? hk hlen, if_neg (lt_irrefl _)] at hheld

/-! ### Whole scans -/

/-- **One more item** takes the place of the one after those that are spared. -/
theorem Scanned.step (hs : Scanned n W h s l) (hn : 1 ≤ n) (hW : 1 ≤ W) (hW' : W ≤ maxWindow)
    (hnd : (h ++ [pageIdx page]).Nodup) (hidx : ∀ u ∈ h, u < maxUnique) (hp : page ≠ -1) :
    ∃ s' l', tgAccess s page = some (s', .fault) ∧ Scanned n W (h ++ [pageIdx page]) s' l' := by
  have hk := spared_lt hn hW
  have hx : pageIdx page ∉ h := fun hm =>
    (List.nodup_append.mp hnd).2.2 _ hm _ (List.mem_singleton_self _) rfl
  have hin : s.inFrames (pageIdx page) = false := by
    by_contra hin
    obtain ⟨f, hf, e⟩ := hs.rep.table _ (by simpa using hin)
    exact hx (e ▸ hs.mem hf)
  obtain ⟨v, hvn, hv, hfree, hfull⟩ := chooseVictim_spec hn (hs.safe.prepare (pageIdx page))
  have ha : tgAccess s page = some (faultState s v page, .fault) := by
    rw [access_eq, hin, hv]
    rfl
  have hlight : Light (faultState s v page).graph := light_prepare hs.light (pageIdx page)
  have hnodup := hs.rep.list.nodup
  refine ⟨_, touch v l, ha, hs.safe.fault hvn page, hs.rep.fault hvn hfree hfull hp hin,
    learned_step (fun u => (card_successors hnd u).trans hW') hs.learned ha, hlight, ?_⟩
  rw [List.map_reverse, map_fault hnodup, List.reverse_cons, ← List.map_reverse]
  rcases Nat.lt_or_ge h.length n with hlt | hge
  · -- there is an empty frame
    have hkept := hs.kept
    rw [survivors_short hlt.le] at hkept
    have hlen : l.length = h.length := by rw [← hkept, List.length_map, List.length_reverse]
    have hvl : v ∉ l := fun hm => (hs.rep.mem_iff hvn).mp hm
      (hfree (by have := hs.rep.size; show s.size < n; omega))
    rw [List.erase_of_not_mem hvl, hkept, survivors_short (by simpa using hlt)]
  · obtain ⟨hvl, hheld⟩ := hs.victim hn hW hW' hnd hidx hge hv
    obtain ⟨hi, e⟩ := List.getElem?_eq_some_iff.mp hheld
    obtain ⟨h1, h2⟩ := survivors_snoc (pageIdx page) hk hge
    have hnd' : (survivors n (spared n W) h).Nodup := by
      rw [← hs.kept]
      exact (List.nodup_reverse.mpr hnodup).map_on fun a ha b hb e =>
        hs.rep.held_inj (List.mem_reverse.mp ha) (List.mem_reverse.mp hb) e
    have herase : (l.erase v).reverse.map (held s) =
        (survivors n (spared n W) h).erase (held s v) := by
      rw [← hs.kept, ← map_erase_of_injOn fun y hy e =>
        hs.rep.held_inj (List.mem_reverse.mp hy) hvl e, hnodup.erase_eq_filter,
        (List.nodup_reverse.mpr hnodup).erase_eq_filter, List.filter_reverse]
    rw [herase, h2]
    rw [h1, e] at hnd' ⊢
    rw [List.erase_append_right _ (fun hm => ?_), List.erase_cons_head]
    exact (List.nodup_append.mp hnd').2.2 _ hm _ List.mem_cons_self rfl

lemma windowOf_pos (W : ℤ) : 1 ≤ windowOf W := by
  unfold windowOf
  split_ifs
  · omega
  · decide

lemma scanned_init (s₀ : State) (hn' : n ≤ maxFrames) (W : ℤ) :
    ∃ s, tgInit s₀ n W = some s ∧ Scanned n (windowOf W) [] s [] := by
  have hsame : tgInit s₀ n W = tgInit s₀ n (windowOf W : ℕ) := by
    have hle := windowOf_le W
    have hpos := windowOf_pos W
    rw [tgInit_eq s₀ hn', tgInit_eq s₀ hn']
    have : windowOf (windowOf W : ℕ) = windowOf W := by
      rw [windowOf, if_pos ⟨by omega, by omega⟩, Int.toNat_natCast]
    rw [this]
  obtain ⟨s, he, hs, hl⟩ := learned_init s₀ hn' (windowOf_pos W) (windowOf_le W)
  obtain ⟨t, ht, -, hr⟩ := rep_init s₀ hn' (windowOf W : ℕ)
  obtain ⟨u, hu, hi⟩ := TgVictim.inv_init s₀ hn' (windowOf W : ℕ)
  obtain rfl : s = t := Option.some.inj (he.symm.trans ht)
  obtain rfl : s = u := Option.some.inj (he.symm.trans hu)
  exact ⟨s, hsame.trans he, hs, hr, hl, hi.light, by simp [survivors]⟩

/-- A scan is all faults, and leaves the frames of its survivors. -/
lemma scanned_run (s₀ : State) (hn : 1 ≤ n) (hn' : n ≤ maxFrames) (W : ℤ) {scan : List Page}
    (hm : (-1 : Page) ∉ scan) (hnd : (scan.map pageIdx).Nodup) :
    ∃ s s' l, tgInit s₀ n W = some s ∧
      run tgAccess s scan = some (s', List.replicate scan.length .fault) ∧
      Scanned n (windowOf W) (scan.map pageIdx) s' l := by
  obtain ⟨s, he, hs⟩ := scanned_init s₀ hn' W
  obtain ⟨s', os, hrun, ⟨l, hl⟩, hos⟩ := run_spec
    (I := fun past s => ∃ l, Scanned n (windowOf W) (past.map pageIdx) s l)
    (O := fun _ _ r => r = Result.fault) scan ⟨[], hs⟩ fun past page s hp hi => by
      obtain ⟨l, hi⟩ := hi
      have hne : page ≠ -1 := by
        rintro rfl
        exact hm (hp.subset (by simp))
      have hnd' : (past.map pageIdx ++ [pageIdx page]).Nodup := by
        rw [← List.map_singleton, ← List.map_append]
        exact hnd.sublist (hp.map pageIdx).sublist
      obtain ⟨s', l', ha, hl'⟩ := hi.step hn (windowOf_pos W) (windowOf_le W) hnd' (fun u hu => by
        obtain ⟨p, -, rfl⟩ := List.mem_map.mp hu
        exact pageIdx_lt p) hne
      exact ⟨s', _, ha, ⟨l', by simpa using hl'⟩, rfl⟩
  exact ⟨s, s', l, he, by rw [hrun, CyclicScan.eq_faults (run_length hrun) hos], hl⟩

end Scan

open Sim CompulsoryMisses Renaming Paging DemandPaging CyclicScan Competitive

variable {σ : Statics} {scan : List Page}

/-- The pages held after a scan are its survivors. -/
lemma Scanned.residents (hs : Scanned n W (scan.map pageIdx) σ.tg l)
    (hf : ∀ f < n, σ.tg.frames f = -1 ∨ σ.tg.frames f ∈ scan) (hm : (-1 : Page) ∉ scan)
    (hinc : Incongruent scan) :
    (residents .tempograph σ).toFinset = (survivors n (spared n W) scan).toFinset := by
  have hkept : l.reverse.map (held σ.tg) = (survivors n (spared n W) scan).map pageIdx := by
    rw [hs.kept, survivors_map]
  have hsub : ∀ p ∈ survivors n (spared n W) scan, p ∈ scan := fun p => mem_of_survives
  have hcap : σ.tg.cap.toNat = n := by rw [hs.rep.cap, Int.toNat_natCast]
  ext q
  rw [List.mem_toFinset, List.mem_toFinset, DemandPaging.residents, hcap, mem_slotPages]
  constructor
  · rintro ⟨hq, f, hfn, rfl⟩
    have hfl : f ∈ l.reverse := List.mem_reverse.mpr ((hs.rep.occupied f).mpr ⟨hfn, hq⟩)
    obtain ⟨p, hp, e⟩ := List.mem_map.mp (hkept ▸ List.mem_map_of_mem hfl)
    rwa [← hinc p (hsub p hp) _ ((hf f hfn).resolve_left hq) e]
  · intro hq
    obtain ⟨f, hfl, e⟩ := List.mem_map.mp (hkept ▸ List.mem_map_of_mem hq)
    obtain ⟨hfn, hne⟩ := (hs.rep.occupied f).mp (List.mem_reverse.mp hfl)
    refine ⟨fun e' => hm (e' ▸ hsub q hq), f, hfn, ?_⟩
    exact hinc _ ((hf f hfn).resolve_left hne) q (hsub q hq) e

/-- What a scan leaves, for any accesses that come after it. -/
lemma scan_replay (M : Malloc) (σ : Statics) (hn : 1 ≤ n) (hn' : n ≤ maxFrames) (W : ℤ)
    (hs : Suits .tempograph scan) (hnd : scan.Nodup) :
    ∃ σ', replay M σ .tempograph n W scan = some (σ', List.replicate scan.length .fault) ∧
      Good .tempograph n scan σ' ∧
      (residents .tempograph σ').toFinset =
        (survivors n (spared n (windowOf W)) scan).toFinset := by
  obtain ⟨hm, hinc⟩ := id hs
  have hidx : (scan.map pageIdx).Nodup := hnd.map_on fun p hp q hq e => hinc p hp q hq e
  obtain ⟨s, s', l, he, hrun, hl⟩ := scanned_run σ.tg hn hn' W hm hidx
  obtain ⟨σ', os, hreplay, hg, -⟩ := good_replay M σ .tempograph hn hn' W hs
  have htg : replay M σ .tempograph n W scan = (run tgAccess s scan).map
      fun p => ({ σ with tg := p.1 }, p.2) := replay_tg he
  rw [hrun, Option.map_some] at htg
  obtain ⟨rfl, rfl⟩ := Prod.mk.inj (Option.some.inj (hreplay.symm.trans htg))
  exact ⟨_, hreplay, hg, hl.residents hg.2.1 hm hinc⟩

/-- The survivors are hits. -/
lemma scan_again (M : Malloc) (σ : Statics) (hn : 1 ≤ n) (hn' : n ≤ maxFrames) (W : ℤ)
    (hs : Suits .tempograph scan) (hnd : scan.Nodup) {again : List Page}
    (hagain : ∀ p ∈ again, p ∈ survivors n (spared n (windowOf W)) scan) :
    answers M σ .tempograph n W (scan ++ again) =
      some (List.replicate scan.length .fault ++ List.replicate again.length .hit) := by
  obtain ⟨σ', hreplay, hg, hres⟩ := scan_replay M σ hn hn' W hs hnd
  have hheld : ∀ p ∈ again, p ∈ residents .tempograph σ' := fun p hp => by
    rw [← List.mem_toFinset, hres]
    exact List.mem_toFinset.mpr (hagain p hp)
  have hsub : ∀ p ∈ scan ++ again, p ∈ scan := fun p hp =>
    (List.mem_append.mp hp).elim id fun hp => mem_of_survives (hagain p hp)
  have hsuits : Suits .tempograph (scan ++ again) :=
    ⟨fun h => hs.1 (hsub _ h), fun p hp q hq => hs.2 p (hsub p hp) q (hsub q hq)⟩
  obtain ⟨σ'', hhits⟩ := run_hits (M := M) hn hg hsuits hheld
  rw [replay] at hreplay
  obtain ⟨σ₀, hinit, hrun⟩ := Option.bind_eq_some_iff.mp hreplay
  rw [answers, replay, hinit, Option.bind_some, run_append hrun hhits]
  rfl

/-- **TempoGraph spares the first pages of a scan.** After a scan of pages with different
indices, all of them faults, it holds the first `min 63 (n - W)` pages and the last ones; so
these are hits when they are asked for again, in any order and as often as one likes. -/
theorem scan_spared (M : Malloc) (σ : Statics) (n : ℕ) (hn : 1 ≤ n) (hn' : n ≤ maxFrames) (W : ℤ)
    (scan : List Page) (hs : Suits .tempograph scan) (hnd : scan.Nodup) :
    ∃ σ', replay M σ .tempograph n W scan =
        some (σ', List.replicate scan.length .fault) ∧
      (residents .tempograph σ').toFinset =
        (survivors n (spared n (windowOf W)) scan).toFinset ∧
      ∀ again, (∀ p ∈ again, p ∈ survivors n (spared n (windowOf W)) scan) →
        answers M σ .tempograph n W (scan ++ again) =
          some (List.replicate scan.length .fault ++ List.replicate again.length .hit) := by
  obtain ⟨σ', hreplay, -, hres⟩ := scan_replay M σ hn hn' W hs hnd
  exact ⟨σ', hreplay, hres, fun again hagain => scan_again M σ hn hn' W hs hnd hagain⟩

/-- The theorem at two frames and a window of one: of three pages the first and the last. -/
theorem scan_spared_two : 1 ≤ 2 ∧ 2 ≤ maxFrames ∧ Suits .tempograph [3, 5, 7] ∧
    [(3 : Page), 5, 7].Nodup ∧ (∀ p ∈ [(7 : Page), 3, 3], p ∈ survivors 2 1 [(3 : Page), 5, 7]) ∧
    answers Malloc.above start .tempograph 2 1 [3, 5, 7, 7, 3, 3] =
      some [.fault, .fault, .fault, .hit, .hit, .hit] := by
  have hs : Suits .tempograph [3, 5, 7] := by
    refine ⟨by decide, ?_⟩
    simp only [Incongruent, List.mem_cons, List.not_mem_nil, or_false, forall_eq_or_imp, forall_eq]
    decide
  have hagain : ∀ p ∈ [(7 : Page), 3, 3], p ∈ survivors 2 1 [(3 : Page), 5, 7] := by
    simp [survivors]
  obtain ⟨σ', -, -, h⟩ := scan_spared Malloc.above start 2 (by decide) (by decide) 1 [3, 5, 7] hs
    (by decide)
  exact ⟨by decide, by decide, hs, by decide, hagain, h [7, 3, 3] hagain⟩

/-! ### The cyclic scan -/

lemma suits_genScan {N L : ℕ} (hN : N ≤ maxUnique) (hN' : 1 ≤ N) :
    Suits .tempograph (genScan L N) := by
  have hlt : ∀ p ∈ genScan L N, ∃ i < N, p = Int32.ofNat i ∧ pageIdx p = i := fun p hp => by
    obtain ⟨j, -, rfl⟩ := List.mem_map.mp hp
    have hj := Nat.mod_lt j hN'
    exact ⟨j % N, hj, rfl, pageIdx_ofNat (by omega)⟩
  refine ⟨fun hm => ?_, fun p hp q hq e => ?_⟩
  · obtain ⟨j, -, e⟩ := List.mem_map.mp hm
    have hj := Nat.mod_lt j hN'
    simp only [maxUnique] at hN
    exact SieveReference.pg_ne (by omega) e
  · obtain ⟨i, -, rfl, hi⟩ := hlt p hp
    obtain ⟨j, -, rfl, hj⟩ := hlt q hq
    rw [show i = j by omega]

lemma nodup_genScan {N : ℕ} (hN : N ≤ maxUnique) : (genScan N N).Nodup := by
  refine List.nodup_range.map_on fun i hi j hj e => ?_
  have hi := List.mem_range.mp hi
  have hj := List.mem_range.mp hj
  rw [Nat.mod_eq_of_lt hi, Nat.mod_eq_of_lt hj] at e
  simp only [maxUnique] at hN
  exact SieveReference.pg_inj (by omega) (by omega) e

lemma genScan_add (a b N : ℕ) : genScan (a + b) N =
    genScan a N ++ (List.range b).map fun i => SieveReference.pg ((a + i) % N) := by
  rw [genScan, genScan, List.range_add, List.map_append, List.map_map]
  rfl

/-- The second round begins as the first one did. -/
lemma genScan_again {N m : ℕ} (hm : m ≤ N) :
    genScan (N + m) N = genScan N N ++ (genScan N N).take m := by
  rw [genScan_add, genScan, ← List.map_take, List.take_range, Nat.min_eq_left hm]
  congr 1
  exact List.map_congr_left fun i _ => by rw [Nat.add_mod_left]

/-- **On a cyclic scan TempoGraph has hits**, where the other policies have none. Over more
pages than there are frames the first round is all faults, and the second round begins with
a hit for each spared page. -/
theorem cyclic_scan_hits (M : Malloc) (σ : Statics) (n N L : ℕ) (hn : 1 ≤ n)
    (hn' : n ≤ maxFrames) (hN : n < N) (hN' : N ≤ maxUnique) (W : ℤ)
    (hL : N + spared n (windowOf W) ≤ L) :
    ∃ os, answers M σ .tempograph n W (genScan L N) = some os ∧
      os.take (N + spared n (windowOf W)) =
        List.replicate N .fault ++ List.replicate (spared n (windowOf W)) .hit ∧
      os.count .fault + spared n (windowOf W) ≤ L := by
  have hk := spared_lt hn (windowOf_pos W)
  have hround : answers M σ .tempograph n W (genScan (N + spared n (windowOf W)) N) =
      some (List.replicate N .fault ++ List.replicate (spared n (windowOf W)) .hit) := by
    rw [genScan_again (by omega)]
    have hagain : ∀ p ∈ (genScan N N).take (spared n (windowOf W)),
        p ∈ survivors n (spared n (windowOf W)) (genScan N N) :=
      fun p hp => List.mem_append_left _ hp
    have h := scan_again M σ hn hn' W (suits_genScan hN' (by omega)) (nodup_genScan hN') hagain
    rwa [genScan_length, List.length_take, genScan_length, Nat.min_eq_left (by omega)] at h
  obtain ⟨s, s', os, he, hrun⟩ := Isolation.tg_defined σ.tg hn hn' W (genScan L N)
  obtain ⟨rest, hrest⟩ : genScan (N + spared n (windowOf W)) N <+: genScan L N := by
    obtain ⟨d, rfl⟩ := Nat.exists_eq_add_of_le hL
    exact ⟨_, (genScan_add _ d N).symm⟩
  rw [← hrest] at hrun
  obtain ⟨s₁, os₁, os₂, h1, h2, rfl⟩ := run_append_inv hrun
  rw [answers_tg he, outputs_eq h1] at hround
  obtain rfl := Option.some.inj hround
  have hlen₂ := run_length h2
  have hlen := congrArg List.length hrest
  rw [List.length_append, genScan_length, genScan_length] at hlen
  refine ⟨_, by rw [answers_tg he, ← hrest, outputs_eq hrun], List.take_left' (by simp), ?_⟩
  have hcount := List.count_le_length (a := Result.fault) (l := os₂)
  rw [List.count_append, List.count_append, List.count_replicate_self, List.count_replicate]
  simp only [beq_iff_eq, reduceCtorEq, if_false]
  omega

/-- The theorem at three frames, a window of one and four pages. -/
theorem cyclic_scan_hits_three : 1 ≤ 3 ∧ 3 ≤ maxFrames ∧ 3 < 4 ∧ 4 ≤ maxUnique ∧
    4 + spared 3 (windowOf 1) ≤ 8 ∧
    ∃ os, answers Malloc.above start .tempograph 3 1 (genScan 8 4) = some os ∧
      os.count .fault + 2 ≤ 8 := by
  obtain ⟨os, ha, -, hcount⟩ := cyclic_scan_hits Malloc.above start 3 4 8 (by decide) (by decide)
    (by decide) (by decide) 1 (by decide)
  exact ⟨by decide, by decide, by decide, by decide, by decide, os, ha, hcount⟩

end Tempograph.TgScan
