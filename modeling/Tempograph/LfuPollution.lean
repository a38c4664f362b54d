import Tempograph.Competitive
import Tempograph.LfuScan

/-!
What LFU never forgets.

A page that was hit stays until every other page was. If the pages of all slots but one were
hit, the other pages share that slot, however often they are asked for and however long ago
the rest were: each of them throws out the one before it. LRU soon has them all as hits.
-/

namespace Tempograph.LfuPollution

open Common Recency Runs Sim Renaming Paging DemandPaging Competitive
open Lfu LfuSteps LfuExact LfuScan
open SieveReference (pg pg_inj pg_ne)

variable {n m i : ℕ} {s s' : State} {page last q : Page} {past : List (Page × Result)}
  {rest : List Page}

/-- The page is in a slot and was hit there. -/
def HotPage (n : ℕ) (s : State) (page : Page) : Prop := ∃ i ∈ hot n s, (s.slots i).page = page

lemma hotPage_congr (hk : Kept n ∅ s s') : HotPage n s' page ↔ HotPage n s page := by
  have hhot : hot n s' = hot n s := by rw [hk.hot, Finset.sdiff_empty]
  have hslot : ∀ i ∈ hot n s, s'.slots i = s.slots i := fun i hi =>
    hk.slots i (by rwa [Finset.sdiff_empty])
  simp only [HotPage, hhot]
  exact exists_congr fun i => and_congr_right fun hi => by rw [hslot i hi]

/-! ### One slot for all other pages -/

/-- All slots but one are hot, and that one holds `last`. -/
structure Polluted (n : ℕ) (past : List (Page × Result)) (s : State) (last : Page) : Prop where
  account : Account n past s
  count : (hot n s).card + 1 = n
  cold : ∀ i < n, i ∉ hot n s → (s.slots i).page = last

/-- A page in none of the slots faults. -/
lemma access_faults (hn : 1 ≤ n) (h : Account n past s) (hlen : past.length < maxTrace)
    (hp : page ≠ -1) (hnew : ∀ i < n, (s.slots i).page ≠ page) :
    ∃ v < n, ∃ size, victim s = (some v, size) ∧
      lfuAccess s page = some (faultState s v page size, .fault) ∧
      Account n (past ++ [(page, .fault)]) (faultState s v page size) := by
  obtain ⟨s', r, ha, hacc⟩ := account_step hn hlen hp h
  rcases access_cases ha with ⟨i, hf, -, -⟩ | ⟨-, v, size, hv, rfl, rfl⟩
  · obtain ⟨hi, e⟩ := find_eq_some h.cap hf
    exact absurd e (hnew i hi)
  · exact ⟨v, (victim_least hn hlen h hv).1, size, hv, ha, hacc⟩

/-- **One access** to another page: it takes the slot of the last one. -/
lemma Polluted.step (h : Polluted n past s last) (hlen : past.length < maxTrace) (hp : page ≠ -1)
    (hcold : ¬HotPage n s page) (hne : last ≠ page) :
    ∃ s', lfuAccess s page = some (s', .fault) ∧
      Polluted n (past ++ [(page, .fault)]) s' page ∧ Kept n ∅ s s' := by
  have hn : 1 ≤ n := by have := h.count; omega
  have hcard : (hot n s).card < n := by have := h.count; omega
  have hnew : ∀ i < n, (s.slots i).page ≠ page := fun i hi e => by
    by_cases hm : i ∈ hot n s
    · exact hcold ⟨i, hm, e⟩
    · exact hne ((h.cold i hi hm).symm.trans e)
  obtain ⟨v, hv, size, hvic, ha, hacc⟩ := access_faults hn h.account hlen hp hnew
  have hkept := (fault_kept hn hlen h.account ha).1 hcard
  have hhot : hot n (faultState s v page size) = hot n s := by rw [hkept.hot, Finset.sdiff_empty]
  have hvcold := victim_not_hot hn hlen h.account hcard hvic
  refine ⟨_, ha, ⟨hacc, by rw [hhot, h.count], fun i hi hm => ?_⟩, hkept⟩
  rw [hhot] at hm
  -- the slots that are not hot are one slot
  have hone : i = v := by
    by_contra hiv
    have hsub : insert i (insert v (hot n s)) ⊆ Finset.range n := by
      intro j hj
      simp only [Finset.mem_insert] at hj
      rcases hj with rfl | rfl | hj
      · exact Finset.mem_range.mpr hi
      · exact Finset.mem_range.mpr hv
      · exact Finset.mem_range.mpr (mem_hot.mp hj).1
    have hle := Finset.card_le_card hsub
    rw [Finset.card_insert_of_notMem (by simp [hiv, hm]), Finset.card_insert_of_notMem hvcold,
      Finset.card_range] at hle
    have := h.count
    omega
  rw [faultState_page, if_pos hone]

/-- **Other pages never hit**, unless one of them is asked for twice in a row. -/
lemma Polluted.run (h : Polluted n past s last) (hlen : past.length + rest.length ≤ maxTrace)
    (hrest : ∀ p ∈ rest, p ≠ -1 ∧ ¬HotPage n s p) (hchain : List.IsChain (· ≠ ·) (last :: rest)) :
    ∃ s', Runs.run lfuAccess s rest = some (s', List.replicate rest.length .fault) := by
  induction rest generalizing past s last with
  | nil => exact ⟨s, rfl⟩
  | cons page rest ih =>
    rw [List.length_cons] at hlen
    obtain ⟨hne, hchain⟩ := List.isChain_cons_cons.mp hchain
    obtain ⟨hp, hcold⟩ := hrest page List.mem_cons_self
    obtain ⟨s₁, ha, h₁, hkept⟩ := h.step (by omega) hp hcold hne
    obtain ⟨s', hrun⟩ := ih h₁ (by rw [List.length_append, List.length_singleton]; omega)
      (fun p hp => ⟨(hrest p (List.mem_cons_of_mem _ hp)).1, fun hm =>
        (hrest p (List.mem_cons_of_mem _ hp)).2 ((hotPage_congr hkept).mp hm)⟩) hchain
    exact ⟨s', run_cons ha hrun⟩

/-! ### Hot pages -/

/-- The first `m` pages, each twice in a row. -/
def heat (m : ℕ) : List Page := (List.range m).flatMap fun i => [pg i, pg i]

lemma heat_succ (m : ℕ) : heat (m + 1) = heat m ++ [pg m, pg m] := by
  simp [heat, List.range_succ]

@[simp] lemma length_heat (m : ℕ) : (heat m).length = 2 * m := by
  induction m with
  | zero => rfl
  | succ m ih => simp [heat_succ, ih]; omega

lemma mem_heat {p : Page} : p ∈ heat m ↔ ∃ i < m, p = pg i := by simp [heat]

/-- The first `m` pages are hot, and the other slots are empty. -/
structure Heated (n m : ℕ) (past : List (Page × Result)) (s : State) : Prop where
  account : Account n past s
  count : (hot n s).card = m
  cold : ∀ i < n, i ∉ hot n s → (s.slots i).page = -1
  pages : ∀ p, HotPage n s p → ∃ i < m, p = pg i

/-- The page that is loaded is hot after a hit. -/
lemma hot_hit (hi : i < n) (hp : (s.slots i).page ≠ -1) (hf : 1 ≤ (s.slots i).freq) :
    hot n (hitState s i) = insert i (hot n s) := by
  ext j
  rw [Finset.mem_insert, mem_hot, mem_hot, hitState_page]
  by_cases e : j = i
  · subst e
    simp [hitState, hi, hp, hf]
  · simp [hitState, e]

lemma Heated.step (h : Heated n m past s) (hm : m < n) (hn' : n ≤ maxFrames)
    (hlen : past.length + 2 ≤ maxTrace) :
    ∃ s' r r', run lfuAccess s [pg m, pg m] = some (s', [r, r']) ∧
      Heated n (m + 1) (past ++ [(pg m, r), (pg m, r')]) s' := by
  have hsmall : m < 2 ^ 31 := by simp only [maxFrames] at hn'; omega
  have hp : pg m ≠ -1 := pg_ne hsmall
  have hnew : ∀ i < n, (s.slots i).page ≠ pg m := fun i hi e => by
    by_cases hi' : i ∈ hot n s
    · obtain ⟨j, hj, e'⟩ := h.pages _ ⟨i, hi', e⟩
      have := pg_inj hsmall (by omega) e'
      omega
    · exact hp (e.symm.trans (h.cold i hi hi'))
  have hcard : (hot n s).card < n := by have := h.count; omega
  obtain ⟨v, hv, size, hvic, ha, hacc⟩ := access_faults (by omega) h.account (by omega) hp hnew
  have hvcold := victim_not_hot (by omega) (by omega) h.account hcard hvic
  -- the second access finds it where it was put
  have hlen' : (past ++ [(pg m, Result.fault)]).length < maxTrace := by
    rw [List.length_append, List.length_singleton]
    omega
  obtain ⟨s', r', ha', hacc'⟩ := account_step (by omega) hlen' hp hacc
  have hhere : ((faultState s v (pg m) size).slots v).page = pg m := by simp
  rcases access_cases ha' with ⟨i, hf, rfl, rfl⟩ | ⟨hf, -⟩
  swap
  · exact absurd ⟨v, hv, hhere⟩ (find_eq_none hacc.cap hf)
  obtain ⟨hi, e⟩ := find_eq_some hacc.cap hf
  obtain rfl : i = v := hacc.inj hi hv (by rwa [e]) (e.trans hhere.symm)
  have hhot : hot n (hitState (faultState s i (pg m) size) i) = insert i (hot n s) := by
    rw [hot_hit hi (fun e' => hp (hhere.symm.trans e')) (by simp [faultState]), hot_fault hi,
      Finset.erase_eq_of_notMem hvcold]
  refine ⟨_, .fault, .hit, run_cons ha (run_cons ha' rfl), ?_, ?_, fun j hj hmem => ?_,
    fun p hpage => ?_⟩
  · simpa using hacc'
  · rw [hhot, Finset.card_insert_of_notMem hvcold, h.count]
  · rw [hhot, Finset.mem_insert, not_or] at hmem
    rw [hitState_page, faultState_page, if_neg hmem.1]
    exact h.cold j hj hmem.2
  · obtain ⟨j, hj, rfl⟩ := hpage
    rw [hhot, Finset.mem_insert] at hj
    rw [hitState_page, faultState_page]
    split_ifs with hji
    · exact ⟨m, by omega, rfl⟩
    · obtain ⟨k, hk, e'⟩ := h.pages _ ⟨j, hj.resolve_left hji, rfl⟩
      exact ⟨k, by omega, e'⟩

lemma heated_run (s₀ : State) (hn : 1 ≤ n) (hn' : n ≤ maxFrames) (hm : m ≤ n) :
    ∃ s s' os, lfuInit s₀ n = some s ∧ run lfuAccess s (heat m) = some (s', os) ∧
      Heated n m ((heat m).zip os) s' := by
  induction m with
  | zero =>
    obtain ⟨s, he, hs⟩ := account_init s₀ hn hn'
    have hempty : ∀ i < n, (s.slots i).page = -1 := fun i hi =>
      ((hs.filled.mem i hi).resolve_left List.not_mem_nil).1
    have hhot : hot n s = ∅ := Finset.filter_eq_empty_iff.mpr fun i hi hc =>
      hc.1 (hempty i (Finset.mem_range.mp hi))
    refine ⟨s, s, [], he, rfl, hs, by rw [hhot, Finset.card_empty], fun i hi _ => hempty i hi, ?_⟩
    rintro p ⟨i, hi, -⟩
    rw [hhot] at hi
    exact absurd hi (Finset.notMem_empty i)
  | succ m ih =>
    obtain ⟨s, s', os, he, hrun, h⟩ := ih (by omega)
    have hlen := run_length hrun
    rw [length_heat] at hlen
    have hzip : ((heat m).zip os).length + 2 ≤ maxTrace := by
      rw [List.length_zip, length_heat, hlen, Nat.min_self]
      simp only [maxFrames, maxTrace] at *
      omega
    obtain ⟨s'', r, r', hrun', h'⟩ := h.step (by omega) hn' hzip
    refine ⟨s, s'', os ++ [r, r'], he, ?_, ?_⟩
    · rw [heat_succ]
      exact run_append hrun hrun'
    · rw [heat_succ, List.zip_append (by rw [length_heat, hlen])]
      exact h'

/-! ### Two pages by turns -/

def duel (p q : Page) : ℕ → List Page
  | 0 => []
  | L + 1 => p :: duel q p L

@[simp] lemma length_duel (p q : Page) (L : ℕ) : (duel p q L).length = L := by
  induction L generalizing p q with
  | zero => rfl
  | succ L ih => rw [duel, List.length_cons, ih]

lemma mem_duel {p : Page} {L : ℕ} (h : page ∈ duel p q L) : page = p ∨ page = q := by
  induction L generalizing p q with
  | zero => exact absurd h List.not_mem_nil
  | succ L ih =>
    rcases List.mem_cons.mp h with rfl | h
    · exact Or.inl rfl
    · exact (ih h).symm

lemma duel_chain {p : Page} (L : ℕ) (hlast : last ≠ p) (hpq : p ≠ q) :
    List.IsChain (· ≠ ·) (last :: duel p q L) := by
  induction L generalizing last p q with
  | zero => exact List.isChain_singleton _
  | succ L ih => exact List.isChain_cons_cons.mpr ⟨hlast, ih hpq hpq.symm⟩

/-- All frames but one are given to hot pages, and two others come by turns. -/
def pollution (n L : ℕ) : List Page := heat (n - 1) ++ duel (pg (n - 1)) (pg n) L

lemma pollution_pool (hn : 1 ≤ n) {L : ℕ} : ∀ p ∈ pollution n L, p ∈ pool n := by
  have hpg : ∀ i ≤ n, pg i ∈ pool n := fun i hi =>
    Finset.mem_image.mpr ⟨i, Finset.mem_range.mpr (by omega), rfl⟩
  intro p hp
  rcases List.mem_append.mp hp with hp | hp
  · obtain ⟨i, hi, rfl⟩ := mem_heat.mp hp
    exact hpg i (by omega)
  · rcases mem_duel hp with rfl | rfl
    · exact hpg _ (by omega)
    · exact hpg _ le_rfl

/-- LFU has no hit among the two. -/
lemma pollution_lfu (s₀ : State) (hn : 1 ≤ n) (hn' : n ≤ maxFrames) {L : ℕ}
    (hL : 2 * (n - 1) + L ≤ maxTrace) :
    ∃ s s' os, lfuInit s₀ n = some s ∧
      run lfuAccess s (pollution n L) = some (s', os ++ List.replicate L .fault) := by
  obtain ⟨s, s₁, os, he, hrun, h⟩ := heated_run s₀ hn hn' (m := n - 1) (by omega)
  have hlen := run_length hrun
  rw [length_heat] at hlen
  have hzip : ((heat (n - 1)).zip os).length = 2 * (n - 1) := by
    rw [List.length_zip, length_heat, hlen, Nat.min_self]
  have hsmall : n < 2 ^ 31 := by simp only [maxFrames] at hn'; omega
  have hpoll : Polluted n ((heat (n - 1)).zip os) s₁ (-1) :=
    ⟨h.account, by rw [h.count]; omega, h.cold⟩
  have hcold : ∀ i, n - 1 ≤ i → i ≤ n → pg i ≠ -1 ∧ ¬HotPage n s₁ (pg i) := fun i h1 h2 => by
    refine ⟨pg_ne (by omega), fun hhot => ?_⟩
    obtain ⟨j, hj, e⟩ := h.pages _ hhot
    have := pg_inj (by omega) (by omega) e
    omega
  have hne : pg (n - 1) ≠ pg n := fun e => by
    have := pg_inj (by omega) hsmall e
    omega
  have hchain := duel_chain L (pg_ne (show n - 1 < 2 ^ 31 by omega)).symm hne
  obtain ⟨s', hrun'⟩ := hpoll.run (by rw [hzip, length_duel]; omega) (fun p hp => by
    rcases mem_duel hp with rfl | rfl
    · exact hcold _ le_rfl (by omega)
    · exact hcold _ (by omega) le_rfl) hchain
  rw [length_duel] at hrun'
  exact ⟨s, s', os, he, run_append hrun hrun'⟩

/-- LRU faults at first accesses only. -/
lemma pollution_lru (hn : 2 ≤ n) (L : ℕ) : lruFaults n (pollution n L) ≤ n + 1 := by
  have hheat : (heat (n - 1)).toFinset.card ≤ n - 1 := by
    have hsub : (heat (n - 1)).toFinset ⊆ (Finset.range (n - 1)).image pg := fun p hp => by
      obtain ⟨i, hi, rfl⟩ := mem_heat.mp (List.mem_toFinset.mp hp)
      exact Finset.mem_image_of_mem pg (Finset.mem_range.mpr hi)
    exact (Finset.card_le_card hsub).trans (Finset.card_image_le.trans (by simp))
  have hduel : (duel (pg (n - 1)) (pg n) L).toFinset.card ≤ 2 := by
    have htwo : ({pg (n - 1), pg n} : Finset Page).card ≤ 2 := Finset.card_le_two
    refine (Finset.card_le_card fun p hp => ?_).trans htwo
    simpa using mem_duel (List.mem_toFinset.mp hp)
  rcases segment_faults n [] [] (heat (n - 1)) with h1 | h1
  · rcases segment_faults n (heat (n - 1)) [] (duel (pg (n - 1)) (pg n) L) with h2 | h2
    · simp only [List.nil_append, List.append_nil, List.toFinset_nil, Finset.sdiff_empty,
        lruFaults_nil] at h1 h2
      rw [pollution]
      omega
    · rw [List.nil_append] at h2
      omega
  · rw [List.nil_append] at h1
    omega

/-- **LFU is not competitive.** With two frames or more there are traces of any length that can
be loaded where LFU faults at all but `n - 1` accesses, and LRU only `n + 1` times in all. -/
theorem lfu_unbounded (M : Malloc) (σ σ' : Statics) (n : ℕ) (hn : 2 ≤ n) (hn' : n ≤ maxFrames)
    (W W' : ℤ) (L : ℕ) (hL : 2 * (n - 1) + L ≤ maxTrace) :
    ∃ tr os os', tr.length = 2 * (n - 1) + L ∧ tr.toFinset.card ≤ n + 1 ∧
      (∀ algo, Suits algo tr) ∧ answers M σ .lfu n W tr = some os ∧
      answers M σ' .lru n W' tr = some os' ∧
      L ≤ os.count .fault ∧ os'.count .fault ≤ n + 1 := by
  have hlen : (pollution n L).length = 2 * (n - 1) + L := by
    rw [pollution, List.length_append, length_heat, length_duel]
  obtain ⟨s, s', os, he, hrun⟩ := pollution_lfu σ.lfu (by omega) hn' hL
  obtain ⟨os', ha', hos'⟩ := lru_answers M σ' (show 1 ≤ n by omega) W' (pollution n L)
  refine ⟨pollution n L, _, os', hlen, ?_, fun algo => suits_pool hn' (pollution_pool (by omega))
    (by omega), by rw [answers_lfu he, outputs_eq hrun], ha', ?_, ?_⟩
  · rw [← card_pool hn']
    exact Finset.card_le_card fun p hp => pollution_pool (by omega) p (List.mem_toFinset.mp hp)
  · rw [List.count_append, List.count_replicate_self]
    exact Nat.le_add_left _ _
  · rw [← count_isHit, hos']
    exact pollution_lru hn L

/-- The theorem at two frames: a thousand faults of LFU against at most three of LRU. -/
theorem lfu_unbounded_two : 2 ≤ 2 ∧ 2 ≤ maxFrames ∧ 2 * (2 - 1) + 1000 ≤ maxTrace ∧
    ∃ tr os os', answers Malloc.above start .lfu 2 10 tr = some os ∧
      answers Malloc.above start .lru 2 10 tr = some os' ∧
      1000 ≤ os.count .fault ∧ os'.count .fault ≤ 3 := by
  obtain ⟨tr, os, os', -, -, -, h1, h2, h3, h4⟩ :=
    lfu_unbounded Malloc.above start start 2 le_rfl (by decide) 10 10 1000 (by decide)
  exact ⟨le_rfl, by decide, by decide, tr, os, os', h1, h2, h3, h4⟩

end Tempograph.LfuPollution
