import Tempograph.CompulsoryMisses

/-!
`lfu.c` counts what it says it counts, and replaces the least of it.

The history of a run is the list of its accesses with their results. It says how often a page
was accessed since it was last loaded and when it was accessed last; the slots hold just
these two numbers, and a full cache gives up the slot where they are least.
-/

namespace Tempograph.LfuExact

open Common Recency Runs Slots Lfu LfuSteps CompulsoryMisses

variable {n i : ℕ} {s s' : State} {page q : Page} {r : Result} {past : List (Page × Result)}

/-- The number of accesses to `q` since it was last loaded, the load included. -/
def sinceLoad (past : List (Page × Result)) (q : Page) : ℕ :=
  (past.reverse.takeWhile (· ≠ (q, .fault))).countP (·.1 = q) + 1

/-- The number of the last access to `q`. -/
def lastUse (past : List (Page × Result)) (q : Page) : ℕ := lastAccess (past.map Prod.fst) q

@[simp] lemma sinceLoad_hit (past : List (Page × Result)) (page q : Page) :
    sinceLoad (past ++ [(page, .hit)]) q =
      if q = page then sinceLoad past q + 1 else sinceLoad past q := by
  unfold sinceLoad
  by_cases h : q = page
  · simp [h]
  · simp [h, Ne.symm h]

@[simp] lemma sinceLoad_fault (past : List (Page × Result)) (page q : Page) :
    sinceLoad (past ++ [(page, .fault)]) q = if q = page then 1 else sinceLoad past q := by
  unfold sinceLoad
  by_cases h : q = page
  · simp [h]
  · simp [h, Ne.symm h]

@[simp] lemma lastUse_snoc (past : List (Page × Result)) (page q : Page) (r : Result) :
    lastUse (past ++ [(page, r)]) q = if q = page then past.length + 1 else lastUse past q := by
  simp [lastUse]

/-! ### The account of the slots -/

/-- The slot holds a loaded page and the two numbers of its history. -/
structure Known (past : List (Page × Result)) (e : Slot) : Prop where
  loaded : (e.page, Result.fault) ∈ past
  freq : e.freq = sinceLoad past e.page
  lastTime : e.lastTime = lastUse past e.page

lemma Known.other {e : Slot} (h : Known past e) (hne : e.page ≠ page) (r : Result) :
    Known (past ++ [(page, r)]) e := by
  refine ⟨List.mem_append_left _ h.loaded, ?_, ?_⟩
  · cases r <;> simp [hne, h.freq]
  · simp [hne, h.lastTime]

lemma Known.hit {e : Slot} (h : Known past e) :
    Known (past ++ [(e.page, .hit)]) ⟨e.page, e.freq + 1, past.length + 1⟩ :=
  ⟨List.mem_append_left _ h.loaded, by simp [h.freq], by simp⟩

lemma known_load (past : List (Page × Result)) (page : Page) :
    Known (past ++ [(page, .fault)]) ⟨page, 1, past.length + 1⟩ :=
  ⟨by simp, by simp, by simp⟩

/-- The slots after a run with the history `past`. -/
structure Account (n : ℕ) (past : List (Page × Result)) (s : State) : Prop
    extends LfuInv n (past.map Prod.fst) s where
  mark : (-1 : Page) ∉ past.map Prod.fst
  known : ∀ i < n, (s.slots i).page ≠ -1 → Known past (s.slots i)

lemma Account.inj {j : ℕ} (h : Account n past s) (hi : i < n) (hj : j < n)
    (hp : (s.slots i).page ≠ -1) (e : (s.slots i).page = (s.slots j).page) : i = j :=
  (h.filled.inj i hi j hj e).resolve_right fun h => hp h.1

/-- The counter is the number of occupied slots. -/
lemma Account.size_eq (h : Account n past s) :
    s.size = (used (-1) n fun i => (s.slots i).page).card := by
  rw [h.size]
  rcases Nat.lt_or_ge n (past.map Prod.fst).toFinset.card with hlt | hge
  · -- with more pages seen than there are slots every slot is occupied
    have hall : used (-1) n (fun i => (s.slots i).page) = Finset.range n := by
      rw [used, Finset.filter_eq_self]
      intro i hi he
      have hm := (h.filled.mem i (List.mem_range.mp (by simpa using hi))).resolve_right
        fun h => by omega
      exact h.mark (he ▸ hm)
    rw [hall, Finset.card_range, Nat.min_eq_right hlt.le]
  · rw [h.filled.count hge, Nat.min_eq_left hge]

lemma account_init (s₀ : State) (hn : 1 ≤ n) (hn' : n ≤ maxFrames) :
    ∃ s, lfuInit s₀ n = some s ∧ Account n [] s := by
  obtain ⟨s, he, hs⟩ := lfu_init s₀ hn hn'
  refine ⟨s, he, hs, List.not_mem_nil, fun i hi hp => absurd ?_ hp⟩
  exact ((hs.filled.mem i hi).resolve_left List.not_mem_nil).1

/-- **One access** keeps the account. -/
theorem account_step (hn : 1 ≤ n) (hlen : past.length < maxTrace) (hp : page ≠ -1)
    (h : Account n past s) : ∃ s' r, lfuAccess s page = some (s', r) ∧
      Account n (past ++ [(page, r)]) s' := by
  have hlen' : (past.map Prod.fst).length < maxTrace := by rwa [List.length_map]
  obtain ⟨s', r, ha, hinv, -⟩ := lfu_step hn hlen' (fun _ => hp) h.toLfuInv
  have hclock : s.lfuClock = past.length := by rw [h.clock, List.length_map]
  refine ⟨s', r, ha, ?_, ?_, fun j hj hpj => ?_⟩
  · rwa [List.map_append]
  · rw [List.map_append, List.mem_append, List.map_singleton, List.mem_singleton, not_or]
    exact ⟨h.mark, fun e => hp e.symm⟩
  rcases access_cases ha with ⟨i, hf, rfl, rfl⟩ | ⟨hf, v, size, -, rfl, rfl⟩
  · obtain ⟨hi, rfl⟩ := find_eq_some h.cap hf
    by_cases e : j = i
    · subst e
      simp only [hitState, Function.update_self, hclock]
      exact (h.known j hj hp).hit
    · simp only [hitState, Function.update_of_ne e] at hpj ⊢
      exact (h.known j hj hpj).other (fun e' => e (h.inj hj hi hpj e')) _
  · have hnone := find_eq_none h.cap hf
    by_cases e : j = v
    · subst e
      simp only [faultState, Function.update_self, hclock]
      exact known_load past page
    · simp only [faultState, Function.update_of_ne e] at hpj ⊢
      exact (h.known j hj hpj).other (fun e' => hnone ⟨j, hj, e'⟩) _

/-! ### Victims -/

/-- The key of the history: how often since the last load, and when last. -/
def use (past : List (Page × Result)) (q : Page) : ℕ ×ₗ ℕ :=
  toLex (sinceLoad past q, lastUse past q)

lemma Account.key_eq (h : Account n past s) (hi : i < n) (hp : (s.slots i).page ≠ -1) :
    key s i = use past (s.slots i).page := by
  rw [key, use, (h.known i hi hp).freq, (h.known i hi hp).lastTime]

/-- No two occupied slots have the same key. -/
lemma Account.use_inj {j : ℕ} (h : Account n past s) (hi : i < n) (hj : j < n)
    (hp : (s.slots i).page ≠ -1)
    (e : use past (s.slots i).page = use past (s.slots j).page) : i = j := by
  have hm : (s.slots i).page ∈ past.map Prod.fst :=
    (h.filled.mem i hi).resolve_right fun h => hp h.1
  have hdate : lastUse past (s.slots i).page = lastUse past (s.slots j).page :=
    (Prod.mk.inj (toLex.injective e)).2
  exact h.inj hi hj hp (lastAccess_inj hm hdate)

/-- **The victim of a fault**: an empty slot if there is one, else the slot whose page was
accessed least often since it was loaded, and least recently among these. -/
theorem victim_least (hn : 1 ≤ n) (hlen : past.length < maxTrace) (h : Account n past s)
    {v : ℕ} {size : ℤ} (hv : victim s = (some v, size)) :
    v < n ∧ ((∃ i < n, (s.slots i).page = -1) → (s.slots v).page = -1) ∧
      ((∀ i < n, (s.slots i).page ≠ -1) → ∀ i < n, i ≠ v →
        use past (s.slots v).page < use past (s.slots i).page) := by
  have hcap := h.cap
  have hsize := h.size_eq
  unfold victim at hv
  split_ifs at hv with hlt
  · obtain ⟨hv, hpage⟩ := find_eq_some hcap (Prod.mk.inj hv).1
    exact ⟨hv, fun _ => hpage, fun hall => absurd hpage (hall v hv)⟩
  · have hall : ∀ i < n, (s.slots i).page ≠ -1 := fun i hi =>
      ne_of_card_used (P := fun i => (s.slots i).page) (by omega) hi
    have hfreq := h.freq 0
    rw [List.length_map] at hfreq
    obtain ⟨v', hv', he, hle⟩ := leastUsed_least hn hcap (by
      simp only [maxTrace, intMax] at *
      omega)
    rw [he] at hv
    obtain rfl : v' = v := Option.some.inj (Prod.mk.inj hv).1
    refine ⟨hv', ?_, fun _ i hi hne => ?_⟩
    · rintro ⟨i, hi, e⟩
      exact absurd e (hall i hi)
    rw [← h.key_eq hv' (hall v' hv'), ← h.key_eq hi (hall i hi)]
    refine lt_of_le_of_ne (hle i hi) fun e => hne ?_
    rw [h.key_eq hv' (hall v' hv'), h.key_eq hi (hall i hi)] at e
    exact (h.use_inj hv' hi (hall v' hv') e).symm

/-- What an access after the history `past` does if it faults: it loads its page into a slot
of the cache, an empty one if there is one, else the one that is least in use. -/
def Replaces (n : ℕ) (past : List (Page × Result)) (s s' : State) (page : Page) : Prop :=
  ∃ v < n, (s'.slots v).page = page ∧ (∀ i ≠ v, s'.slots i = s.slots i) ∧
    ((∃ i < n, (s.slots i).page = -1) → (s.slots v).page = -1) ∧
    ((∀ i < n, (s.slots i).page ≠ -1) → ∀ i < n, i ≠ v →
      use past (s.slots v).page < use past (s.slots i).page)

lemma Account.replaces (hn : 1 ≤ n) (hlen : past.length < maxTrace) (h : Account n past s)
    (ha : lfuAccess s page = some (s', .fault)) : Replaces n past s s' page := by
  rcases access_cases ha with ⟨i, -, e, -⟩ | ⟨-, v, size, hv, -, rfl⟩
  · cases e
  · obtain ⟨h1, h2, h3⟩ := victim_least hn hlen h hv
    exact ⟨v, h1, by simp, fun i hi => by simp [faultState, hi], h2, h3⟩

/-! ### Whole runs -/

lemma lfu_account (s₀ : State) (hn : 1 ≤ n) (hn' : n ≤ maxFrames) {tr : List Page}
    (hlen : tr.length ≤ maxTrace) (hm : (-1 : Page) ∉ tr) :
    ∃ s s' os, lfuInit s₀ n = some s ∧ run lfuAccess s tr = some (s', os) ∧
      Account n (tr.zip os) s' := by
  obtain ⟨s, he, hs⟩ := account_init s₀ hn hn'
  obtain ⟨s', os, hrun, h⟩ := run_hist (I := Account n) tr hs fun past page s hp hi => by
    have hle := hp.length_le
    rw [List.length_append, List.length_map, List.length_singleton] at hle
    have hne : page ≠ -1 := by
      rintro rfl
      exact hm (hp.subset (by simp))
    exact account_step hn (by omega) hne hi
  exact ⟨s, s', os, he, hrun, h⟩

/-- **LFU counts accesses since the last load.** After every trace without the page -1 the
occupied slots hold different pages and `size` counts them, each with the number of accesses
to its page since it was last loaded and the number of the last one; and the next access, if
it faults, fills an empty slot or replaces the one slot where these two numbers are least. -/
theorem lfu_exact (s₀ : State) (n : ℕ) (hn : 1 ≤ n) (hn' : n ≤ maxFrames) (tr : List Page)
    (hlen : tr.length ≤ maxTrace) (hm : (-1 : Page) ∉ tr) :
    ∃ s s' os, lfuInit s₀ n = some s ∧ run lfuAccess s tr = some (s', os) ∧
      (∀ i < n, ∀ j < n, (s'.slots i).page ≠ -1 → (s'.slots i).page = (s'.slots j).page →
        i = j) ∧
      s'.size = (used (-1) n fun i => (s'.slots i).page).card ∧
      (∀ i < n, (s'.slots i).page ≠ -1 →
        ((s'.slots i).page, Result.fault) ∈ tr.zip os ∧
        (s'.slots i).freq = sinceLoad (tr.zip os) (s'.slots i).page ∧
        (s'.slots i).lastTime = lastAccess tr (s'.slots i).page) ∧
      ∀ page ≠ -1, tr.length < maxTrace → ∃ s'' r, lfuAccess s' page = some (s'', r) ∧
        (r = .fault → Replaces n (tr.zip os) s' s'' page) := by
  obtain ⟨s, s', os, he, hrun, h⟩ := lfu_account s₀ hn hn' hlen hm
  have hos := run_length hrun
  have hfst : (tr.zip os).map Prod.fst = tr := List.map_fst_zip hos.ge
  have hzip : (tr.zip os).length = tr.length := by rw [List.length_zip, hos, Nat.min_self]
  refine ⟨s, s', os, he, hrun, fun i hi j hj hp => h.inj hi hj hp, h.size_eq,
    fun i hi hp => ?_, fun page hp hlt => ?_⟩
  · obtain ⟨h1, h2, h3⟩ := h.known i hi hp
    rw [lastUse, hfst] at h3
    exact ⟨h1, h2, h3⟩
  · obtain ⟨s'', r, ha, -⟩ := account_step hn (hzip ▸ hlt) hp h
    refine ⟨s'', r, ha, ?_⟩
    rintro rfl
    exact h.replaces hn (hzip ▸ hlt) ha

/-- The theorem at one slot and a trace that evicts. -/
theorem lfu_exact_one :
    1 ≤ 1 ∧ 1 ≤ maxFrames ∧ [3, 3, 5].length ≤ maxTrace ∧ (-1 : Page) ∉ [3, 3, 5] ∧
      ∃ s s' os, lfuInit start 1 = some s ∧ run lfuAccess s [3, 3, 5] = some (s', os) ∧
        s'.size = (used (-1) 1 fun i => (s'.slots i).page).card := by
  have hm : (-1 : Page) ∉ [3, 3, 5] := by decide
  obtain ⟨s, s', os, h1, h2, -, h3, -⟩ :=
    lfu_exact start 1 le_rfl (by decide) [3, 3, 5] (by decide) hm
  exact ⟨le_rfl, by decide, by decide, hm, s, s', os, h1, h2, h3⟩

end Tempograph.LfuExact
