import Tempograph.ArcDirectory
import Tempograph.LfuSteps
import Tempograph.LruExact
import Tempograph.Sim
import Tempograph.SieveQueue
import Tempograph.Slots
import Tempograph.TgSafe

/-!
Compulsory misses.

The first access to a page is a fault and, if all pages fit, there are no others. Three of
the policies do so on every trace. The two that search slots for a page take an empty slot
for one that holds the page -1, so for them -1 must not come before the cache is full.
-/

namespace Tempograph.CompulsoryMisses

open Common Recency Runs Sim Slots

variable {M : Malloc} {n : ℕ} {tr past : List Page} {page : Page} {os : List Result} {r : Result}

/-- Faults at the first accesses and, if all pages fit, nowhere else. -/
structure Compulsory (n : ℕ) (tr : List Page) (os : List Result) : Prop where
  length : os.length = tr.length
  first : ∀ k (hk : k < tr.length) (hk' : k < os.length), tr[k] ∉ tr.take k → os[k] = .fault
  again : tr.toFinset.card ≤ n → ∀ k (hk : k < tr.length) (hk' : k < os.length),
    tr[k] ∈ tr.take k → os[k] = .hit
  count : tr.toFinset.card ≤ n → os.count .fault = tr.toFinset.card

/-- The result of one access after the trace `past`. -/
def Miss (n : ℕ) (past : List Page) (page : Page) (r : Result) : Prop :=
  (page ∉ past → r = .fault) ∧ (past.toFinset.card ≤ n → page ∈ past → r = .hit)

/-- Pages that differ have different indices. -/
def Incongruent (tr : List Page) : Prop :=
  ∀ p ∈ tr, ∀ q ∈ tr, TempoGraph.pageIdx p = TempoGraph.pageIdx q → p = q

/-- The page -1 comes after at least `n` distinct pages. -/
def Late (n : ℕ) (tr : List Page) : Prop :=
  ∀ past, past ++ [-1] <+: tr → n ≤ past.toFinset.card

/-- Faults at first accesses only are as many as there are pages. -/
lemma count_fault (hlen : os.length = tr.length)
    (h : ∀ k (hk : k < tr.length) (hk' : k < os.length),
      os[k] = if tr[k] ∈ tr.take k then .hit else .fault) :
    os.count .fault = tr.toFinset.card := by
  induction tr using List.reverseRecOn generalizing os with
  | nil => simp at hlen; simp [hlen]
  | append_singleton tr page ih =>
    obtain ⟨os, o, rfl⟩ : ∃ os' o, os = os' ++ [o] := by
      rcases List.eq_nil_or_concat os with rfl | ⟨os', o, rfl⟩
      · simp at hlen
      · exact ⟨os', o, List.concat_eq_append⟩
    have hlen : os.length = tr.length := by simpa using hlen
    have hrest := ih hlen fun k hk hk' => by
      have := h k (by simp; omega) (by simp; omega)
      rwa [List.getElem_append_left hk, List.getElem_append_left hk',
        List.take_append_of_le_length hk.le] at this
    have hlast := h tr.length (by simp) (by simp [hlen])
    simp only [List.getElem_append_right, hlen, le_refl, Nat.sub_self, List.getElem_singleton,
      List.take_left] at hlast
    rw [List.count_append, hrest, card_snoc, hlast]
    split_ifs <;> simp

lemma compulsory_of_steps (hlen : os.length = tr.length)
    (h : ∀ k (hk : k < tr.length) (hk' : k < os.length), Miss n (tr.take k) tr[k] os[k]) :
    Compulsory n tr os := by
  have hcard : ∀ k, (tr.take k).toFinset.card ≤ tr.toFinset.card := fun k =>
    Finset.card_le_card fun x hx => by
      rw [List.mem_toFinset] at hx ⊢
      exact List.mem_of_mem_take hx
  refine ⟨hlen, fun k hk hk' => (h k hk hk').1, fun hc k hk hk' =>
    (h k hk hk').2 ((hcard k).trans hc), fun hc => count_fault hlen fun k hk hk' => ?_⟩
  split_ifs with hm
  · exact (h k hk hk').2 ((hcard k).trans hc) hm
  · exact (h k hk hk').1 hm

/-! ### The policies with a recency list or a directory -/

lemma lru_compulsory (M : Malloc) (s₀ : Lru.State) (hn : 1 ≤ n) (tr : List Page) :
    ∃ s os, run (Lru.lruAccess M) (Lru.lruInit s₀ n) tr = some (s, os) ∧ Compulsory n tr os := by
  obtain ⟨s, os, hrun, -, hos⟩ := LruExact.lru_run M s₀ hn tr
  refine ⟨s, os, hrun, compulsory_of_steps (run_length hrun) fun k hk hk' => ?_⟩
  have hiff := hos k hk hk'
  constructor
  · intro hm
    cases he : os[k] with
    | hit => exact absurd (mem_recency.mp (List.mem_of_mem_take (hiff.mp he))) hm
    | fault => rfl
  · intro hc hm
    rw [hiff, List.take_of_length_le (by rwa [length_recency])]
    exact mem_recency.mpr hm

lemma arc_compulsory (M : Malloc) (s₀ : Arc.State) (hn : 1 ≤ n) (tr : List Page) :
    ∃ s os, run (Arc.arcAccess M) (Arc.arcInit s₀ n) tr = some (s, os) ∧
      Compulsory n tr os := by
  obtain ⟨s, os, hrun, -, hos⟩ := run_spec (I := ArcDirectory.Inv n) (O := Miss n) tr
    (ArcDirectory.inv_init s₀ n) fun past page s _ hi => by
      obtain ⟨s', r, he, hi', -⟩ := ArcDirectory.inv_step M hn hi page
      exact ⟨s', r, he, hi', hi.result hn he⟩
  exact ⟨s, os, hrun, compulsory_of_steps (run_length hrun) hos⟩

/-! ### TempoGraph -/

section TempoGraph

open TempoGraph TgSafe

/-- The resident indices are those seen, as long as they fit. -/
structure Seen (n : ℕ) (past : List Page) (s : State) : Prop where
  safe : Safe n s
  seen : ∀ i, s.inFrames i = true → i ∈ past.map pageIdx
  kept : (past.map pageIdx).toFinset.card ≤ n → (∀ i ∈ past.map pageIdx, s.inFrames i = true) ∧
    s.size = (past.map pageIdx).toFinset.card

lemma seen_init (s₀ : State) (hn : n ≤ maxFrames) (W : ℤ) :
    ∃ s, tgInit s₀ n W = some s ∧ Seen n [] s := by
  obtain ⟨s, he, hs⟩ := safe_init s₀ hn W
  refine ⟨s, he, ?_⟩
  rw [tgInit_eq s₀ hn] at he
  obtain rfl := Option.some.inj he
  exact ⟨hs, by simp [tgReset], fun _ => ⟨by simp, rfl⟩⟩

lemma Seen.fault {s : State} {v : ℕ} (h : Seen n past s) (hv : v < n)
    (hfree : s.size < n → s.frames v = -1) (hin : s.inFrames (pageIdx page) = false) :
    Seen n (past ++ [page]) (faultState s v page) := by
  refine ⟨h.safe.fault hv page, fun i hi => ?_, fun hc => ?_⟩
  · rw [List.map_append, List.mem_append]
    by_cases e : i = pageIdx page
    · right; simp [e]
    · simp only [faultState, Function.update_of_ne e] at hi
      exact Or.inl (h.seen i (evict_frameOf s v i hi).1)
  · rw [List.map_append, List.map_singleton, card_snoc] at hc ⊢
    have hle : (past.map pageIdx).toFinset.card ≤ n := by split_ifs at hc <;> omega
    obtain ⟨hall, hsize⟩ := h.kept hle
    have hnew : pageIdx page ∉ past.map pageIdx := fun hm => by
      rw [hall _ hm] at hin
      cases hin
    rw [if_neg hnew] at hc ⊢
    have hcap := h.safe.cap
    have hev : evict s v = s := by simp [evict, hfree (by omega)]
    refine ⟨fun i hi => ?_, ?_⟩
    · simp only [faultState, hev, Function.update_apply]
      split_ifs with e
      · rfl
      · exact hall i (by simpa [e] using hi)
    · simp only [faultState]
      rw [if_pos (by omega)]
      omega

lemma seen_step {s : State} (hn : 1 ≤ n) (hinc : Incongruent (past ++ [page]))
    (h : Seen n past s) : ∃ s' r, tgAccess s page = some (s', r) ∧ Seen n (past ++ [page]) s' ∧
      Miss n past page r := by
  have hmem : pageIdx page ∈ past.map pageIdx → page ∈ past := fun hm => by
    obtain ⟨q, hq, e⟩ := List.mem_map.mp hm
    exact hinc q (by simp [hq]) page (by simp) e ▸ hq
  have hcard := card_toFinset_map_le pageIdx past
  rw [access_eq]
  split_ifs with hin
  · obtain ⟨f, hf, he⟩ := h.safe.table _ hin
    have hidx := h.seen _ hin
    refine ⟨_, _, by rw [he]; rfl, ⟨h.safe.hit hf _, fun i hi => ?_, fun hc => ?_⟩,
      fun hm => absurd (hmem hidx) hm, fun _ _ => rfl⟩
    · rw [List.map_append]
      exact List.mem_append_left _ (h.seen i hi)
    · rw [List.map_append, List.map_singleton, card_snoc, if_pos hidx] at hc ⊢
      obtain ⟨hall, hsize⟩ := h.kept hc
      refine ⟨fun i hi => ?_, hsize⟩
      rcases List.mem_append.mp hi with hi | hi
      · exact hall i hi
      · exact (List.mem_singleton.mp hi) ▸ hin
  · have hin : s.inFrames (pageIdx page) = false := by simpa using hin
    obtain ⟨v, hv, he, hfree, -⟩ := chooseVictim_spec hn (h.safe.prepare (pageIdx page))
    refine ⟨_, _, by rw [he]; rfl, h.fault hv hfree hin, fun _ => rfl, fun hc hm => ?_⟩
    rw [(h.kept (hcard.trans hc)).1 _ (List.mem_map_of_mem hm)] at hin
    cases hin

lemma tg_compulsory (s₀ : State) (hn : 1 ≤ n) (hn' : n ≤ maxFrames) (W : ℤ)
    (hinc : Incongruent tr) : ∃ s s' os, tgInit s₀ n W = some s ∧
      run tgAccess s tr = some (s', os) ∧ Compulsory n tr os := by
  obtain ⟨s, he, hs⟩ := seen_init s₀ hn' W
  obtain ⟨s', os, hrun, -, hos⟩ := run_spec (I := Seen n) (O := Miss n) tr hs
    fun past page s hp hi => seen_step hn (fun p hp' q hq' =>
      hinc p (hp.subset hp') q (hp.subset hq')) hi
  exact ⟨s, s', os, he, hrun, compulsory_of_steps (run_length hrun) hos⟩

end TempoGraph

/-! ### The policies that search slots -/

lemma miss_of_filled {P : ℕ → Page} (hf : Filled (-1) n past P)
    (hx : past.toFinset.card < n → page ≠ -1) (hr : r = .hit ↔ Held n P page) :
    Miss n past page r := by
  constructor
  · intro hm
    cases r with
    | hit => exact absurd (hf.mem_of_held hx (hr.mp rfl)) hm
    | fault => rfl
  · exact fun hc hm => hr.mpr (hf.held hc page hm)

lemma Late.ne_mark (h : Late n tr) (hp : past ++ [page] <+: tr) :
    past.toFinset.card < n → page ≠ -1 := by
  rintro hlt rfl
  have := h past hp
  omega

section Lfu

open Lfu LfuSteps

/-- The slots, the counter and the clock after the trace `past`. -/
structure LfuInv (n : ℕ) (past : List Page) (s : State) : Prop where
  filled : Filled (-1) n past fun i => (s.slots i).page
  cap : s.cap = n
  size : s.size = (min past.toFinset.card n : ℕ)
  clock : s.lfuClock = past.length
  freq : ∀ i, (s.slots i).freq ≤ past.length

lemma lfu_init (s₀ : State) (hn : 1 ≤ n) (hn' : n ≤ maxFrames) :
    ∃ s, lfuInit s₀ n = some s ∧ LfuInv n [] s :=
  ⟨_, lfuInit_eq hn' s₀, filled_nil hn fun _ _ => rfl, rfl, by simp [initState], rfl,
    fun _ => le_rfl⟩

/-- A fault has a victim, an empty slot while there is one, and the counter follows. -/
lemma victim_spec {s : State} (hn : 1 ≤ n) (hlen : past.length < maxTrace) (h : LfuInv n past s)
    (hnone : ¬Held n (fun i => (s.slots i).page) page) :
    ∃ v < n, victim s = (some v, ((min (past ++ [page]).toFinset.card n : ℕ) : ℤ)) ∧
      (past.toFinset.card < n → (s.slots v).page = -1) := by
  obtain ⟨hf, hcap, hsize, -, hfreq⟩ := h
  unfold victim
  rw [card_snoc]
  rcases Nat.lt_or_ge past.toFinset.card n with hlt | hge
  · have hmem : page ∉ past := fun hm => hnone (hf.held hlt.le page hm)
    obtain ⟨i, hi, he⟩ := hf.exists_empty hlt
    cases hfe : find s (-1) with
    | none => exact absurd ⟨i, hi, he⟩ (find_eq_none hcap hfe)
    | some v =>
      obtain ⟨hv, hve⟩ := find_eq_some hcap hfe
      refine ⟨v, hv, ?_, fun _ => hve⟩
      rw [if_pos (by omega), if_neg hmem, Prod.mk.injEq]
      exact ⟨rfl, by omega⟩
  · obtain ⟨v, hv, hl, -⟩ := leastUsed_least hn hcap (by
      have := hfreq 0
      simp only [maxTrace, intMax] at *
      omega)
    refine ⟨v, hv, ?_, fun hlt => absurd hlt (by omega)⟩
    rw [if_neg (by omega), hl, Prod.mk.injEq]
    exact ⟨rfl, by split_ifs <;> omega⟩

lemma lfu_step {s : State} (hn : 1 ≤ n) (hlen : past.length < maxTrace)
    (hx : past.toFinset.card < n → page ≠ -1) (h : LfuInv n past s) :
    ∃ s' r, lfuAccess s page = some (s', r) ∧ LfuInv n (past ++ [page]) s' ∧
      (r = .hit ↔ Held n (fun i => (s.slots i).page) page) := by
  obtain ⟨hf, hcap, hsize, hclock, hfreq⟩ := id h
  have hlength : (past ++ [page]).length = past.length + 1 := by simp
  cases hfi : find s page with
  | none =>
    have hnone := find_eq_none hcap hfi
    obtain ⟨v, hv, hvic, hfree⟩ := victim_spec hn hlen h hnone
    refine ⟨_, .fault, access_fault hfi hvic, ⟨?_, hcap, rfl, ?_, fun j => ?_⟩,
      iff_of_false (by simp) hnone⟩
    · exact hf.step hx (.fault v hnone hv hfree fun i _ => faultState_page _ _ _ _ i)
    · rw [hlength, ← hclock]
      rfl
    · rw [hlength]
      exact faultState_freq hfreq _ _ _ j
  | some i =>
    obtain ⟨hi, hpage⟩ := find_eq_some hcap hfi
    have hheld : Held n (fun i => (s.slots i).page) page := ⟨i, hi, hpage⟩
    have hm := hf.mem_of_held hx hheld
    refine ⟨_, .hit, access_hit hfi, ⟨?_, hcap, ?_, ?_, fun j => ?_⟩, iff_of_true rfl hheld⟩
    · exact hf.step hx (.hit hheld fun j _ => hitState_page _ _ j)
    · rw [card_snoc, if_pos hm]
      exact hsize
    · rw [hlength, ← hclock]
      rfl
    · rw [hlength]
      exact hitState_freq hfreq _ j

lemma lfu_run (s₀ : State) (hn : 1 ≤ n) (hn' : n ≤ maxFrames) (hlen : tr.length ≤ maxTrace)
    (hl : Late n tr) : ∃ s s' os, lfuInit s₀ n = some s ∧ run lfuAccess s tr = some (s', os) ∧
      LfuInv n tr s' ∧ Compulsory n tr os := by
  obtain ⟨s, he, hs⟩ := lfu_init s₀ hn hn'
  obtain ⟨s', os, hrun, hi, hos⟩ := run_spec (I := LfuInv n) (O := Miss n) tr hs
    fun past page s hp hi => by
      have hx := hl.ne_mark hp
      have := hp.length_le
      simp only [List.length_append, List.length_singleton] at this
      obtain ⟨s', r, ha, hi', hr⟩ := lfu_step hn (by omega) hx hi
      exact ⟨s', r, ha, hi', miss_of_filled hi.filled hx hr⟩
  exact ⟨s, s', os, he, hrun, hi, compulsory_of_steps (run_length hrun) hos⟩

end Lfu

section Sieve

open Sieve SieveQueue

/-- The slots and the hand after the trace `past`. Until the cache is full the hand stands
at the first of the empty slots, none of which is marked as visited. -/
structure SieveInv (n : ℕ) (past : List Page) (s : State) : Prop where
  filled : Filled (-1) n past s.pages
  size : s.n = n
  hand : s.hand < n
  fresh : past.toFinset.card < n → s.hand = past.toFinset.card ∧
    ∀ i, s.hand ≤ i → i < n → s.pages i = -1 ∧ s.visited i = false

lemma sieve_init (s₀ : State) (hn : 1 ≤ n) (hn' : n ≤ maxFrames) :
    ∃ s, sieveInit s₀ n = some s ∧ SieveInv n [] s := by
  refine ⟨_, sieveInit_eq hn' s₀, filled_nil hn fun i hi => if_pos hi, rfl, hn,
    fun _ => ⟨rfl, fun i _ hi => ⟨if_pos hi, if_pos hi⟩⟩⟩

/-- While there are empty slots a fault takes the one under the hand. -/
lemma sieve_fill {s : State} (h : SieveInv n past s) (hlt : past.toFinset.card < n)
    (hp : page ≠ -1) : ∃ s' r, sieveAccess s page = some (s', r) ∧
      SieveInv n (past ++ [page]) s' ∧ (r = .hit ↔ Held n s.pages page) := by
  obtain ⟨hf, hn, hhand, hfresh⟩ := h
  obtain ⟨hcard, hempty⟩ := hfresh hlt
  have hx : past.toFinset.card < n → page ≠ -1 := fun _ => hp
  cases hfind : Sieve.find s page with
  | none =>
    have hnone : ¬Held n s.pages page := by
      rintro ⟨i, hi, e⟩
      exact find_none hfind i (by omega) e
    have hmem : page ∉ past := fun hm => hnone (hf.held hlt.le page hm)
    obtain ⟨hpage, hvis⟩ := hempty s.hand le_rfl hhand
    have hadv : advance (s.n + 1) s = some s := by simp [advance, hvis]
    have hn0 : s.n ≠ 0 := by omega
    refine ⟨replace s page, .fault, by simp only [sieveAccess, hfind, hadv, if_neg hn0],
      ⟨?_, hn, Nat.mod_lt _ (by omega) |>.trans_eq hn, fun hlt' => ?_⟩,
      iff_of_false (by simp) hnone⟩
    · exact hf.step hx (.fault s.hand hnone hhand (fun _ => hpage) fun i _ => by
        simp [Sieve.replace, Function.update_apply])
    · rw [card_snoc, if_neg hmem] at hlt' ⊢
      have hmod : (s.hand + 1) % s.n = s.hand + 1 := Nat.mod_eq_of_lt (by omega)
      refine ⟨by simp only [Sieve.replace, hmod]; omega, fun i hi hin => ?_⟩
      simp only [Sieve.replace, hmod] at hi ⊢
      rw [Function.update_of_ne (by omega), Function.update_of_ne (by omega)]
      exact hempty i (by omega) hin
  | some i =>
    obtain ⟨hi, hpage⟩ := find_some hfind
    have hheld : Held n s.pages page := ⟨i, by omega, hpage⟩
    have hm := hf.mem_of_held hx hheld
    refine ⟨visit s i, .hit, by simp only [sieveAccess, hfind],
      ⟨hf.step hx (.hit hheld fun _ _ => rfl), hn, hhand, fun hlt' => ?_⟩, iff_of_true rfl hheld⟩
    rw [card_snoc, if_pos hm]
    refine ⟨hcard, fun j hj hjn => ?_⟩
    -- the page that was hit stands before the hand
    have hji : j ≠ i := by
      rintro rfl
      exact hp (hpage ▸ (hempty j hj hjn).1)
    have hj := hempty j hj hjn
    exact ⟨hj.1, by simp only [visit]; rw [Function.update_of_ne hji]; exact hj.2⟩

/-- When the cache is full -1 is a page like any other. -/
lemma sieve_full {s : State} (h : SieveInv n past s) (hge : n ≤ past.toFinset.card)
    (page : Page) : ∃ s' r, sieveAccess s page = some (s', r) ∧
      SieveInv n (past ++ [page]) s' ∧ (r = .hit ↔ Held n s.pages page) := by
  obtain ⟨hf, hn, hhand, -⟩ := h
  have hx : past.toFinset.card < n → page ≠ -1 := fun hlt => absurd hlt (by omega)
  have honce : Once s page := fun i j hi hj e e' =>
    (hf.inj i (by omega) j (by omega) (e.trans e'.symm)).resolve_right fun h => by omega
  obtain ⟨s', he, -, hn', hhand', hcase⟩ := access_sim (by omega) honce
  have hmem : page ∈ (slots s).map Prod.fst ↔ Held n s.pages page := by
    rw [← hn]
    simp [slots, Circular.mem_ring (show 0 < s.n by omega), Held]
  have hfull : ¬(past ++ [page]).toFinset.card < n := by
    rw [card_snoc]; split_ifs <;> omega
  refine ⟨s', _, he, ⟨?_, hn'.trans hn, by omega, fun hlt => absurd hlt hfull⟩, ?_⟩
  · rcases hcase with ⟨⟨i, hi, e⟩, hpages⟩ | ⟨hnone, v, hv, hpages⟩
    · exact hf.step hx (.hit ⟨i, by omega, e⟩ fun j _ => by rw [hpages])
    · refine hf.step hx (.fault v ?_ (by omega) (fun hlt => absurd hlt (by omega)) fun j _ => ?_)
      · rintro ⟨i, hi, e⟩
        exact hnone i (by omega) e
      · rw [hpages, Function.update_apply]
  · rw [← hmem]
    unfold access
    split_ifs with hm <;> simp [hm]

lemma sieve_run (s₀ : State) (hn : 1 ≤ n) (hn' : n ≤ maxFrames) (hl : Late n tr) :
    ∃ s s' os, sieveInit s₀ n = some s ∧ run sieveAccess s tr = some (s', os) ∧
      SieveInv n tr s' ∧ Compulsory n tr os := by
  obtain ⟨s, he, hs⟩ := sieve_init s₀ hn hn'
  obtain ⟨s', os, hrun, hi, hos⟩ := run_spec (I := SieveInv n) (O := Miss n) tr hs
    fun past page s hp hi => by
      have hx := hl.ne_mark hp
      have hstep : ∃ s' r, sieveAccess s page = some (s', r) ∧
          SieveInv n (past ++ [page]) s' ∧ (r = .hit ↔ Held n s.pages page) := by
        rcases Nat.lt_or_ge past.toFinset.card n with hlt | hge
        · exact sieve_fill hi hlt (hx hlt)
        · exact sieve_full hi hge page
      obtain ⟨s', r, ha, hi', hr⟩ := hstep
      exact ⟨s', r, ha, hi', miss_of_filled hi.filled hx hr⟩
  exact ⟨s, s', os, he, hrun, hi, compulsory_of_steps (run_length hrun) hos⟩

end Sieve

/-! ### The five policies -/

/-- The replay of `tr` is defined, its misses are compulsory, and the simulation reports as
many faults as it has. -/
def Meets (M : Malloc) (σ : Statics) (algo : Algo) (n : ℕ) (W : ℤ) (tr : List Page) : Prop :=
  ∃ σ' os σ'', replay M σ algo n W tr = some (σ', os) ∧ Compulsory n tr os ∧
    runSim M σ algo n W tr = some (σ'', ⟨tr.length, os.count .fault⟩)

/-- The first access to -1 that comes too early. -/
lemma exists_early (h : ¬Late n tr) :
    ∃ past, past ++ [-1] <+: tr ∧ (-1 : Page) ∉ past ∧ past.toFinset.card < n := by
  simp only [Late, not_forall, not_le] at h
  obtain ⟨past, hp, hlt⟩ := h
  by_cases hm : (-1 : Page) ∈ past
  · obtain ⟨a, b, rfl, ha⟩ := List.eq_append_cons_of_mem hm
    refine ⟨a, List.IsPrefix.trans ⟨b ++ [-1], by simp⟩ hp, ha, lt_of_le_of_lt ?_ hlt⟩
    exact Finset.card_le_card fun x hx => by
      simp only [List.mem_toFinset, List.mem_append] at hx ⊢
      exact Or.inl hx
  · exact ⟨past, hp, hm, hlt⟩

lemma late_of_not_mem (h : (-1 : Page) ∉ tr) : Late n tr := fun past hp =>
  absurd (hp.subset (by simp)) h

/-- A first access that hits is no compulsory miss. -/
lemma not_compulsory_of_hit {S : Type*} {f : S → Page → Option (S × Result)} {s s' : S}
    (hrun : run f s tr = some (s', os)) (hp : past ++ [page] <+: tr) (hm : page ∉ past)
    (hhit : ∀ t os₁, run f s past = some (t, os₁) → ∃ t', f t page = some (t', .hit)) :
    ¬Compulsory n tr os := by
  intro hc
  obtain ⟨rest, rfl⟩ := hp
  rw [List.append_assoc] at hrun
  obtain ⟨t, os₁, os₂, h1, h2, rfl⟩ := run_append_inv hrun
  obtain ⟨t', r, os₃, h3, -, rfl⟩ := run_cons_inv h2
  obtain ⟨t'', h4⟩ := hhit t os₁ h1
  obtain ⟨-, rfl⟩ := Prod.mk.inj (Option.some.inj (h3.symm.trans h4))
  have hlen := run_length h1
  have hfault := hc.first past.length (by simp) (by simp [hlen]) (by simpa using hm)
  simp [hlen] at hfault

lemma lfu_hit {s : Lfu.State} (hcap : s.cap = n) (h : Held n (fun i => (s.slots i).page) page) :
    ∃ s', Lfu.lfuAccess s page = some (s', .hit) := by
  cases hf : Lfu.find s page with
  | none => exact absurd h (LfuSteps.find_eq_none hcap hf)
  | some i => exact ⟨_, LfuSteps.access_hit hf⟩

lemma sieve_hit {s : Sieve.State} (hn : s.n = n) (h : Held n s.pages page) :
    ∃ s', Sieve.sieveAccess s page = some (s', .hit) := by
  obtain ⟨i, hi, e⟩ := h
  cases hf : Sieve.find s page with
  | none => exact absurd e (SieveQueue.find_none hf i (by omega))
  | some j => exact ⟨_, by simp only [Sieve.sieveAccess, hf]; rfl⟩

variable {σ : Statics} {W : ℤ}

lemma replay_lru (M : Malloc) (σ : Statics) (n W : ℤ) (tr : List Page) :
    replay M σ .lru n W tr = (run (Lru.lruAccess M) (Lru.lruInit σ.lru n) tr).map
      fun p => ({ σ with lru := p.1 }, p.2) :=
  run_part (v := Statics.lru) (w := fun σ s => { σ with lru := s }) (fun _ _ => rfl)
    (fun _ _ _ => rfl) (fun _ => rfl) (fun _ _ => rfl) _ _

lemma replay_arc (M : Malloc) (σ : Statics) (n W : ℤ) (tr : List Page) :
    replay M σ .arc n W tr = (run (Arc.arcAccess M) (Arc.arcInit σ.arc n) tr).map
      fun p => ({ σ with arc := p.1 }, p.2) :=
  run_part (v := Statics.arc) (w := fun σ s => { σ with arc := s }) (fun _ _ => rfl)
    (fun _ _ _ => rfl) (fun _ => rfl) (fun _ _ => rfl) _ _

lemma replay_tg {s : TempoGraph.State} (h : TempoGraph.tgInit σ.tg n W = some s) :
    replay M σ .tempograph n W tr = (run TempoGraph.tgAccess s tr).map
      fun p => ({ σ with tg := p.1 }, p.2) := by
  simp only [replay, initAlgo, h, Option.map_some, Option.bind_some]
  exact run_part (v := Statics.tg) (w := fun σ s => { σ with tg := s }) (fun _ _ => rfl)
    (fun _ _ _ => rfl) (fun _ => rfl) (fun _ _ => rfl) _ _

lemma replay_lfu {s : Lfu.State} (h : Lfu.lfuInit σ.lfu n = some s) :
    replay M σ .lfu n W tr = (run Lfu.lfuAccess s tr).map
      fun p => ({ σ with lfu := p.1 }, p.2) := by
  simp only [replay, initAlgo, h, Option.map_some, Option.bind_some]
  exact run_part (v := Statics.lfu) (w := fun σ s => { σ with lfu := s }) (fun _ _ => rfl)
    (fun _ _ _ => rfl) (fun _ => rfl) (fun _ _ => rfl) _ _

lemma replay_sieve {s : Sieve.State} (h : Sieve.sieveInit σ.sieve n = some s) :
    replay M σ .sieve n W tr = (run Sieve.sieveAccess s tr).map
      fun p => ({ σ with sieve := p.1 }, p.2) := by
  simp only [replay, initAlgo, h, Option.map_some, Option.bind_some]
  exact run_part (v := Statics.sieve) (w := fun σ s => { σ with sieve := s }) (fun _ _ => rfl)
    (fun _ _ _ => rfl) (fun _ => rfl) (fun _ _ => rfl) _ _

lemma meets_of_replay {algo : Algo} {σ' : Statics} (h : replay M σ algo n W tr = some (σ', os))
    (hc : Compulsory n tr os) (hr : (resetAlgo σ' algo).isSome) : Meets M σ algo n W tr := by
  obtain ⟨σ'', hr⟩ := Option.isSome_iff_exists.mp hr
  exact ⟨σ', os, σ'', h, hc, by simp only [runSim, h, Option.bind_some, hr, Option.map_some]⟩

/-- LFU and SIEVE, with the page -1 late enough. -/
lemma meets_of_late (hn : 1 ≤ n) (hn' : n ≤ maxFrames) (hlen : tr.length ≤ maxTrace)
    (hl : Late n tr) : Meets M σ .lfu n W tr ∧ Meets M σ .sieve n W tr := by
  constructor
  · obtain ⟨s, s', os, hi, hrun, -, hc⟩ := lfu_run σ.lfu hn hn' hlen hl
    exact meets_of_replay (by rw [replay_lfu hi, hrun]; rfl) hc rfl
  · obtain ⟨s, s', os, hi, hrun, hinv, hc⟩ := sieve_run σ.sieve hn hn' hl
    have hreset := SieveQueue.sieveInit_eq (hinv.size.trans_le hn') s'
    refine meets_of_replay (by rw [replay_sieve hi, hrun]; rfl) hc ?_
    simp only [resetAlgo, Sieve.sieveReset, hreset, Option.map_some, Option.isSome_some]

/-- LFU and SIEVE, with an early access to the page -1. -/
lemma late_of_meets (hn : 1 ≤ n) (hn' : n ≤ maxFrames) (hlen : tr.length ≤ maxTrace)
    (h : Meets M σ .lfu n W tr ∨ Meets M σ .sieve n W tr) : Late n tr := by
  by_contra hl
  obtain ⟨past, hp, hm, hlt⟩ := exists_early hl
  have hpast : past.length ≤ maxTrace := by
    have := hp.length_le
    simp only [List.length_append] at this
    omega
  rcases h with ⟨σ', os, σ'', hr, hc, -⟩ | ⟨σ', os, σ'', hr, hc, -⟩
  · obtain ⟨s, t, os₁, hi, hrun, hinv, -⟩ := lfu_run σ.lfu hn hn' hpast (late_of_not_mem hm)
    rw [replay_lfu hi] at hr
    obtain ⟨⟨s', os'⟩, hr', e⟩ := Option.map_eq_some_iff.mp hr
    obtain ⟨-, rfl⟩ := Prod.mk.inj e
    refine not_compulsory_of_hit hr' hp hm (fun t' os₂ h2 => ?_) hc
    obtain ⟨rfl, -⟩ := Prod.mk.inj (Option.some.inj (hrun.symm.trans h2))
    exact lfu_hit hinv.cap (hinv.filled.exists_empty hlt)
  · obtain ⟨s, t, os₁, hi, hrun, hinv, -⟩ := sieve_run σ.sieve hn hn' (late_of_not_mem hm)
    rw [replay_sieve hi] at hr
    obtain ⟨⟨s', os'⟩, hr', e⟩ := Option.map_eq_some_iff.mp hr
    obtain ⟨-, rfl⟩ := Prod.mk.inj e
    refine not_compulsory_of_hit hr' hp hm (fun t' os₂ h2 => ?_) hc
    obtain ⟨rfl, -⟩ := Prod.mk.inj (Option.some.inj (hrun.symm.trans h2))
    exact sieve_hit hinv.size (hinv.filled.exists_empty hlt)

/-- LFU takes an empty slot for one that holds the page -1. -/
theorem lfu_hit_unseen : ¬ ∀ (n : ℕ) (W : ℤ) (tr : List Page), 1 ≤ n → n ≤ maxFrames →
    Incongruent tr → ∀ algo, Meets Malloc.above start algo n W tr := by
  intro h
  have hinc : Incongruent [-1] := by
    intro p hp q hq _
    rw [List.mem_singleton.mp hp, List.mem_singleton.mp hq]
  obtain ⟨σ', os, σ'', hr, hc, -⟩ := h 1 10 [-1] (by decide) (by decide) hinc .lfu
  have hval : (replay Malloc.above start .lfu ((1 : ℕ) : ℤ) 10 [-1]).map Prod.snd =
      some [.hit] := by decide
  rw [hr] at hval
  obtain rfl : os = [.hit] := Option.some.inj hval
  have := hc.first 0 (by decide) (by decide) (by decide)
  cases this

/-- **When all five policies agree on compulsory misses**: on a trace of pages with different
indices they do exactly if -1 is not accessed before `n` distinct pages. LRU, ARC and
TempoGraph do on every such trace, LFU and SIEVE each only then. -/
theorem compulsory_iff (M : Malloc) (σ : Statics) (n : ℕ) (hn : 1 ≤ n) (hn' : n ≤ maxFrames)
    (W : ℤ) (tr : List Page) (hlen : tr.length ≤ maxTrace) (hinc : Incongruent tr) :
    ((∀ algo, Meets M σ algo n W tr) ↔ Late n tr) ∧
      ∀ algo, Meets M σ algo n W tr ↔ (algo = .lfu ∨ algo = .sieve → Late n tr) := by
  have hiff : ∀ algo, Meets M σ algo n W tr ↔ (algo = .lfu ∨ algo = .sieve → Late n tr) := by
    intro algo
    cases algo with
    | lru =>
      obtain ⟨s, os, hrun, hc⟩ := lru_compulsory M σ.lru hn tr
      exact iff_of_true (meets_of_replay (by rw [replay_lru, hrun]; rfl) hc rfl) (by simp)
    | arc =>
      obtain ⟨s, os, hrun, hc⟩ := arc_compulsory M σ.arc hn tr
      exact iff_of_true (meets_of_replay (by rw [replay_arc, hrun]; rfl) hc rfl) (by simp)
    | tempograph =>
      obtain ⟨s, s', os, hi, hrun, hc⟩ := tg_compulsory σ.tg hn hn' W hinc
      exact iff_of_true (meets_of_replay (by rw [replay_tg hi, hrun]; rfl) hc rfl) (by simp)
    | lfu =>
      exact ⟨fun h _ => late_of_meets hn hn' hlen (Or.inl h),
        fun h => (meets_of_late hn hn' hlen (h (Or.inl rfl))).1⟩
    | sieve =>
      exact ⟨fun h _ => late_of_meets hn hn' hlen (Or.inr h),
        fun h => (meets_of_late hn hn' hlen (h (Or.inr rfl))).2⟩
  refine ⟨⟨fun h => (hiff .lfu).mp (h .lfu) (Or.inl rfl), fun hl algo => ?_⟩, hiff⟩
  exact (hiff algo).mpr fun _ => hl

/-- The theorem at one frame and a trace that asks for -1 late enough. -/
theorem compulsory_iff_one :
    1 ≤ 1 ∧ 1 ≤ maxFrames ∧ [7, (-1 : Page)].length ≤ maxTrace ∧ Incongruent [7, -1] ∧
      ∀ algo, Meets Malloc.above start algo 1 10 [7, -1] := by
  have hinc : Incongruent [7, -1] := by
    simp only [Incongruent, List.mem_cons, List.not_mem_nil, or_false, forall_eq_or_imp, forall_eq]
    decide
  have hlate : Late 1 [7, -1] := by
    intro past hp
    rcases past with _ | ⟨a, past⟩
    · simp at hp
    · exact Finset.card_pos.mpr ⟨a, by simp⟩
  exact ⟨le_rfl, by decide, by decide, hinc,
    (compulsory_iff Malloc.above start 1 le_rfl (by decide) 10 [7, -1] (by decide)
      hinc).1.mpr hlate⟩

end Tempograph.CompulsoryMisses
