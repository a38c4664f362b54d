import Mathlib.Data.Nat.ModEq
import Tempograph.Renaming

/-!
The cyclic scan, at its worst.

A page of the scan comes back only when more other pages were accessed than there are frames.
On a trace like this LRU, LFU, ARC and SIEVE all do the same: they hold the last pages
accessed, as many as there are frames, and replace the oldest of them. So they never hit.
-/

namespace Tempograph.CyclicScan

open Common Recency Runs Sim CompulsoryMisses Renaming
open SieveReference (pg pg_inj pg_ne)

variable {n : ℕ} {tr past : List Page} {page q : Page}

/-- The last `n` accesses, latest first. -/
def lately (n : ℕ) (past : List Page) : List Page := past.reverse.take n

/-- No page is accessed again within the next `n` accesses, and -1 is not accessed. -/
def Scan (n : ℕ) (tr : List Page) : Prop :=
  ∀ past page, past ++ [page] <+: tr → page ∉ lately n past ∧ page ≠ -1

lemma Scan.init (h : Scan n (past ++ [page])) : Scan n past := fun p q hp =>
  h p q (hp.trans (List.prefix_append _ _))

lemma Scan.of_prefix (h : Scan n tr) (hp : past <+: tr) : Scan n past := fun p q hq =>
  h p q (hq.trans hp)

lemma Scan.last (h : Scan n (past ++ [page])) : page ∉ lately n past ∧ page ≠ -1 :=
  h past page (List.prefix_refl _)

lemma lately_snoc (hn : 1 ≤ n) (past : List Page) (page : Page) :
    lately n (past ++ [page]) = page :: past.reverse.take (n - 1) := by
  obtain ⟨m, rfl⟩ : ∃ m, n = m + 1 := ⟨n - 1, by omega⟩
  simp [lately]

/-- The last accesses by their numbers. -/
lemma mem_lately {j : ℕ} (h : past[j]? = some q) (hj : past.length ≤ j + n) :
    q ∈ lately n past := by
  obtain ⟨hlt, rfl⟩ := List.getElem?_eq_some_iff.mp h
  rw [lately, List.take_reverse, List.mem_reverse]
  refine List.mem_iff_getElem.mpr ⟨j - (past.length - n), ?_, ?_⟩
  · rw [List.length_drop]
    omega
  · rw [List.getElem_drop]
    congr 1
    omega

lemma eq_faults {os : List Result} (hlen : os.length = tr.length)
    (h : ∀ k, k < tr.length → ∀ hk' : k < os.length, os[k] = .fault) :
    os = List.replicate tr.length .fault := by
  rw [List.eq_replicate_iff]
  refine ⟨hlen, fun r hr => ?_⟩
  obtain ⟨k, hk, rfl⟩ := List.mem_iff_getElem.mp hr
  exact h k (by omega) hk

/-! ### LRU -/

/-- The recency list begins with the last accesses. -/
lemma take_recency (hn : 1 ≤ n) (h : Scan n past) : (recency past).take n = lately n past := by
  induction past using List.reverseRecOn with
  | nil => rfl
  | append_singleton past page ih =>
    obtain ⟨hnew, -⟩ := h.last
    obtain ⟨m, rfl⟩ : ∃ m, n = m + 1 := ⟨n - 1, by omega⟩
    rw [recency_snoc, take_touch, ih h.init, touch_of_not_mem hnew, lately_snoc hn]
    simp [lately, List.take_take]

lemma lru_faults (M : Malloc) (s₀ : Lru.State) (hn : 1 ≤ n) (h : Scan n tr) :
    ∃ s, run (Lru.lruAccess M) (Lru.lruInit s₀ n) tr =
      some (s, List.replicate tr.length .fault) := by
  obtain ⟨s, os, hrun, -, hos⟩ := LruExact.lru_run M s₀ hn tr
  refine ⟨s, ?_⟩
  rw [hrun, eq_faults (run_length hrun) fun k hk hk' => ?_]
  have hp : tr.take k ++ [tr[k]] <+: tr := by
    rw [List.take_append_getElem hk]
    exact List.take_prefix _ _
  have hhit := hos k hk hk'
  rw [take_recency hn (h.of_prefix (List.take_prefix k tr))] at hhit
  cases hr : os[k] with
  | fault => rfl
  | hit => exact absurd (hhit.mp hr) (h _ _ hp).1

/-! ### ARC -/

/-- `T1` holds the last accesses, and the other lists stay empty. -/
lemma arc_after (hn : 1 ≤ n) (h : Scan n past) :
    ArcRuns.after n past = ⟨lately n past, [], [], [], 0⟩ ∧
      results (ArcLists.Cache.access n) ArcLists.Cache.empty past =
        List.replicate past.length false := by
  induction past using List.reverseRecOn with
  | nil => exact ⟨by simp [lately, ArcLists.Cache.empty], rfl⟩
  | append_singleton past page ih =>
    obtain ⟨hafter, hres⟩ := ih h.init
    obtain ⟨hnew, -⟩ := h.last
    have hlen : (lately n past).length = min n past.length := by simp [lately]
    have haccess : ArcLists.Cache.access n ⟨lately n past, [], [], [], 0⟩ page =
        (⟨lately n (past ++ [page]), [], [], [], 0⟩, false) := by
      simp only [ArcLists.Cache.access, if_neg hnew, List.not_mem_nil, if_false,
        ArcLists.Cache.makeRoom, List.length_nil, Nat.add_zero, ArcLists.Cache.dir,
        List.append_nil, hlen, lately_snoc hn]
      rcases Nat.lt_or_ge past.length n with hlt | hge
      · -- the cache is not full yet
        have h1 : ¬min n past.length = n := by omega
        have h2 : ¬(min n past.length < n ∧ n ≤ min n past.length) := by omega
        simp only [if_neg h1, if_neg h2]
        rw [lately, List.take_of_length_le (by simpa using hlt.le),
          List.take_of_length_le (by simp; omega)]
      · have h1 : min n past.length = n := by omega
        have h2 : ¬n < n := by omega
        simp only [h1, if_true, if_neg h2]
        rw [lately, List.dropLast_eq_take, List.take_take, List.length_take, List.length_reverse,
          h1, Nat.min_eq_left (Nat.sub_le n 1)]
    refine ⟨by rw [ArcRuns.after_snoc, hafter, haccess], ?_⟩
    have hfinal : final (ArcLists.Cache.access n) ArcLists.Cache.empty past =
        ArcRuns.after n past := rfl
    rw [results_append, hres, hfinal, hafter, results, haccess, List.length_append,
      List.length_singleton, List.replicate_succ']
    rfl

lemma arc_faults (M : Malloc) (s₀ : Arc.State) (hn : 1 ≤ n) (h : Scan n tr) :
    ∃ s, run (Arc.arcAccess M) (Arc.arcInit s₀ n) tr =
      some (s, List.replicate tr.length .fault) := by
  obtain ⟨s, nd, hrun, -⟩ := ArcRuns.run_after M s₀ hn tr
  rw [(arc_after hn h).2, List.map_replicate] at hrun
  exact ⟨s, hrun⟩

/-! ### SIEVE -/

section Sieve

open Sieve SieveQueue SecondChance

/-- The queue after a scan: empty slots and the last accesses, oldest first, with no bit
set. -/
def order (n : ℕ) (past : List Page) : List Entry :=
  ((List.replicate n (-1) ++ past).drop past.length).map fun p => (p, false)

lemma mem_order (h : page ∈ (order n past).map Prod.fst) : page = -1 ∨ page ∈ lately n past := by
  simp only [order, List.map_map, Function.comp_def, List.map_id', List.drop_append,
    List.length_replicate, List.mem_append, List.drop_replicate, List.mem_replicate] at h
  rcases h with h | h
  · exact Or.inl h.2
  · right
    rwa [lately, List.take_reverse, List.mem_reverse]

lemma order_access (hn : 1 ≤ n) (hnew : page ∉ lately n past) (hp : page ≠ -1) :
    access (order n past) page = (order n (past ++ [page]), .fault) := by
  have hnot : page ∉ (order n past).map Prod.fst := fun hm => (mem_order hm).elim hp hnew
  have hlen : past.length < (List.replicate n (-1) ++ past).length := by simp; omega
  have hcons : order n past = ((List.replicate n (-1) ++ past)[past.length], false) ::
      ((List.replicate n (-1) ++ past).drop (past.length + 1)).map fun p => (p, false) := by
    rw [order, List.drop_eq_getElem_cons hlen, List.map_cons]
  have hnext : order n (past ++ [page]) =
      ((List.replicate n (-1) ++ past).drop (past.length + 1)).map (fun p => (p, false)) ++
        [(page, false)] := by
    rw [order, List.length_append, List.length_singleton, ← List.append_assoc,
      List.drop_append_of_le_length hlen, List.map_append]
    rfl
  rw [access, if_neg hnot, hcons, settle_unset, List.tail_cons, hnext]

lemma sieve_faults (s₀ : State) (hn : 1 ≤ n) (hn' : n ≤ maxFrames) (h : Scan n tr) :
    ∃ s s', sieveInit s₀ n = some s ∧
      run sieveAccess s tr = some (s', List.replicate tr.length .fault) := by
  obtain ⟨s, he, hs⟩ := holds_init hn hn' s₀
  have h0 : Holds n s (order n []) := by simpa [order] using hs
  obtain ⟨s', os, hrun, -, hos⟩ := run_spec (I := fun past s => Holds n s (order n past))
    (O := fun _ _ r => r = Result.fault) tr h0 fun past page s hp hi => by
      obtain ⟨hnew, hne⟩ := h past page hp
      have hstep := holds_step hi hne
      rw [order_access hn hnew hne] at hstep
      obtain ⟨s', ha, hi'⟩ := hstep
      exact ⟨s', Result.fault, ha, hi', rfl⟩
  exact ⟨s, s', he, by rw [hrun, eq_faults (run_length hrun) hos]⟩

end Sieve

/-! ### LFU -/

lemma mod_ne {j k : ℕ} (h : j < k) (hk : k < j + n) : j % n ≠ k % n := by
  intro e
  have hle := Nat.le_of_dvd (by omega) ((Nat.modEq_iff_dvd' h.le).mp e)
  omega

section Lfu

open Lfu LfuSteps

variable {s : State}

/-- The slots are filled in turn, and every count is one. -/
structure Tied (n : ℕ) (past : List Page) (s : State) : Prop where
  cap : s.cap = n
  clock : s.lfuClock = past.length
  size : s.size = (min past.length n : ℕ)
  free : ∀ i < n, past.length ≤ i → (s.slots i).page = -1
  held : ∀ j q, past[j]? = some q → past.length ≤ j + n → s.slots (j % n) = ⟨q, 1, j + 1⟩

lemma tied_init (s₀ : State) (hn' : n ≤ maxFrames) :
    ∃ s, lfuInit s₀ n = some s ∧ Tied n [] s := by
  refine ⟨_, lfuInit_eq hn' s₀, rfl, rfl, by simp [initState], fun _ _ _ => rfl, ?_⟩
  intro j q hj
  simp at hj

/-- The access that filled an occupied slot. -/
lemma Tied.slot (h : Tied n past s) {i : ℕ} (hi : i < n) (hi' : i < past.length) :
    ∃ j q, past[j]? = some q ∧ past.length ≤ j + n ∧ j % n = i ∧ s.slots i = ⟨q, 1, j + 1⟩ := by
  have hdiv := Nat.div_add_mod (past.length - 1 - i) n
  have hmod := Nat.mod_lt (past.length - 1 - i) (show 0 < n by omega)
  obtain ⟨j, hj⟩ : ∃ j, j = i + n * ((past.length - 1 - i) / n) := ⟨_, rfl⟩
  have hlt : j < past.length := by omega
  have hji : j % n = i := by rw [hj, Nat.add_mul_mod_self_left, Nat.mod_eq_of_lt hi]
  have hget : past[j]? = some past[j] := List.getElem?_eq_getElem hlt
  exact ⟨j, past[j], hget, by omega, hji, hji ▸ h.held j _ hget (by omega)⟩

lemma Tied.find (h : Tied n past s) (hnew : page ∉ lately n past) (hp : page ≠ -1) :
    find s page = none := by
  cases hf : Lfu.find s page with
  | none => rfl
  | some i =>
    exfalso
    obtain ⟨hi, he⟩ := find_eq_some h.cap hf
    rcases Nat.lt_or_ge i past.length with hlt | hge
    · obtain ⟨j, q, hq, hj, -, hs⟩ := h.slot hi hlt
      rw [hs] at he
      exact hnew (he ▸ mem_lately hq hj)
    · exact hp (he ▸ h.free i hi hge)

/-- **The victim** is the next empty slot, or the slot filled longest ago. -/
lemma Tied.victim (hn : 1 ≤ n) (h : Tied n past s) (hm : (-1 : Page) ∉ past) :
    victim s = (some (past.length % n), ((min (past.length + 1) n : ℕ) : ℤ)) := by
  have hsize := h.size
  have hcap := h.cap
  unfold Lfu.victim
  rcases Nat.lt_or_ge past.length n with hlt | hge
  · have hfind : Lfu.find s (-1) = some past.length := by
      rw [Lfu.find, hcap, Int.toNat_natCast, List.find?_range_eq_some]
      refine ⟨by simpa using h.free _ hlt le_rfl, List.mem_range.mpr hlt, fun i hi => ?_⟩
      obtain ⟨j, q, hq, -, -, hs⟩ := h.slot (hi.trans hlt) hi
      have hne : q ≠ -1 := fun e => hm (e ▸ List.mem_of_getElem? hq)
      simpa [hs] using hne
    rw [if_pos (by omega), hfind, Nat.mod_eq_of_lt hlt, Prod.mk.injEq]
    exact ⟨rfl, by omega⟩
  · have hfreq : (s.slots 0).freq < intMax := by
      obtain ⟨j, q, -, -, -, hs⟩ := h.slot (show 0 < n by omega) (by omega)
      rw [hs]
      show 1 < intMax
      decide
    obtain ⟨v, hv, he, hle⟩ := leastUsed_least hn hcap hfreq
    obtain ⟨j, q, -, hj, hjv, hs⟩ := h.slot hv (by omega)
    -- the oldest of the accesses still held
    have hold := h.held (past.length - n) _ (List.getElem?_eq_getElem (by omega)) (by omega)
    have hkey := hle _ (Nat.mod_lt (past.length - n) (by omega))
    rw [key, key, hs, hold, Prod.Lex.toLex_le_toLex] at hkey
    have hjn : j = past.length - n := by
      rcases hkey with hk | hk
      · exact absurd hk (lt_irrefl 1)
      · have := hk.2
        simp only at this
        omega
    have hvn : v = past.length % n := by rw [← hjv, hjn, ← Nat.mod_eq_sub_mod hge]
    rw [if_neg (by omega), he, hvn, Prod.mk.injEq]
    exact ⟨rfl, by omega⟩

lemma Tied.access (hn : 1 ≤ n) (h : Tied n past s) (hm : (-1 : Page) ∉ past)
    (hnew : page ∉ lately n past) (hp : page ≠ -1) :
    ∃ s', lfuAccess s page = some (s', .fault) ∧ Tied n (past ++ [page]) s' := by
  have hlength : (past ++ [page]).length = past.length + 1 := by simp
  refine ⟨_, access_fault (h.find hnew hp) (h.victim hn hm), h.cap, ?_, by rw [hlength]; rfl,
    fun i hi hle => ?_, fun j q hj hle => ?_⟩
  · rw [hlength, ← h.clock]
    rfl
  · rw [hlength] at hle
    have hne : i ≠ past.length % n := by
      rw [Nat.mod_eq_of_lt (by omega)]
      omega
    rw [faultState_page, if_neg hne]
    exact h.free i hi (by omega)
  · rw [hlength] at hle
    have hlt : j < past.length + 1 := by
      rw [← hlength]
      exact (List.getElem?_eq_some_iff.mp hj).1
    rcases Nat.lt_or_ge j past.length with hjlt | hge
    · rw [List.getElem?_append_left hjlt] at hj
      have hne : j % n ≠ past.length % n := mod_ne hjlt (by omega)
      simp only [faultState, Function.update_of_ne hne]
      exact h.held j q hj (by omega)
    · obtain rfl : j = past.length := by omega
      obtain rfl : page = q := by simpa using hj
      simp only [faultState, Function.update_self, h.clock]

lemma lfu_faults (s₀ : State) (hn : 1 ≤ n) (hn' : n ≤ maxFrames) (h : Scan n tr) :
    ∃ s s', lfuInit s₀ n = some s ∧
      run lfuAccess s tr = some (s', List.replicate tr.length .fault) := by
  obtain ⟨s, he, hs⟩ := tied_init s₀ hn'
  obtain ⟨s', os, hrun, -, hos⟩ := run_spec
    (I := fun past s => Tied n past s ∧ (-1 : Page) ∉ past)
    (O := fun _ _ r => r = Result.fault) tr ⟨hs, List.not_mem_nil⟩ fun past page s hp hi => by
      obtain ⟨hnew, hne⟩ := h past page hp
      obtain ⟨s', ha, hi'⟩ := hi.1.access hn hi.2 hnew hne
      refine ⟨s', Result.fault, ha, ⟨hi', ?_⟩, rfl⟩
      rw [List.mem_append, List.mem_singleton, not_or]
      exact ⟨hi.2, hne.symm⟩
  exact ⟨s, s', he, by rw [hrun, eq_faults (run_length hrun) hos]⟩

end Lfu

/-! ### The scan that `gen_scan` writes -/

/-- The pages `i % n_pages`. -/
def genScan (len n_pages : ℕ) : List Page := (List.range len).map fun i => pg (i % n_pages)

@[simp] lemma genScan_length (len n_pages : ℕ) : (genScan len n_pages).length = len := by
  simp [genScan]

lemma genScan_prefix {len n_pages : ℕ} (h : past ++ [page] <+: genScan len n_pages) :
    past.length < len ∧ past = genScan past.length n_pages ∧
      page = pg (past.length % n_pages) := by
  have hlt : past.length < len := by
    have := h.length_le
    rw [List.length_append, List.length_singleton, genScan_length] at this
    omega
  have htake : past ++ [page] = genScan (past.length + 1) n_pages := by
    rw [List.prefix_iff_eq_take.mp h, genScan, genScan, ← List.map_take, List.take_range,
      List.length_append, List.length_singleton, Nat.min_eq_left hlt]
  rw [genScan, List.range_succ, List.map_append, List.map_singleton] at htake
  obtain ⟨h1, h2⟩ := List.append_inj htake (by simp)
  exact ⟨hlt, h1, (List.cons.inj h2).1⟩

lemma scan_genScan {N L : ℕ} (hN : n < N) (hL : L ≤ maxTrace) : Scan n (genScan L N) := by
  intro past page hp
  obtain ⟨hlt, hpast, rfl⟩ := genScan_prefix hp
  have hbound : ∀ k ≤ past.length, k % N < 2 ^ 31 := fun k hk => by
    have := Nat.mod_le k N
    simp only [maxTrace] at hL
    omega
  refine ⟨fun hm => ?_, pg_ne (hbound _ le_rfl)⟩
  rw [lately, List.take_reverse, List.mem_reverse, hpast, genScan, List.length_map,
    List.length_range, ← List.map_drop] at hm
  obtain ⟨j, hj, e⟩ := List.mem_map.mp hm
  rw [List.mem_iff_getElem] at hj
  obtain ⟨i, hi, rfl⟩ := hj
  rw [List.length_drop, List.length_range] at hi
  rw [List.getElem_drop, List.getElem_range] at e
  exact mod_ne (by omega) (by omega) (pg_inj (hbound _ (by omega)) (hbound _ le_rfl) e)

/-- **The cyclic scan is the worst case** of LRU, LFU, ARC and SIEVE alike: over more pages
than there are frames every access is a fault. -/
theorem scan_faults (M : Malloc) (σ : Statics) (c N L : ℕ) (hc : 1 ≤ c) (hc' : c ≤ maxFrames)
    (hN : c < N) (hL : L ≤ maxTrace) (W : ℤ) :
    ∀ algo ∈ [Algo.lru, Algo.lfu, Algo.arc, Algo.sieve],
      answers M σ algo c W (genScan L N) = some (List.replicate L .fault) := by
  have h := scan_genScan hN hL
  have hlen := genScan_length L N
  intro algo ha
  cases algo with
  | lru =>
    obtain ⟨s, hrun⟩ := lru_faults M σ.lru hc h
    rw [answers_lru, outputs_eq hrun, hlen]
  | lfu =>
    obtain ⟨s, s', he, hrun⟩ := lfu_faults σ.lfu hc hc' h
    rw [answers_lfu he, outputs_eq hrun, hlen]
  | arc =>
    obtain ⟨s, hrun⟩ := arc_faults M σ.arc hc h
    rw [answers_arc, outputs_eq hrun, hlen]
  | tempograph => simp at ha
  | sieve =>
    obtain ⟨s, s', he, hrun⟩ := sieve_faults σ.sieve hc hc' h
    rw [answers_sieve he, outputs_eq hrun, hlen]

/-- A scan over three pages with two frames. -/
theorem scan_faults_two :
    answers Malloc.above start .arc 2 10 (genScan 7 3) = some (List.replicate 7 .fault) :=
  scan_faults Malloc.above start 2 3 7 (by decide) (by decide) (by decide) (by decide) 10 .arc
    (by decide)

end Tempograph.CyclicScan
