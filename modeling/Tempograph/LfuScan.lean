import Tempograph.LfuExact

/-!
What LFU keeps of a scan.

A page that is hit has a count of two or more, and a page that is loaded has a count of one.
So accesses that all fault throw each other out: as long as some slot does not hold a page
that was hit, no page that was hit is evicted.
-/

namespace Tempograph.LfuScan

open Common Runs Lfu LfuSteps LfuExact

variable {n i : ℕ} {s s' : State} {page : Page} {past : List (Page × Result)} {scan : List Page}

/-- The slots whose page was hit since it was loaded. -/
def hot (n : ℕ) (s : State) : Finset ℕ :=
  (Finset.range n).filter fun i => (s.slots i).page ≠ -1 ∧ 2 ≤ (s.slots i).freq

lemma mem_hot : i ∈ hot n s ↔ i < n ∧ (s.slots i).page ≠ -1 ∧ 2 ≤ (s.slots i).freq := by
  rw [hot, Finset.mem_filter, Finset.mem_range]

/-- The hot slot used least often, and least recently of several: the first to go. -/
def Coldest (past : List (Page × Result)) (n : ℕ) (s : State) (v : ℕ) : Prop :=
  v ∈ hot n s ∧ ∀ i ∈ hot n s, i ≠ v → use past (s.slots v).page < use past (s.slots i).page

/-- A page that is loaded is not hot, and no other slot changes. -/
lemma hot_fault {v : ℕ} {size : ℤ} (v_lt : v < n) (s : State) (page : Page) :
    hot n (faultState s v page size) = (hot n s).erase v := by
  ext i
  rw [Finset.mem_erase, mem_hot, mem_hot]
  by_cases e : i = v
  · subst e
    simp [faultState]
  · simp [faultState, e]

/-- With a slot that is not hot the victim is not hot. -/
lemma victim_not_hot (hn : 1 ≤ n) (hlen : past.length < maxTrace) (h : Account n past s)
    (hc : (hot n s).card < n) {v : ℕ} {size : ℤ} (hv : victim s = (some v, size)) :
    v ∉ hot n s := by
  obtain ⟨hvn, hfree, hleast⟩ := victim_least hn hlen h hv
  intro hm
  obtain ⟨-, hpage, hfreq⟩ := mem_hot.mp hm
  have hall : ∀ i < n, (s.slots i).page ≠ -1 := fun i hi e => hpage (hfree ⟨i, hi, e⟩)
  obtain ⟨i, hi, hcold⟩ : ∃ i < n, i ∉ hot n s := by
    by_contra hno
    push Not at hno
    have hsub : Finset.range n ⊆ hot n s := fun i hi => hno i (Finset.mem_range.mp hi)
    have := Finset.card_le_card hsub
    rw [Finset.card_range] at this
    omega
  have hne : i ≠ v := fun e => hcold (e ▸ hm)
  have hlt := hleast hall i hi hne
  rw [← h.key_eq hvn hpage, ← h.key_eq hi (hall i hi), key, key, Prod.Lex.toLex_lt_toLex] at hlt
  refine hcold (mem_hot.mpr ⟨hi, hall i hi, ?_⟩)
  omega

/-- With hot slots only the victim is the coldest of them. -/
lemma victim_coldest (hn : 1 ≤ n) (hlen : past.length < maxTrace) (h : Account n past s)
    (hc : (hot n s).card = n) {v : ℕ} {size : ℤ} (hv : victim s = (some v, size)) :
    Coldest past n s v := by
  obtain ⟨hvn, -, hleast⟩ := victim_least hn hlen h hv
  have hrange : hot n s = Finset.range n :=
    Finset.eq_of_subset_of_card_le (Finset.filter_subset _ _) (by rw [Finset.card_range, hc])
  have hmem : ∀ i < n, i ∈ hot n s := fun i hi => by rwa [hrange, Finset.mem_range]
  exact ⟨hmem v hvn, fun i hi hne =>
    hleast (fun i hi => (mem_hot.mp (hmem i hi)).2.1) i (mem_hot.mp hi).1 hne⟩

/-- What a scan leaves of the hot slots of `s`, those in `lost` apart. -/
structure Kept (n : ℕ) (lost : Finset ℕ) (s s' : State) : Prop where
  hot : hot n s' = LfuScan.hot n s \ lost
  slots : ∀ i ∈ LfuScan.hot n s \ lost, s'.slots i = s.slots i

/-- **One fault** takes out no hot slot unless all are hot, and then the coldest. -/
lemma fault_kept (hn : 1 ≤ n) (hlen : past.length < maxTrace) (h : Account n past s)
    (ha : lfuAccess s page = some (s', .fault)) :
    ((hot n s).card < n → Kept n ∅ s s') ∧
      ((hot n s).card = n → ∃ v, Coldest past n s v ∧ Kept n {v} s s') := by
  rcases access_cases ha with ⟨i, -, e, -⟩ | ⟨-, v, size, hv, -, rfl⟩
  · cases e
  have hvn := (victim_least hn hlen h hv).1
  have hother : ∀ i ≠ v, (faultState s v page size).slots i = s.slots i := fun i hi => by
    simp [faultState, hi]
  constructor
  · intro hc
    have hcold := victim_not_hot hn hlen h hc hv
    refine ⟨?_, fun i hi => hother i fun e => ?_⟩
    · rw [hot_fault hvn, Finset.erase_eq_of_notMem hcold, Finset.sdiff_empty]
    · rw [Finset.sdiff_empty] at hi
      exact hcold (e ▸ hi)
  · intro hc
    refine ⟨v, victim_coldest hn hlen h hc hv, ?_, fun i hi => hother i fun e => ?_⟩
    · rw [hot_fault hvn, Finset.sdiff_singleton_eq_erase]
    · exact (Finset.mem_sdiff.mp hi).2 (Finset.mem_singleton.mpr e)

lemma Kept.trans {lost : Finset ℕ} {s'' : State} (h : Kept n lost s s') (h' : Kept n ∅ s' s'') :
    Kept n lost s s'' := by
  refine ⟨by rw [h'.hot, Finset.sdiff_empty, h.hot], fun i hi => ?_⟩
  rw [h'.slots i (by rwa [Finset.sdiff_empty, h.hot]), h.slots i hi]

/-- **A scan**, from a state with a slot that is not hot. -/
lemma scan_kept (hn : 1 ≤ n) (h : Account n past s) (hlen : past.length + scan.length ≤ maxTrace)
    (hm : (-1 : Page) ∉ scan) (hc : (hot n s).card < n)
    (hrun : run lfuAccess s scan = some (s', List.replicate scan.length .fault)) :
    Kept n ∅ s s' := by
  induction scan generalizing past s with
  | nil =>
    obtain rfl : s = s' := by simpa using hrun
    exact ⟨by rw [Finset.sdiff_empty], fun _ _ => rfl⟩
  | cons page scan ih =>
    rw [List.mem_cons, not_or] at hm
    rw [List.length_cons] at hlen
    obtain ⟨s₁, o, os, ha, hrest, he⟩ := run_cons_inv hrun
    rw [List.length_cons, List.replicate_succ] at he
    obtain ⟨rfl, rfl⟩ := List.cons.inj he
    obtain ⟨t, r, ht, hacc⟩ := account_step hn (by omega) (Ne.symm hm.1) h
    obtain ⟨rfl, rfl⟩ := Prod.mk.inj (Option.some.inj (ht.symm.trans ha))
    have hfirst := (fault_kept hn (by omega) h ha).1 hc
    refine hfirst.trans (ih hacc ?_ hm.2 ?_ hrest)
    · rw [List.length_append, List.length_singleton]
      omega
    · rwa [hfirst.hot, Finset.sdiff_empty]

/-- **A scan takes out at most one hot page**, however long it is: none if some slot was not
hit since its load, and else the one page used least often, and least recently of several.
All others keep their slots, their counts and their times. -/
theorem scan_resistant (s₀ : State) (n : ℕ) (hn : 1 ≤ n) (hn' : n ≤ maxFrames)
    (tr scan : List Page) (hlen : (tr ++ scan).length ≤ maxTrace)
    (hm : (-1 : Page) ∉ tr ++ scan) :
    ∃ s s' os s'' os', lfuInit s₀ n = some s ∧ run lfuAccess s tr = some (s', os) ∧
      run lfuAccess s' scan = some (s'', os') ∧ ((∀ r ∈ os', r = .fault) →
        ((hot n s').card < n → Kept n ∅ s' s'') ∧
        ((hot n s').card = n → scan ≠ [] →
          ∃ v, Coldest (tr.zip os) n s' v ∧ Kept n {v} s' s'')) := by
  rw [List.length_append] at hlen
  rw [List.mem_append, not_or] at hm
  obtain ⟨s, s', os, he, hrun, h⟩ := lfu_account s₀ hn hn' (by omega) hm.1
  have hzip : (tr.zip os).length = tr.length := by
    rw [List.length_zip, run_length hrun, Nat.min_self]
  obtain ⟨t, u, both, ht, hboth, -⟩ := @lfu_account _ s₀ hn hn' (tr ++ scan)
    (by rwa [List.length_append]) (by rw [List.mem_append, not_or]; exact hm)
  obtain rfl : s = t := Option.some.inj (he.symm.trans ht)
  obtain ⟨t, os₁, os', h1, hscan, -⟩ := run_append_inv hboth
  obtain ⟨rfl, rfl⟩ := Prod.mk.inj (Option.some.inj (h1.symm.trans hrun))
  refine ⟨s, t, os₁, u, os', he, hrun, hscan, fun hos => ?_⟩
  obtain rfl : os' = List.replicate scan.length .fault :=
    List.eq_replicate_iff.mpr ⟨run_length hscan, hos⟩
  refine ⟨fun hc => scan_kept hn h (by omega) hm.2 hc hscan, fun hc hne => ?_⟩
  obtain ⟨page, scan, rfl⟩ := List.exists_cons_of_ne_nil hne
  rw [List.mem_cons, not_or] at hm
  rw [List.length_cons] at hlen
  obtain ⟨s₁, o, os, ha, hrest, heq⟩ := run_cons_inv hscan
  rw [List.length_cons, List.replicate_succ] at heq
  obtain ⟨rfl, rfl⟩ := List.cons.inj heq
  obtain ⟨t', r, ht', hacc⟩ := account_step hn (by omega) (Ne.symm hm.2.1) h
  obtain ⟨rfl, rfl⟩ := Prod.mk.inj (Option.some.inj (ht'.symm.trans ha))
  obtain ⟨v, hv, hkept⟩ := (fault_kept hn (by omega) h ha).2 hc
  refine ⟨v, hv, hkept.trans (scan_kept hn hacc ?_ hm.2.2 ?_ hrest)⟩
  · rw [List.length_append, List.length_singleton]
    omega
  · rw [hkept.hot, Finset.sdiff_singleton_eq_erase, Finset.card_erase_of_mem hv.1]
    omega

/-- The theorem at two slots: the page 3 is hit once and outlasts the scan. -/
theorem scan_resistant_two :
    1 ≤ 2 ∧ 2 ≤ maxFrames ∧ ([3, 3, 5] ++ [7, 9, 11]).length ≤ maxTrace ∧
      (-1 : Page) ∉ [3, 3, 5] ++ [7, 9, 11] ∧
      ∃ s s' os s'' os', lfuInit start 2 = some s ∧ run lfuAccess s [3, 3, 5] = some (s', os) ∧
        run lfuAccess s' [7, 9, 11] = some (s'', os') ∧ os' = [.fault, .fault, .fault] ∧
        (hot 2 s').card = 1 ∧ Kept 2 ∅ s' s'' := by
  have hm : (-1 : Page) ∉ [3, 3, 5] ++ [7, 9, 11] := by decide
  obtain ⟨s, s', os, s'', os', h1, h2, h3, h⟩ :=
    scan_resistant start 2 (by decide) (by decide) [3, 3, 5] [7, 9, 11] (by decide) hm
  have hval : ((lfuInit start 2).bind fun s => (run lfuAccess s [3, 3, 5]).bind fun p =>
      (run lfuAccess p.1 [7, 9, 11]).map fun q => (q.2, (hot 2 p.1).card)) =
        some ([.fault, .fault, .fault], 1) := by decide
  rw [show ((2 : ℕ) : ℤ) = 2 from rfl] at h1
  rw [h1, Option.bind_some, h2, Option.bind_some, h3, Option.map_some, Option.some.injEq,
    Prod.mk.injEq] at hval
  have hos : os' = [.fault, .fault, .fault] := hval.1
  have hcard : (hot 2 s').card = 1 := hval.2
  refine ⟨by decide, by decide, by decide, hm, s, s', os, s'', os', h1, h2, h3, hos, hcard,
    (h fun r hr => ?_).1 (by omega)⟩
  rw [hos] at hr
  simpa using hr

end Tempograph.LfuScan
