import Tempograph.TgSafe

/-!
When a hit of `tempograph.c` is a hit.

The table is indexed by page numbers modulo `maxUnique`, and a frame with the page -1 counts
as empty. So a page that shares its index with a resident page is taken for it, and the
page -1 is taken for no page. Apart from these two an access hits exactly when some frame
stores its page.
-/

namespace Tempograph.TgAlias

open Common LinkedList Runs TempoGraph TgSafe

variable {n f v : ℕ} {s s' : State} {page : Page} {r : Result}

/-- Some frame of the cache stores the page. -/
def Stored (s : State) (page : Page) : Prop := ∃ f < s.cap.toNat, s.frames f = page

instance (s : State) (page : Page) : Decidable (Stored s page) :=
  inferInstanceAs (Decidable (∃ f < s.cap.toNat, s.frames f = page))

/-- The answer tells whether the page is stored, and a hit is a hit of this page. -/
def Exact (s : State) (page : Page) (r : Result) : Prop :=
  (r = .hit ↔ Stored s page) ∧
    (r = .hit → ∃ f, s.frameOf (pageIdx page) = some f ∧ s.frames f = page)

/-- The frame holds a page: it is not empty, or the cache is full. -/
def Resident (s : State) (f : ℕ) : Prop :=
  f < s.cap.toNat ∧ (s.frames f ≠ -1 ∨ s.size = s.cap)

/-- No other page with the index of `page` is resident. -/
def NoAlias (s : State) (page : Page) : Prop :=
  ∀ f < s.cap.toNat, s.frames f ≠ -1 ∨ s.size = s.cap → pageIdx (s.frames f) = pageIdx page →
    s.frames f = page

instance (s : State) (page : Page) : Decidable (NoAlias s page) :=
  inferInstanceAs (Decidable (∀ f < s.cap.toNat, _ → _ → _))

/-- The page -1 is not asked for while it stands for an empty frame. -/
def NoMarker (s : State) (page : Page) : Prop := page = -1 → s.size = s.cap

instance (s : State) (page : Page) : Decidable (NoMarker s page) :=
  inferInstanceAs (Decidable (_ → _))

/-- A full cache does not give up the page -1. -/
def KeepsMarker (s : State) (page : Page) : Prop :=
  s.inFrames (pageIdx page) = false → s.size = s.cap →
    ∀ v ∈ chooseVictim (updateGraph (tick s) (pageIdx page)), s.frames v ≠ -1

instance (s : State) (page : Page) : Decidable (KeepsMarker s page) :=
  inferInstanceAs (Decidable (_ → _ → _))

/-- A page with the index of a stored one is answered with a hit. -/
theorem tg_hit_not_stored :
    ¬ ∀ (n : ℕ) (W : ℤ) (tr : List Page), 1 ≤ n → n ≤ maxFrames →
      ∃ s, tgInit start n W = some s ∧ ∀ past page, past ++ [page] <+: tr →
        ∃ t os t' r, run tgAccess s past = some (t, os) ∧ tgAccess t page = some (t', r) ∧
          (r = .hit ↔ Stored t page) := by
  intro h
  obtain ⟨s, hs, hrun⟩ := h 1 10 [0, 4096] (by decide) (by decide)
  obtain ⟨t, os, t', r, h1, h2, h3⟩ := hrun [0] 4096 (by decide)
  have hval : ((tgInit start 1 10).bind fun s => (run tgAccess s [0]).bind fun p =>
      (tgAccess p.1 4096).map fun q => (q.2, decide (Stored p.1 4096))) =
        some (.hit, false) := by decide
  rw [Nat.cast_one] at hs
  rw [hs, Option.bind_some, h1, Option.bind_some, h2] at hval
  simp only [Option.map_some, Option.some.injEq, Prod.mk.injEq, decide_eq_false_iff_not] at hval
  exact hval.2 (h3.mp hval.1)

/-! ### The table -/

/-- The table finds exactly the resident frames, and the counter counts them. -/
structure Tables (n : ℕ) (s : State) : Prop where
  safe : Safe n s
  filled : s.size < n → ((occupied n s).card : ℤ) = s.size
  found : ∀ f, Resident s f → s.inFrames (pageIdx (s.frames f)) = true ∧
    s.frameOf (pageIdx (s.frames f)) = some f
  table : ∀ i, s.inFrames i = true → ∃ f, Resident s f ∧ pageIdx (s.frames f) = i

lemma resident_iff (h : s.cap = n) :
    Resident s f ↔ f < n ∧ (s.frames f ≠ -1 ∨ s.size = n) := by
  simp [Resident, h]

lemma stored_iff (h : s.cap = n) : Stored s page ↔ ∃ f < n, s.frames f = page := by
  simp [Stored, h]

lemma tables_init (s₀ : State) (hn : n ≤ maxFrames) (hn1 : 1 ≤ n) (W : ℤ) :
    ∃ s, tgInit s₀ n W = some s ∧ Tables n s := by
  obtain ⟨s, he, hs⟩ := safe_init s₀ hn W
  refine ⟨s, he, ?_⟩
  rw [tgInit_eq s₀ hn] at he
  obtain rfl := Option.some.inj he
  refine ⟨hs, fun _ => by simp [tgReset, occupied], fun f hf => ?_, by simp [tgReset]⟩
  rw [resident_iff rfl] at hf
  simp only [tgReset, ne_eq, not_true_eq_false, false_or] at hf
  omega

lemma Tables.inj (ht : Tables n s) {f g : ℕ} (hf : Resident s f) (hg : Resident s g)
    (e : pageIdx (s.frames f) = pageIdx (s.frames g)) : f = g := by
  have h1 := (ht.found f hf).2
  rw [e, (ht.found g hg).2] at h1
  exact (Option.some.inj h1).symm

/-- With the page's index free of aliases and -1 not asked for in vain, the answer is exact;
and only then. -/
lemma Tables.exact_iff (ht : Tables n s) (hhit : r = .hit ↔ s.inFrames (pageIdx page) = true) :
    Exact s page r ↔ NoAlias s page ∧ NoMarker s page := by
  have hcap := ht.safe.cap
  have hle := ht.safe.size_le
  constructor
  · rintro ⟨h1, h2⟩
    refine ⟨fun f hf hres e => ?_, fun hp => ?_⟩
    · obtain ⟨hin, hof⟩ := ht.found f ⟨hf, hres⟩
      rw [e] at hin hof
      obtain ⟨g, hg, hpage⟩ := h2 (hhit.mpr hin)
      rw [hof] at hg
      exact (Option.some.inj hg) ▸ hpage
    · -- an empty frame stores -1, but no frame is found to hold it
      by_contra hne
      have hlt : s.size < n := by rw [hcap] at hne; omega
      have hempty : ∃ f < n, s.frames f = -1 := exists_empty (by
        have := ht.filled hlt
        omega)
      have hr := h1.mpr ((stored_iff hcap).mpr (hp ▸ hempty))
      obtain ⟨f, hf, e⟩ := ht.table _ (hhit.mp hr)
      obtain ⟨g, hg, hpage⟩ := h2 hr
      have hof := (ht.found f hf).2
      rw [e, hg] at hof
      obtain rfl := Option.some.inj hof
      rw [resident_iff hcap] at hf
      rcases hf.2 with h | h
      · exact h (hpage.trans hp)
      · omega
  · rintro ⟨ha, hm⟩
    refine ⟨?_, fun hr => ?_⟩
    · rw [hhit, stored_iff hcap]
      constructor
      · intro hin
        obtain ⟨f, hf, e⟩ := ht.table _ hin
        exact ⟨f, ((resident_iff hcap).mp hf).1, ha f hf.1 hf.2 e⟩
      · rintro ⟨f, hf, rfl⟩
        refine (ht.found f ((resident_iff hcap).mpr ⟨hf, ?_⟩)).1
        by_cases hp : s.frames f = -1
        · exact Or.inr ((hm hp).trans hcap)
        · exact Or.inl hp
    · obtain ⟨f, hf, e⟩ := ht.table _ (hhit.mp hr)
      have hof := (ht.found f hf).2
      rw [e] at hof
      exact ⟨f, hof, ha f hf.1 hf.2 e⟩

lemma Tables.hit (ht : Tables n s) (hf : f < n) (idx : ℕ) : Tables n (hitState s f idx) :=
  ⟨ht.safe.hit hf idx, ht.filled, ht.found, ht.table⟩

/-- The frames resident after a fault. -/
lemma Tables.resident_fault (ht : Tables n s) (page : Page) (hv : v < n)
    (hfree : s.size < n → s.frames v = -1) (hm : page = -1 → s.size = n) :
    (s.size < n → (((occupied n (faultState s v page)).card : ℕ) : ℤ) = s.size + 1) ∧
      ∀ f, Resident (faultState s v page) f ↔ f = v ∨ f ≠ v ∧ Resident s f := by
  have hcap := ht.safe.cap
  have hle := ht.safe.size_le
  have hcap' : (faultState s v page).cap = n := hcap
  have hframes : ∀ f, f ≠ v → (faultState s v page).frames f = s.frames f := fun f hf =>
    Function.update_of_ne hf _ _
  have hframev : (faultState s v page).frames v = page := Function.update_self _ _ _
  have hsize : (faultState s v page).size = if s.size < n then s.size + 1 else s.size := by
    simp only [faultState, hcap]
  have hcard : s.size < n → (((occupied n (faultState s v page)).card : ℕ) : ℤ) = s.size + 1 := by
    intro hlt
    have hp : page ≠ -1 := fun e => by have := hm e; omega
    have hins : occupied n (faultState s v page) = insert v (occupied n s) := by
      ext f
      rw [Finset.mem_insert, mem_occupied, mem_occupied]
      by_cases e : f = v
      · subst e; simp [hframev, hp, hv]
      · simp [hframes f e, e]
    have hnot : v ∉ occupied n s := by simp [mem_occupied, hfree hlt]
    have := ht.filled hlt
    rw [hins, Finset.card_insert_of_notMem hnot]
    omega
  refine ⟨hcard, fun f => ?_⟩
  rw [resident_iff hcap', resident_iff hcap, hsize]
  by_cases e : f = v
  · subst e
    simp only [hframev, true_or, iff_true]
    refine ⟨hv, ?_⟩
    by_cases hp : page = -1
    · right; have := hm hp; split_ifs <;> omega
    · exact Or.inl hp
  · simp only [hframes f e, e, false_or, ne_eq, not_false_eq_true, true_and]
    split_ifs with hlt
    · -- when the last frame is filled, every frame is occupied
      apply and_congr_right
      intro hf
      have hne : ¬s.size = n := by omega
      simp only [hne, or_false]
      refine ⟨fun h => h.elim id fun hfull => ?_, Or.inl⟩
      have hall : n ≤ (occupied n (faultState s v page)).card := by
        have := hcard hlt
        omega
      rw [← hframes f e]
      exact ne_of_card_occupied hall hf
    · exact Iff.rfl

/-- The table without the victim's page. -/
lemma Tables.evict (ht : Tables n s) (hv : v < n) (hkept : s.size = n → s.frames v ≠ -1) :
    (∀ f, f ≠ v → Resident s f → (evict s v).inFrames (pageIdx (s.frames f)) = true ∧
      (evict s v).frameOf (pageIdx (s.frames f)) = some f) ∧
      ∀ i, (evict s v).inFrames i = true → ∃ f, f ≠ v ∧ Resident s f ∧
        pageIdx (s.frames f) = i := by
  have hcap := ht.safe.cap
  have hle := ht.safe.size_le
  by_cases hp : s.frames v = -1
  · have hlt : s.size < n := by
      by_contra hge
      exact hkept (by omega) hp
    have hev : TempoGraph.evict s v = s := by simp [TempoGraph.evict, hp]
    have hnot : ¬Resident s v := by
      rw [resident_iff hcap]
      rintro ⟨-, h | h⟩
      · exact h hp
      · omega
    rw [hev]
    refine ⟨fun f _ hf => ht.found f hf, fun i hi => ?_⟩
    obtain ⟨f, hf, e⟩ := ht.table i hi
    exact ⟨f, fun e' => hnot (e' ▸ hf), hf, e⟩
  · have hres : Resident s v := (resident_iff hcap).mpr ⟨hv, Or.inl hp⟩
    have hin : (TempoGraph.evict s v).inFrames =
        Function.update s.inFrames (pageIdx (s.frames v)) false := by
      simp [TempoGraph.evict, hp, lruUnlink]
    have hof : (TempoGraph.evict s v).frameOf =
        Function.update s.frameOf (pageIdx (s.frames v)) none := by
      simp [TempoGraph.evict, hp, lruUnlink]
    rw [hin, hof]
    refine ⟨fun f hfv hf => ?_, fun i hi => ?_⟩
    · have hne : pageIdx (s.frames f) ≠ pageIdx (s.frames v) := fun e => hfv (ht.inj hf hres e)
      rw [Function.update_of_ne hne, Function.update_of_ne hne]
      exact ht.found f hf
    · have hne : i ≠ pageIdx (s.frames v) := by rintro rfl; simp at hi
      rw [Function.update_of_ne hne] at hi
      obtain ⟨f, hf, e⟩ := ht.table i hi
      exact ⟨f, fun e' => hne (by rw [← e, e']), hf, e⟩

lemma Tables.fault (ht : Tables n s) (hv : v < n) (hfree : s.size < n → s.frames v = -1)
    (hkept : s.size = n → s.frames v ≠ -1) (hm : page = -1 → s.size = n)
    (hin : s.inFrames (pageIdx page) = false) : Tables n (faultState s v page) := by
  have hcap := ht.safe.cap
  have hle := ht.safe.size_le
  obtain ⟨hcard, hres⟩ := ht.resident_fault page hv hfree hm
  obtain ⟨hfound, htable⟩ := ht.evict hv hkept
  have hframes : ∀ f, f ≠ v → (faultState s v page).frames f = s.frames f := fun f hf =>
    Function.update_of_ne hf _ _
  have hframev : (faultState s v page).frames v = page := Function.update_self _ _ _
  refine ⟨ht.safe.fault hv page, fun hlt => ?_, fun f hf => ?_, fun i hi => ?_⟩
  · simp only [faultState, hcap] at hlt
    have hlt' : s.size < n := by split_ifs at hlt <;> omega
    rw [hcard hlt']
    simp only [faultState, hcap, if_pos hlt']
  · rcases (hres f).mp hf with rfl | ⟨hfv, hf⟩
    · rw [hframev]; simp [faultState]
    · have hne : pageIdx (s.frames f) ≠ pageIdx page := fun e => by
        rw [← e, (ht.found f hf).1] at hin
        cases hin
      rw [hframes f hfv]
      simp only [faultState, Function.update_of_ne hne]
      exact hfound f hfv hf
  · by_cases e : i = pageIdx page
    · exact ⟨v, (hres v).mpr (Or.inl rfl), by rw [hframev, e]⟩
    · simp only [faultState, Function.update_of_ne e] at hi
      obtain ⟨f, hfv, hf, e'⟩ := htable i hi
      exact ⟨f, (hres f).mpr (Or.inr ⟨hfv, hf⟩), by rw [hframes f hfv, e']⟩

/-- **One access** without an alias, and with the page -1 handled as a page, keeps the table
exact. -/
theorem tables_step (hn : 1 ≤ n) (ht : Tables n s) (hm : NoMarker s page)
    (hk : KeepsMarker s page) : ∃ s' r, tgAccess s page = some (s', r) ∧ Tables n s' := by
  have hcap := ht.safe.cap
  rw [access_eq]
  split_ifs with hin
  · obtain ⟨f, hf, he⟩ := ht.safe.table _ hin
    exact ⟨_, _, by rw [he]; rfl, ht.hit hf _⟩
  · have hin : s.inFrames (pageIdx page) = false := by simpa using hin
    obtain ⟨v, hv, he, hfree, -⟩ := chooseVictim_spec hn (ht.safe.prepare (pageIdx page))
    refine ⟨_, _, by rw [he]; rfl, ht.fault hv hfree (fun hs => ?_) (fun e => ?_) hin⟩
    · exact hk hin (hs.trans hcap.symm) v (by rw [updateGraph_tick]; exact he)
    · exact (hm e).trans hcap

lemma answer_exact_iff (hn : 1 ≤ n) (ht : Tables n s) (page : Page) :
    ∃ s' r, tgAccess s page = some (s', r) ∧
      (Exact s page r ↔ NoAlias s page ∧ NoMarker s page) := by
  obtain ⟨s', r, ha, -, hhit⟩ := safe_step hn ht.safe page
  exact ⟨s', r, ha, ht.exact_iff hhit⟩

/-- **When a hit is a hit.** In a run in which no access meets an alias of its page among the
resident frames and the page -1 is asked for only in a full cache, which then keeps it, every
access hits exactly the pages that are stored. After such a run the next access does so
exactly when it meets no alias and does not ask for -1 while a frame is empty. -/
theorem tg_exact (s₀ : State) (n : ℕ) (hn : 1 ≤ n) (hn' : n ≤ maxFrames) (W : ℤ)
    (tr : List Page) :
    ∃ s, tgInit s₀ n W = some s ∧
      ((∀ past page t os, past ++ [page] <+: tr → run tgAccess s past = some (t, os) →
          NoAlias t page ∧ NoMarker t page ∧ KeepsMarker t page) →
        (∀ past page, past ++ [page] <+: tr → ∃ t os t' r, run tgAccess s past = some (t, os) ∧
          tgAccess t page = some (t', r) ∧ Exact t page r) ∧
        ∃ t os, run tgAccess s tr = some (t, os) ∧ ∀ page, ∃ t' r,
          tgAccess t page = some (t', r) ∧
            (Exact t page r ↔ NoAlias t page ∧ NoMarker t page)) := by
  obtain ⟨s, he, ht⟩ := tables_init s₀ hn' hn W
  refine ⟨s, he, fun hclean => ?_⟩
  have hrun : ∀ past, past <+: tr → ∃ t os, run tgAccess s past = some (t, os) ∧ Tables n t := by
    intro past hpast
    obtain ⟨t, os, hrun, ht, -⟩ := run_inv
      (I := fun past t => Tables n t ∧ ∃ os, run tgAccess s past = some (t, os)) past
      ⟨ht, [], rfl⟩ fun past' page t hp ⟨ht, os, hrun⟩ => by
        obtain ⟨-, hm, hk⟩ := hclean past' page t os (hp.trans hpast) hrun
        obtain ⟨t', r, ha, ht'⟩ := tables_step hn ht hm hk
        exact ⟨t', r, ha, ht', _, run_snoc hrun ha⟩
    exact ⟨t, os, hrun, ht⟩
  refine ⟨fun past page hp => ?_, ?_⟩
  · obtain ⟨t, os, h1, ht⟩ := hrun past ((List.prefix_append _ _).trans hp)
    obtain ⟨t', r, h2, hex⟩ := answer_exact_iff hn ht page
    obtain ⟨ha, hm, -⟩ := hclean past page t os hp h1
    exact ⟨t, os, t', r, h1, h2, hex.mpr ⟨ha, hm⟩⟩
  · obtain ⟨t, os, h1, ht⟩ := hrun tr (List.prefix_refl _)
    exact ⟨t, os, h1, answer_exact_iff hn ht⟩

/-- The theorem at two frames and two pages with different indices. -/
theorem tg_exact_two :
    1 ≤ 2 ∧ 2 ≤ maxFrames ∧ ∃ s, tgInit start 2 10 = some s ∧
      ∀ past page, past ++ [page] <+: [0, 4097] → ∃ t os t' r,
        run tgAccess s past = some (t, os) ∧ tgAccess t page = some (t', r) ∧
          Exact t page r := by
  obtain ⟨s, hs, h⟩ := tg_exact start 2 (by decide) (by decide) 10 [0, 4097]
  refine ⟨by decide, by decide, s, hs, (h fun past page t os hp hrun => ?_).1⟩
  have hval : ∀ k : Fin [0, (4097 : Page)].length,
      ((tgInit start 2 10).bind fun s => (run tgAccess s ([0, 4097].take k)).map fun p =>
        decide (NoAlias p.1 [0, 4097][k] ∧ NoMarker p.1 [0, 4097][k] ∧
          KeepsMarker p.1 [0, 4097][k])) = some true := by
    decide
  obtain ⟨k, hk, rfl, rfl⟩ := exists_position hp
  have hv := hval ⟨k, hk⟩
  rw [show ((2 : ℕ) : ℤ) = 2 from rfl] at hs
  rw [hs, Option.bind_some, hrun] at hv
  simpa using hv

end Tempograph.TgAlias
