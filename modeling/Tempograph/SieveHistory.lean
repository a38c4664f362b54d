import Tempograph.SieveQueue

/-!
What the visited bits of `sieve.c` say about the past.

The history of a run is kept as a list of events at the slots: a page is loaded, a page is
hit, the hand passes. A bit is set exactly if a hit is the last of them at its slot. So the
hand takes pages without a hit first; it comes back to where it started only if every page
had one.
-/

namespace Tempograph.SieveHistory

open Common Runs Sieve SieveQueue

/-- What happens at a slot. Loading a page, the hand leaves its slot too. -/
inductive Event
  | load (i : ℕ)
  | hit (i : ℕ)
  | pass (i : ℕ)
  deriving DecidableEq, Repr

/-- The slots that the hand loop passes, for at most `fuel` tests. -/
def passes : ℕ → State → List ℕ
  | 0, _ => []
  | fuel + 1, s => if s.visited s.hand then s.hand :: passes fuel (Sieve.pass s) else []

/-- What one access does to the slots, in order. -/
def events (s : State) (page : Page) : List Event :=
  match find s page with
  | some i => [.hit i]
  | none =>
    match advance (s.n + 1) s with
    | none => (passes (s.n + 1) s).map .pass
    | some t => (passes (s.n + 1) s).map .pass ++ [.load t.hand]

/-- The history of a run. -/
def log (s : State) : List Page → List Event
  | [] => []
  | page :: tr =>
    match sieveAccess s page with
    | none => events s page
    | some (s', _) => events s page ++ log s' tr

/-- The page in slot `i` was hit since it was loaded or the hand passed it, whichever was
later. -/
def HitSince (h : List Event) (i : ℕ) : Prop :=
  ∃ a b, h = a ++ .hit i :: b ∧ .load i ∉ b ∧ .pass i ∉ b

variable {fuel n i : ℕ} {s s' t : State} {page : Page} {h : List Event}

/-! ### Histories -/

lemma hitSince_nil (i : ℕ) : ¬HitSince [] i := by
  rintro ⟨a, b, e, -⟩
  simp at e

lemma hitSince_snoc (h : List Event) (e : Event) (i : ℕ) :
    HitSince (h ++ [e]) i ↔ e = .hit i ∨ e ≠ .load i ∧ e ≠ .pass i ∧ HitSince h i := by
  constructor
  · rintro ⟨a, b, he, hl, hp⟩
    rcases List.eq_nil_or_concat b with rfl | ⟨b, c, rfl⟩
    · have hlast := (List.append_inj' he rfl).2
      exact Or.inl (List.singleton_inj.mp hlast)
    · have he' : h ++ [e] = (a ++ .hit i :: b) ++ [c] := by simpa using he
      obtain ⟨rfl, hc⟩ := List.append_inj' he' rfl
      obtain rfl : e = c := by simpa using hc
      simp only [List.concat_eq_append, List.mem_append, List.mem_singleton, not_or] at hl hp
      exact Or.inr ⟨fun x => hl.2 x.symm, fun x => hp.2 x.symm, a, b, rfl, hl.1, hp.1⟩
  · rintro (rfl | ⟨hl, hp, a, b, rfl, hla, hpa⟩)
    · exact ⟨h, [], rfl, by simp, by simp⟩
    · exact ⟨a, b ++ [e], by simp, by simp [hla, Ne.symm hl], by simp [hpa, Ne.symm hp]⟩

/-- The hand passing some slots takes their hits away. -/
lemma hitSince_passes (h : List Event) (ps : List ℕ) (i : ℕ) :
    HitSince (h ++ ps.map .pass) i ↔ i ∉ ps ∧ HitSince h i := by
  induction ps generalizing h with
  | nil => simp
  | cons p ps ih =>
    have hsplit : h ++ (p :: ps).map Event.pass = (h ++ [.pass p]) ++ ps.map .pass := by simp
    rw [hsplit, ih, hitSince_snoc]
    simp only [List.mem_cons, reduceCtorEq, ne_eq, not_false_eq_true, Event.pass.injEq, false_or,
      true_and, not_or]
    constructor
    · rintro ⟨h1, h2, h3⟩
      exact ⟨⟨fun e => h2 e.symm, h1⟩, h3⟩
    · rintro ⟨⟨h1, h2⟩, h3⟩
      exact ⟨h2, fun e => h1 e.symm, h3⟩

lemma log_snoc {past : List Page} {os : List Result} (hrun : run sieveAccess s past = some (s', os))
    (page : Page) : log s (past ++ [page]) = log s past ++ events s' page := by
  induction past generalizing s os with
  | nil =>
    obtain ⟨rfl, -⟩ : s = s' ∧ [] = os := by simpa using hrun
    simp only [List.nil_append, log]
    cases sieveAccess s page with
    | none => rfl
    | some p => simp
  | cons q past ih =>
    obtain ⟨u, o, os', h1, h2, -⟩ := run_cons_inv hrun
    simp only [List.cons_append, log, h1, ih h2, List.append_assoc]

/-! ### The hand loop -/

/-- The loop stops at a slot whose bit is not set, as many steps on as it passes slots. -/
lemma advance_stops (ht : advance fuel s = some t) :
    t = Sieve.pass^[(passes fuel s).length] s ∧ t.visited t.hand = false := by
  induction fuel generalizing s with
  | zero => simp [advance] at ht
  | succ fuel ih =>
    cases hv : s.visited s.hand with
    | false =>
      obtain rfl : s = t := by simpa [advance, hv] using ht
      exact ⟨by simp [passes, hv], hv⟩
    | true =>
      simp only [advance, hv, if_true] at ht
      split_ifs at ht
      obtain ⟨h1, h2⟩ := ih ht
      exact ⟨by simpa [passes, hv] using h1, h2⟩

/-- It clears the bits of the slots it passes, and no others. -/
lemma advance_visited (ht : advance fuel s = some t) (i : ℕ) :
    t.visited i = true ↔ i ∉ passes fuel s ∧ s.visited i = true := by
  induction fuel generalizing s with
  | zero => simp [advance] at ht
  | succ fuel ih =>
    cases hv : s.visited s.hand with
    | false =>
      obtain rfl : s = t := by simpa [advance, hv] using ht
      simp [passes, hv]
    | true =>
      simp only [advance, hv, if_true] at ht
      split_ifs at ht
      rw [ih ht]
      by_cases hi : i = s.hand
      · simp [passes, hv, hi, Sieve.pass]
      · simp [passes, hv, hi, Sieve.pass]

lemma visited_of_mem_passes (hi : i ∈ passes fuel s) : s.visited i = true := by
  induction fuel generalizing s with
  | zero => simp [passes] at hi
  | succ fuel ih =>
    cases hv : s.visited s.hand with
    | false => simp [passes, hv] at hi
    | true =>
      simp only [passes, hv, if_true, List.mem_cons] at hi
      rcases hi with rfl | hi
      · exact hv
      · have := ih hi
        simp only [Sieve.pass, Function.update_apply] at this
        split_ifs at this
        exact this

/-- No slot is passed twice: its bit is not set the second time. -/
lemma nodup_passes (fuel : ℕ) (s : State) : (passes fuel s).Nodup := by
  induction fuel generalizing s with
  | zero => simp [passes]
  | succ fuel ih =>
    unfold passes
    split_ifs
    · refine List.nodup_cons.mpr ⟨fun hm => ?_, ih _⟩
      have := visited_of_mem_passes hm
      simp [Sieve.pass] at this
    · exact List.nodup_nil

/-- The slots passed follow each other round the array. -/
lemma mem_passes (hh : s.hand < s.n) (hi : i ∈ passes fuel s) :
    ∃ j < (passes fuel s).length, i = (s.hand + j) % s.n := by
  induction fuel generalizing s with
  | zero => simp [passes] at hi
  | succ fuel ih =>
    cases hv : s.visited s.hand with
    | false => simp [passes, hv] at hi
    | true =>
      simp only [passes, hv, if_true, List.mem_cons, List.length_cons] at hi ⊢
      rcases hi with rfl | hi
      · exact ⟨0, Nat.succ_pos _, (Nat.mod_eq_of_lt hh).symm⟩
      · obtain ⟨j, hj, rfl⟩ := ih (Nat.mod_lt _ (by omega)) hi
        refine ⟨j + 1, Nat.succ_lt_succ hj, ?_⟩
        simp only [Sieve.pass]
        rw [Nat.mod_add_mod, Nat.add_right_comm, Nat.add_assoc]

lemma iterate_pass (hh : s.hand < s.n) (k : ℕ) :
    (Sieve.pass^[k] s).hand = (s.hand + k) % s.n ∧ (Sieve.pass^[k] s).n = s.n ∧
      (Sieve.pass^[k] s).pages = s.pages := by
  induction k with
  | zero => exact ⟨(Nat.mod_eq_of_lt hh).symm, rfl, rfl⟩
  | succ k ih =>
    obtain ⟨h1, h2, h3⟩ := ih
    rw [Function.iterate_succ_apply']
    refine ⟨?_, h2, h3⟩
    simp only [Sieve.pass, h1, h2]
    rw [Nat.mod_add_mod, Nat.add_assoc]

/-- The slots passed are slots, so there are at most `n` of them. -/
lemma passes_subset (hh : s.hand < s.n) (fuel : ℕ) :
    (passes fuel s).toFinset ⊆ Finset.range s.n := by
  intro i hi
  obtain ⟨j, -, rfl⟩ := mem_passes hh (List.mem_toFinset.mp hi)
  exact Finset.mem_range.mpr (Nat.mod_lt _ (by omega))

lemma length_passes_le (hh : s.hand < s.n) (fuel : ℕ) : (passes fuel s).length ≤ s.n := by
  have hcard := Finset.card_le_card (passes_subset hh fuel)
  rwa [List.toFinset_card_of_nodup (nodup_passes fuel s), Finset.card_range] at hcard

/-- **Where the hand stops**: at a slot whose bit was not set, or, if every bit was, at the
slot where it started. -/
theorem hand_stops (hh : s.hand < s.n) (ht : advance fuel s = some t) :
    s.visited t.hand = false ∨ t.hand = s.hand ∧ ∀ i < s.n, s.visited i = true := by
  obtain ⟨he, hv⟩ := advance_stops ht
  by_cases hm : t.hand ∈ passes fuel s
  · right
    have hle := length_passes_le hh fuel
    obtain ⟨j, hj, hj'⟩ := mem_passes hh hm
    have hhand : t.hand = (s.hand + (passes fuel s).length) % s.n := by
      rw [he]; exact (iterate_pass hh _).1
    -- the same place after `j` steps and at the end is a whole turn
    have hmod : s.hand + j ≡ s.hand + (passes fuel s).length [MOD s.n] := hj'.symm.trans hhand
    have hdvd : s.n ∣ (passes fuel s).length - j :=
      (Nat.modEq_iff_dvd' hj.le).mp (Nat.ModEq.add_left_cancel' s.hand hmod)
    have hge := Nat.le_of_dvd (by omega) hdvd
    have hlen : (passes fuel s).length = s.n := by omega
    have hall : (passes fuel s).toFinset = Finset.range s.n := by
      refine Finset.eq_of_subset_of_card_le (passes_subset hh fuel) ?_
      rw [List.toFinset_card_of_nodup (nodup_passes fuel s), Finset.card_range, hlen]
    refine ⟨?_, fun i hi => ?_⟩
    · rw [hhand, hlen, Nat.add_mod_right, Nat.mod_eq_of_lt hh]
    · have : i ∈ (passes fuel s).toFinset := hall ▸ Finset.mem_range.mpr hi
      exact visited_of_mem_passes (List.mem_toFinset.mp this)
  · left
    cases hs : s.visited t.hand with
    | false => rfl
    | true =>
      have := (advance_visited ht t.hand).mpr ⟨hm, hs⟩
      rw [hv] at this
      exact absurd this Bool.false_ne_true

/-! ### Runs -/

/-- A bit is set exactly if a hit is the last event at its slot, and then a page is there. -/
structure Remembers (n : ℕ) (h : List Event) (s : State) : Prop where
  size : s.n = n
  hand : s.hand < n
  visited : ∀ i < n, s.visited i = true ↔ HitSince h i
  filled : ∀ i < n, s.visited i = true → s.pages i ≠ -1

lemma remembers_init (s₀ : State) (hn : 1 ≤ n) : Remembers n [] (initState s₀ n) :=
  ⟨rfl, hn, fun i hi => by simp [initState, hi, hitSince_nil], fun i hi => by
    simp [initState, hi]⟩

/-- What a fault does: the hand loop stops, and the page takes the slot under the hand. -/
lemma fault_spec (hh : s.hand < s.n) (hf : find s page = none) :
    ∃ t, advance (s.n + 1) s = some t ∧ t.n = s.n ∧ t.pages = s.pages ∧ t.hand < s.n ∧
      sieveAccess s page = some (replace t page, .fault) := by
  obtain ⟨t, ht, -, hn, hp, hlt⟩ := advance_defined hh
  have hne : t.n ≠ 0 := by omega
  refine ⟨t, ht, hn, hp, by omega, ?_⟩
  simp only [sieveAccess, hf, ht, if_neg hne]

lemma Remembers.step (hs : Remembers n h s) (hp : page ≠ -1) :
    ∃ s' r, sieveAccess s page = some (s', r) ∧ Remembers n (h ++ events s page) s' := by
  obtain ⟨rfl, hh, hvis, hfil⟩ := hs
  cases hf : find s page with
  | some i =>
    obtain ⟨hi, hpage⟩ := find_some hf
    refine ⟨visit s i, .hit, by simp only [sieveAccess, hf], rfl, hh, fun j hj => ?_,
      fun j hj hv => ?_⟩
    · simp only [events, hf, hitSince_snoc, visit, Function.update_apply]
      by_cases hji : j = i
      · simp [hji]
      · simp [hji, Ne.symm hji, hvis j hj]
    · simp only [visit, Function.update_apply] at hv ⊢
      split_ifs at hv with hji
      · rw [hji, hpage]; exact hp
      · exact hfil j hj hv
  | none =>
    obtain ⟨t, ht, htn, htp, hth, hacc⟩ := fault_spec hh hf
    have hlt : (t.hand + 1) % t.n < s.n := htn ▸ Nat.mod_lt _ (by omega)
    refine ⟨_, _, hacc, htn, hlt, fun j hj => ?_, fun j hj hv => ?_⟩
    · have hev : events s page = (passes (s.n + 1) s).map .pass ++ [.load t.hand] := by
        simp only [events, hf, ht]
      rw [hev, ← List.append_assoc, hitSince_snoc, hitSince_passes, ← hvis j hj,
        ← advance_visited ht j]
      simp only [replace, Function.update_apply]
      by_cases hjt : j = t.hand
      · simp [hjt]
      · simp [hjt, Ne.symm hjt]
    · simp only [replace, Function.update_apply] at hv ⊢
      split_ifs at hv with hjt
      rw [if_neg hjt, htp]
      exact hfil j hj ((advance_visited ht j).mp hv).2

/-- **Second chances.** On every trace of pages a visited bit tells whether its page was hit
since it was loaded or passed; the hand loop of a fault takes at most `n` steps; and the page
it evicts had no such hit, unless all pages had one and the hand came back to its own. -/
theorem second_chance (s₀ : State) (n : ℕ) (h1 : 1 ≤ n) (h2 : n ≤ maxFrames) (tr : List Page)
    (htr : ∀ p ∈ tr, p ≠ -1) :
    ∃ s₁, sieveInit s₀ n = some s₁ ∧ ∀ past, past <+: tr →
      ∃ s os, run sieveAccess s₁ past = some (s, os) ∧
        (∀ i < n, s.visited i = true ↔ HitSince (log s₁ past) i) ∧
        ∀ page, past ++ [page] <+: tr → find s page = none →
          ∃ t, advance (n + 1) s = some t ∧
            t = Sieve.pass^[(passes (n + 1) s).length] s ∧ (passes (n + 1) s).length ≤ n ∧
            sieveAccess s page = some (replace t page, .fault) ∧
            (s.pages t.hand ≠ -1 → ¬HitSince (log s₁ past) t.hand ∨
              t.hand = s.hand ∧ ∀ i < n, s.pages i ≠ -1 ∧ HitSince (log s₁ past) i) := by
  refine ⟨_, sieveInit_eq h2 s₀, fun past hpast => ?_⟩
  obtain ⟨s, os, hrun, -, hs⟩ := run_inv (f := sieveAccess)
    (I := fun past s => (∃ os, run sieveAccess (initState s₀ n) past = some (s, os)) ∧
      Remembers n (log (initState s₀ n) past) s) past ⟨⟨[], rfl⟩, remembers_init s₀ h1⟩
    fun past' page s hpre hs => by
      obtain ⟨⟨os, hrun⟩, hs⟩ := hs
      have hp : page ∈ tr := (hpre.trans hpast).subset (by simp)
      obtain ⟨s', r, hacc, hs'⟩ := hs.step (htr page hp)
      exact ⟨s', r, hacc, ⟨_, run_snoc hrun hacc⟩, by rwa [log_snoc hrun]⟩
  obtain ⟨rfl, hh, hvis, hfil⟩ := hs
  refine ⟨s, os, hrun, hvis, fun page _ hf => ?_⟩
  obtain ⟨t, ht, -, -, hth, hacc⟩ := fault_spec hh hf
  refine ⟨t, ht, (advance_stops ht).1, length_passes_le hh _, hacc, fun _ => ?_⟩
  rcases hand_stops hh ht with hv | ⟨he, hall⟩
  · left
    rw [← hvis t.hand hth, hv]
    exact Bool.false_ne_true
  · exact Or.inr ⟨he, fun i hi => ⟨hfil i hi (hall i hi), (hvis i hi).mp (hall i hi)⟩⟩

/-- The theorem at two frames: both pages have had a hit when the page 3 is loaded. -/
theorem second_chance_two :
    1 ≤ 2 ∧ 2 ≤ maxFrames ∧ (∀ p ∈ ([1, 2, 1, 2, 3] : List Page), p ≠ -1) ∧
      ∃ s₁, sieveInit start (2 : ℕ) = some s₁ ∧ ∃ s os,
        run sieveAccess s₁ [1, 2, 1, 2] = some (s, os) ∧
        (∀ i < 2, s.visited i = true ↔ HitSince (log s₁ [1, 2, 1, 2]) i) ∧
        find s 3 = none ∧ (passes (2 + 1) s).length ≤ 2 := by
  have hp : ∀ p ∈ ([1, 2, 1, 2, 3] : List Page), p ≠ -1 := by simp
  obtain ⟨s₁, e, h⟩ := second_chance start 2 (by decide) (by decide) [1, 2, 1, 2, 3] hp
  obtain ⟨s, os, hrun, hvis, hfault⟩ := h [1, 2, 1, 2] ⟨[3], rfl⟩
  have hval : ((sieveInit start (2 : ℕ)).bind fun s => (run sieveAccess s [1, 2, 1, 2]).map
      fun p => find p.1 3) = some none := by decide
  rw [e, Option.bind_some, hrun] at hval
  have hf : find s 3 = none := Option.some.inj hval
  obtain ⟨t, -, -, hle, -⟩ := hfault 3 ⟨[], rfl⟩ hf
  exact ⟨by decide, by decide, hp, s₁, e, s, os, hrun, hvis, hf, hle⟩

end Tempograph.SieveHistory
