import Tempograph.Circular
import Tempograph.Runs
import Tempograph.SecondChance
import Tempograph.Sieve

/-!
`sieve.c` is a first-in first-out queue with second chances.

Read from the hand on, the slots are the queue: the hand is its front, and the slot the hand
has just left its back. Clearing the bit under the hand and stepping on moves the front
entry to the back; replacing the page under the hand and stepping on drops the front entry
and puts the new page at the back.
-/

namespace Tempograph.SieveQueue

open Common Circular Runs SecondChance Sieve

abbrev Entry := Page × Bool

/-- Set the bit of the entries for `page`. -/
def mark (page : Page) (e : Entry) : Entry := if e.1 = page then (e.1, true) else e

@[simp] lemma mark_fst (page : Page) (e : Entry) : (mark page e).1 = e.1 := by
  unfold mark; split_ifs <;> rfl

/-- One access of the queue: a hit sets the bit of the page in place; a fault settles the
queue, drops its front entry and puts the page at the back. -/
def access (q : List Entry) (page : Page) : List Entry × Result :=
  if page ∈ q.map Prod.fst then (q.map (mark page), .hit)
  else ((settle q).tail ++ [(page, false)], .fault)

/-- The slots of the array, from the hand on. -/
def slots (s : State) : List Entry := ring (fun i => (s.pages i, s.visited i)) s.n s.hand

variable {s s' : State} {n : ℕ} {page : Page}

/-- Page `p` is in at most one slot. -/
def Once (s : State) (p : Page) : Prop :=
  ∀ i j, i < s.n → j < s.n → s.pages i = p → s.pages j = p → i = j

lemma find_some {i : ℕ} (h : find s page = some i) : i < s.n ∧ s.pages i = page := by
  have hm := List.mem_of_find?_eq_some h
  have hp := List.find?_some h
  exact ⟨List.mem_range.mp hm, by simpa using hp⟩

lemma find_none (h : find s page = none) : ∀ i < s.n, s.pages i ≠ page := by
  intro i hi
  simpa using List.find?_eq_none.mp h i (List.mem_range.mpr hi)

/-- Writing the entry under the hand and stepping on puts the entry at the back. -/
lemma slots_write {t : State} {e : Entry} (hh : s.hand < s.n)
    (hp : t.pages = Function.update s.pages s.hand e.1)
    (hv : t.visited = Function.update s.visited s.hand e.2)
    (ht : t.hand = (s.hand + 1) % s.n) (hn : t.n = s.n) :
    ∃ r, slots s = (s.pages s.hand, s.visited s.hand) :: r ∧ slots t = r ++ [e] := by
  obtain ⟨r, hr, -⟩ := ring_step (f := fun i => (s.pages i, s.visited i)) hh
  have hg : (fun i => (t.pages i, t.visited i)) = Function.update
      (fun i => (s.pages i, s.visited i)) s.hand e := by
    ext i : 1
    by_cases hi : i = s.hand
    · subst hi; simp [hp, hv]
    · simp [hp, hv, hi]
  obtain ⟨r', h1, h2⟩ := ring_step (f := Function.update
      (fun i => (s.pages i, s.visited i)) s.hand e) hh
  rw [ring_update hh hr, Function.update_self] at h1
  obtain ⟨-, rfl⟩ := List.cons.inj h1
  rw [Function.update_self] at h2
  exact ⟨r, hr, by rw [slots, hg, ht, hn, h2]⟩

/-- The loop settles the queue and does nothing else, and it stops. -/
lemma advance_spec (fuel : ℕ) (hh : s.hand < s.n) (hf : (slots s).countP (·.2) < fuel) :
    ∃ s', advance fuel s = some s' ∧ slots s' = settle (slots s) ∧ s'.n = s.n ∧
      s'.pages = s.pages ∧ s'.hand < s'.n ∧ s'.visited s'.hand = false := by
  induction fuel generalizing s with
  | zero => omega
  | succ fuel ih =>
    obtain ⟨r, hr, ht⟩ := slots_write (t := pass s) (e := (s.pages s.hand, false)) hh
      (by simp [Sieve.pass]) rfl rfl rfl
    cases hv : s.visited s.hand with
    | false =>
      refine ⟨s, by simp [advance, hv], ?_, rfl, rfl, hh, hv⟩
      rw [hr, hv, settle_unset]
    | true =>
      have hn : s.n ≠ 0 := by omega
      have hlt : (slots (pass s)).countP (·.2) < fuel := by
        rw [hr, hv] at hf
        rw [ht]
        simp only [List.countP_append, List.countP_cons, List.countP_nil, if_true] at hf ⊢
        simp only [Bool.false_eq_true, if_false]
        omega
      obtain ⟨s', h1, h2, h3, h4, h5, h6⟩ := ih (s := pass s) (Nat.mod_lt _ (by omega)) hlt
      refine ⟨s', by simpa [advance, hv, hn] using h1, ?_, h3, h4, h5, h6⟩
      rw [h2, ht, hr, hv, settle_set]

/-- Every bit cleared and one test more are enough. -/
lemma advance_defined (hh : s.hand < s.n) :
    ∃ s', advance (s.n + 1) s = some s' ∧ slots s' = settle (slots s) ∧ s'.n = s.n ∧
      s'.pages = s.pages ∧ s'.hand < s'.n := by
  have hcount : (slots s).countP (·.2) < s.n + 1 := by
    have := List.countP_le_length (l := slots s) (p := (·.2))
    simp only [slots, ring_length] at this ⊢
    omega
  obtain ⟨s', h1, h2, h3, h4, h5, -⟩ := advance_spec (s.n + 1) hh hcount
  exact ⟨s', h1, h2, h3, h4, h5⟩

/-- **One access.** If the page is in at most one slot, the array and the queue agree on
the result and on what they hold afterwards; a fault writes the page to one slot and leaves
the others, a hit leaves all pages. -/
theorem access_sim (hh : s.hand < s.n) (ho : Once s page) :
    ∃ s', sieveAccess s page = some (s', (access (slots s) page).2) ∧
      slots s' = (access (slots s) page).1 ∧ s'.n = s.n ∧ s'.hand < s'.n ∧
      ((∃ i < s.n, s.pages i = page) ∧ s'.pages = s.pages ∨
        (∀ i < s.n, s.pages i ≠ page) ∧ ∃ i < s.n, s'.pages = Function.update s.pages i page) := by
  have hn : 0 < s.n := by omega
  have hmem : page ∈ (slots s).map Prod.fst ↔ ∃ i < s.n, s.pages i = page := by
    simp [slots, mem_ring hn]
  cases hf : find s page with
  | none =>
    have hnone := find_none hf
    have hmem' : page ∉ (slots s).map Prod.fst := by
      rw [hmem]; rintro ⟨i, hi, e⟩; exact hnone i hi e
    obtain ⟨t, h1, h2, h3, h4, h5⟩ := advance_defined hh
    obtain ⟨r, h6, h7⟩ := slots_write (t := replace t page) (e := (page, false)) h5
      rfl rfl rfl rfl
    have htn : t.n ≠ 0 := by omega
    refine ⟨replace t page, by simp only [sieveAccess, hf, h1, if_neg htn, access, if_neg hmem'],
      ?_, h3, Nat.mod_lt _ (by omega), Or.inr ⟨hnone, t.hand, by omega, by rw [← h4]; rfl⟩⟩
    rw [h7, access, if_neg hmem', ← h2, h6]
    rfl
  | some i =>
    obtain ⟨hi, hp⟩ := find_some hf
    have hmem' : page ∈ (slots s).map Prod.fst := hmem.mpr ⟨i, hi, hp⟩
    refine ⟨visit s i, by simp only [sieveAccess, hf, access, if_pos hmem'], ?_, rfl, hh,
      Or.inl ⟨⟨i, hi, hp⟩, rfl⟩⟩
    rw [access, if_pos hmem']
    apply ring_map hn
    intro j hj
    by_cases hj' : s.pages j = page
    · obtain rfl := ho j i hj hi hj' hp
      simp [mark, hj', visit]
    · have : j ≠ i := by rintro rfl; exact hj' hp
      simp [mark, hj', visit, this]

/-- The state that `sieve_init` leaves. -/
def initState (s₀ : State) (n : ℕ) : State where
  pages := fun i => if i < n then -1 else s₀.pages i
  visited := fun i => if i < n then false else s₀.visited i
  hand := 0
  n := n

lemma sieveInit_eq (hn : n ≤ maxFrames) (s₀ : State) :
    sieveInit s₀ n = some (initState s₀ n) := by
  have hb : (0 : ℤ) ≤ n ∧ (n : ℤ) ≤ maxFrames := by omega
  simp only [sieveInit, if_pos hb, Int.toNat_natCast, initState]

/-- The array holds the queue, and no page but the mark of an empty slot twice. -/
structure Holds (n : ℕ) (s : State) (q : List Entry) : Prop where
  slots : slots s = q
  size : s.n = n
  hand : s.hand < n
  once : ∀ p, p ≠ -1 → Once s p

lemma holds_init (h1 : 1 ≤ n) (h2 : n ≤ maxFrames) (s₀ : State) :
    ∃ s, sieveInit s₀ n = some s ∧ Holds n s (List.replicate n (-1, false)) := by
  refine ⟨_, sieveInit_eq h2 s₀, ?_, rfl, h1, ?_⟩
  · apply List.ext_getElem (by simp [SieveQueue.slots, initState])
    intro i hi _
    have hi : i < n := by simpa [SieveQueue.slots, initState] using hi
    simp [SieveQueue.slots, initState, Nat.mod_eq_of_lt hi, hi]
  · intro p hp i j hi _ e
    have hi : i < n := hi
    simp only [initState, if_pos hi] at e
    exact absurd e.symm hp

lemma holds_step {q : List Entry} (h : Holds n s q) (hp : page ≠ -1) :
    ∃ s', sieveAccess s page = some (s', (access q page).2) ∧ Holds n s' (access q page).1 := by
  obtain ⟨rfl, rfl, hh, ho⟩ := h
  obtain ⟨s', h1, h2, h3, h4, h5⟩ := access_sim hh (ho page hp)
  refine ⟨s', h1, h2, h3, by omega, fun p hp' i j hi hj ei ej => ?_⟩
  rw [h3] at hi hj
  rcases h5 with ⟨-, he⟩ | ⟨hnone, k, hk, he⟩
  · rw [he] at ei ej
    exact ho p hp' i j hi hj ei ej
  · rw [he] at ei ej
    simp only [Function.update_apply] at ei ej
    split_ifs at ei ej with hi' hj'
    · rw [hi', hj']
    · exact absurd (ej.trans ei.symm) (hnone j hj)
    · exact absurd (ei.trans ej.symm) (hnone i hi)
    · exact ho p hp' i j hi hj ei ej

/-- **The array is the queue.** On every trace of pages the array and the queue give the
same results; after it the slots from the hand on are the queue, the hand is a slot, and no
page is in two slots. -/
theorem sieve_queue (s₀ : State) (n : ℕ) (h1 : 1 ≤ n) (h2 : n ≤ maxFrames) (tr : List Page)
    (htr : ∀ p ∈ tr, p ≠ -1) :
    ∃ s₁ s q os, sieveInit s₀ n = some s₁ ∧
      run sieveAccess s₁ tr = some (s, os) ∧
      run (fun q page => some (access q page)) (List.replicate n (-1, false)) tr =
        some (q, os) ∧
      slots s = q ∧ s.hand < n ∧
      ∀ i j, i < n → j < n → s.pages i = s.pages j → s.pages i ≠ -1 → i = j := by
  obtain ⟨s₁, hs₁, h0⟩ := holds_init h1 h2 s₀
  obtain ⟨s, q, os, hs, hq, hr⟩ := run_sim (g := fun q page => some (access q page))
    (R := fun _ s q => Holds n s q) tr h0 fun past page s q hpre h => by
      obtain ⟨s', h1, h2⟩ := holds_step h (htr page (hpre.subset (by simp)))
      exact ⟨s', _, _, h1, rfl, h2⟩
  refine ⟨s₁, s, q, os, hs₁, hs, hq, hr.slots, hr.hand, fun i j hi hj e hne => ?_⟩
  have hn := hr.size
  exact hr.once _ hne i j (by omega) (by omega) rfl e.symm

/-- The theorem at two frames and a trace that gives a second chance. -/
theorem sieve_queue_two :
    1 ≤ 2 ∧ 2 ≤ maxFrames ∧ (∀ p ∈ ([1, 2, 1, 3] : List Page), p ≠ -1) ∧
      ∃ (s₁ s : State) (q : List Entry) (os : List Result), sieveInit start 2 = some s₁ ∧
        run sieveAccess s₁ [1, 2, 1, 3] = some (s, os) ∧ slots s = q := by
  have hp : ∀ p ∈ ([1, 2, 1, 3] : List Page), p ≠ -1 := by simp
  obtain ⟨s₁, s, q, os, h1, h2, -, h3, -⟩ :=
    sieve_queue start 2 (by decide) (by decide) [1, 2, 1, 3] hp
  exact ⟨by decide, by decide, hp, s₁, s, q, os, h1, h2, h3⟩

end Tempograph.SieveQueue
