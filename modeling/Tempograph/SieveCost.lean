import Tempograph.SieveHistory

/-!
What the hand of `sieve.c` costs.

One fault may move the hand past every slot, but each slot it passes was paid for: a hit set
the bit that it clears. So over a run the hand moves at most once for each access. And a page
stays at least until the hand has come round to it.
-/

namespace Tempograph.SieveCost

open Common Runs Sieve SieveQueue SieveHistory

variable {n i : ℕ} {s s' t : State} {page : Page} {r : Result} {h : List Event}
  {os : List Result} {tr : List Page}

def isPass : Event → Bool
  | .pass _ => true
  | _ => false

def isLoad : Event → Bool
  | .load _ => true
  | _ => false

/-- The slots that the hand passed. -/
def passed (h : List Event) : ℕ := h.countP isPass

/-- The steps that the hand made: it steps on when it passes a slot and when it loads one. -/
def moves (h : List Event) : ℕ := passed h + h.countP isLoad

/-- The slots whose bit is set. -/
def marked (n : ℕ) (s : State) : Finset ℕ := (Finset.range n).filter fun i => s.visited i = true

/-- The steps of the hand from where it is to slot `i`. -/
def ahead (n : ℕ) (s : State) (i : ℕ) : ℕ := (i + n - s.hand) % n

@[simp] lemma passed_append (h h' : List Event) : passed (h ++ h') = passed h + passed h' :=
  List.countP_append

@[simp] lemma moves_append (h h' : List Event) : moves (h ++ h') = moves h + moves h' := by
  simp only [moves, passed_append, List.countP_append]
  omega

lemma passed_passes (ps : List ℕ) : passed (ps.map .pass) = ps.length := by
  induction ps with
  | nil => rfl
  | cons p ps ih =>
    rw [List.map_cons, passed, List.countP_cons, ← passed, ih, List.length_cons]
    rfl

lemma loads_passes (ps : List ℕ) : (ps.map Event.pass).countP isLoad = 0 := by
  rw [List.countP_eq_zero]
  intro e he
  obtain ⟨p, -, rfl⟩ := List.mem_map.mp he
  exact Bool.false_ne_true

lemma card_marked_le (n : ℕ) (s : State) : (marked n s).card ≤ n :=
  (Finset.card_filter_le _ _).trans (Finset.card_range n).le

/-! ### One access -/

/-- From `s`, the history `h` with the answers `os` has come to `s'`. -/
structure Paid (n : ℕ) (s : State) (h : List Event) (os : List Result) (s' : State) : Prop where
  size : s'.n = n
  hand : s'.hand = (s.hand + moves h) % n
  steps : moves h = passed h + os.count .fault
  paid : passed h + (marked n s').card ≤ (marked n s).card + os.count .hit
  kept : ∀ i < n, moves h ≤ ahead n s i → s'.pages i = s.pages i

/-- The hand loop takes its steps from the set bits. -/
lemma card_marked_advance (hh : s.hand < s.n) (ht : advance (s.n + 1) s = some t) :
    (passes (s.n + 1) s).length + (marked s.n t).card = (marked s.n s).card := by
  have hsub : (passes (s.n + 1) s).toFinset ⊆ marked s.n s := fun i hi =>
    Finset.mem_filter.mpr ⟨passes_subset hh _ hi, visited_of_mem_passes (List.mem_toFinset.mp hi)⟩
  have hrest : marked s.n t = marked s.n s \ (passes (s.n + 1) s).toFinset := by
    ext i
    simp only [marked, Finset.mem_sdiff, Finset.mem_filter, List.mem_toFinset, advance_visited ht]
    tauto
  have hcard := Finset.card_le_card hsub
  rw [hrest, Finset.card_sdiff_of_subset hsub, ← List.toFinset_card_of_nodup (nodup_passes _ s)]
  omega

/-- The slot under the hand is not the one that is still ahead. -/
lemma slot_ne {h₀ m : ℕ} (hi : i < n) (hh : h₀ < n) (hm : m < (i + n - h₀) % n) :
    (h₀ + m) % n ≠ i := by
  intro e
  have hlt : (i + n - h₀) % n < n := Nat.mod_lt _ (by omega)
  have hback : (h₀ + (i + n - h₀) % n) % n = i := by
    rw [Nat.add_mod_mod, show h₀ + (i + n - h₀) = i + n by omega, Nat.add_mod_right,
      Nat.mod_eq_of_lt hi]
  have hcongr : h₀ + m ≡ h₀ + (i + n - h₀) % n [MOD n] := e.trans hback.symm
  have hmod : m ≡ (i + n - h₀) % n [MOD n] := Nat.ModEq.add_left_cancel' h₀ hcongr
  have heq := Nat.ModEq.eq_of_lt_of_lt hmod (hm.trans hlt) hlt
  omega

/-- **Each access is paid for.** -/
lemma Paid.step {s₀ : State} (hp : Paid n s₀ h os s) (hh : s₀.hand < n) (page : Page) :
    ∃ s' r, sieveAccess s page = some (s', r) ∧
      Paid n s₀ (h ++ events s page) (os ++ [r]) s' := by
  obtain ⟨rfl, hhand, hmoves, hpaid, hkept⟩ := hp
  have hlt : s.hand < s.n := hhand ▸ Nat.mod_lt _ (by omega)
  cases hf : find s page with
  | some i =>
    have he : events s page = [.hit i] := by simp only [events, hf]
    have hm : moves (h ++ [.hit i]) = moves h := by rw [moves_append]; rfl
    refine ⟨visit s i, .hit, by simp only [sieveAccess, hf], ?_⟩
    rw [he]
    have hone : passed [.hit i] = 0 := rfl
    refine ⟨rfl, by rw [hm]; exact hhand, ?_, ?_, fun j hj hle => ?_⟩
    · rw [hm, hmoves, passed_append, hone, List.count_append]
      rfl
    · -- a hit sets at most one bit
      have hset : (marked s.n (visit s i)).card ≤ (marked s.n s).card + 1 := by
        refine (Finset.card_le_card fun j hj => ?_).trans (Finset.card_insert_le i _)
        obtain ⟨hjn, hv⟩ := Finset.mem_filter.mp hj
        simp only [visit, Function.update_apply] at hv
        rw [Finset.mem_insert, marked, Finset.mem_filter]
        split_ifs at hv with hji
        · exact Or.inl hji
        · exact Or.inr ⟨hjn, hv⟩
      rw [passed_append, hone, List.count_append]
      simp only [List.count_singleton_self]
      omega
    · rw [hm] at hle
      exact hkept j hj hle
  | none =>
    obtain ⟨t, ht, htn, htp, hth, hacc⟩ := fault_spec hlt hf
    have he : events s page = (passes (s.n + 1) s).map .pass ++ [.load t.hand] := by
      simp only [events, hf, ht]
    have hpass : passed (events s page) = (passes (s.n + 1) s).length := by
      rw [he, passed_append, passed_passes]
      rfl
    have hone : moves (events s page) = (passes (s.n + 1) s).length + 1 := by
      rw [moves, hpass, he, List.countP_append, loads_passes]
      rfl
    have hbits := card_marked_advance hlt ht
    have hthand : t.hand = (s₀.hand + moves h + (passes (s.n + 1) s).length) % s.n := by
      rw [(advance_stops ht).1, (iterate_pass hlt _).1, hhand, Nat.mod_add_mod]
    refine ⟨replace t page, .fault, hacc, htn, ?_, ?_, ?_, fun j hj hle => ?_⟩
    · have hnext : (replace t page).hand = (t.hand + 1) % s.n := by rw [← htn]; rfl
      rw [hnext, hthand, moves_append, hone, Nat.mod_add_mod, Nat.add_assoc, Nat.add_assoc]
    · rw [moves_append, passed_append, hpass, hone, hmoves, List.count_append]
      simp only [List.count_singleton_self]
      omega
    · -- the slot that is loaded has its bit cleared
      have hclear : (marked s.n (replace t page)).card ≤ (marked s.n t).card := by
        refine Finset.card_le_card fun j hj => ?_
        obtain ⟨hjn, hv⟩ := Finset.mem_filter.mp hj
        simp only [replace, Function.update_apply] at hv
        split_ifs at hv
        exact Finset.mem_filter.mpr ⟨hjn, hv⟩
      rw [passed_append, hpass, List.count_append]
      omega
    · rw [moves_append, hone] at hle
      have hne : t.hand ≠ j := by
        rw [hthand, Nat.add_assoc]
        exact slot_ne hj hh (Nat.lt_of_succ_le (by rw [← Nat.add_assoc] at hle; exact hle))
      simp only [replace, Function.update_apply, if_neg (Ne.symm hne), htp]
      exact hkept j hj (by omega)

/-- **A run**, from any state with the hand on a slot. -/
lemma paid_run {s₀ : State} (hsize : s₀.n = n) (hh : s₀.hand < n) (tr : List Page) :
    ∃ s os, run sieveAccess s₀ tr = some (s, os) ∧ Paid n s₀ (log s₀ tr) os s := by
  obtain ⟨s, -, -, os, hrun, hp⟩ := run_inv (f := sieveAccess)
    (I := fun past s => ∃ os, run sieveAccess s₀ past = some (s, os) ∧
      Paid n s₀ (log s₀ past) os s) tr
    ⟨[], rfl, hsize, (Nat.mod_eq_of_lt hh).symm, rfl, (Nat.zero_add _).le, fun _ _ _ => rfl⟩
    fun past page s _ hi => by
      obtain ⟨os, hrun, hp⟩ := hi
      obtain ⟨s', r, hacc, hp'⟩ := hp.step hh page
      exact ⟨s', r, hacc, os ++ [r], run_snoc hrun hacc, by rwa [log_snoc hrun]⟩
  exact ⟨s, os, hrun, hp⟩

lemma count_results (os : List Result) : os.count .hit + os.count .fault = os.length := by
  induction os with
  | nil => rfl
  | cons r os ih => cases r <;> simp <;> omega

/-- **The hand moves at most once for each access**, over any run from the start. Its steps
are the faults and the slots it passes, and these are at most the hits. From any state on the
slots it passes are paid for by the hits and by the bits that were set, so it moves at most
that many times more than there are accesses, and a page stays in its slot at least for as
many steps of the hand as lie between them. -/
theorem hand_moves (s₀ : State) (n : ℕ) (h1 : 1 ≤ n) (h2 : n ≤ maxFrames) (tr more : List Page) :
    ∃ s₁ s os s' os', sieveInit s₀ n = some s₁ ∧ run sieveAccess s₁ tr = some (s, os) ∧
      run sieveAccess s more = some (s', os') ∧
      s.hand = moves (log s₁ tr) % n ∧
      moves (log s₁ tr) = passed (log s₁ tr) + os.count .fault ∧
      passed (log s₁ tr) + (marked n s).card ≤ os.count .hit ∧
      moves (log s₁ tr) + (marked n s).card ≤ tr.length ∧
      s'.hand = (s.hand + moves (log s more)) % n ∧
      moves (log s more) = passed (log s more) + os'.count .fault ∧
      passed (log s more) + (marked n s').card ≤ (marked n s).card + os'.count .hit ∧
      moves (log s more) + (marked n s').card ≤ more.length + (marked n s).card ∧
      (marked n s).card ≤ n ∧
      ∀ i < n, moves (log s more) ≤ ahead n s i → s'.pages i = s.pages i := by
  have hstart : marked n (initState s₀ n) = ∅ := by
    rw [marked, Finset.filter_eq_empty_iff]
    intro i hi
    simp [initState, Finset.mem_range.mp hi]
  have hhand : (initState s₀ n).hand = 0 := rfl
  have hsize : (initState s₀ n).n = n := rfl
  obtain ⟨s, os, hrun, hp⟩ := paid_run hsize h1 tr
  have hlt : s.hand < n := hp.hand ▸ Nat.mod_lt _ h1
  obtain ⟨s', os', hrun', hp'⟩ := paid_run hp.size hlt more
  have hlen := run_length hrun
  have hlen' := run_length hrun'
  have hcount := count_results os
  have hcount' := count_results os'
  have hpaid := hp.paid
  have hmoves := hp.steps
  have hpaid' := hp'.paid
  have hmoves' := hp'.steps
  rw [hstart, Finset.card_empty] at hpaid
  refine ⟨_, s, os, s', os', sieveInit_eq h2 s₀, hrun, hrun', ?_, hmoves, by omega, by omega,
    hp'.hand, hmoves', hpaid', by omega, card_marked_le n s, hp'.kept⟩
  rw [hp.hand, hhand, Nat.zero_add]

/-- The theorem at two frames: both bits are set, and the next fault passes them both. -/
theorem hand_moves_two : 1 ≤ 2 ∧ 2 ≤ maxFrames ∧
    ∃ s₁ s os s' os', sieveInit start (2 : ℕ) = some s₁ ∧
      run sieveAccess s₁ [1, 2, 1, 2] = some (s, os) ∧
      run sieveAccess s [3] = some (s', os') ∧ moves (log s₁ [1, 2, 1, 2]) ≤ 4 ∧
      s'.hand = (s.hand + moves (log s [3])) % 2 ∧
      moves (log s [3]) + (marked 2 s').card ≤ 1 + (marked 2 s).card := by
  obtain ⟨s₁, s, os, s', os', h1, h2, h3, -, -, -, hle, hhand, -, -, hmore, -, -⟩ :=
    hand_moves start 2 (by decide) (by decide) [1, 2, 1, 2] [3]
  exact ⟨by decide, by decide, s₁, s, os, s', os', h1, h2, h3, (Nat.le_add_right _ _).trans hle,
    hhand, hmore⟩

end Tempograph.SieveCost
