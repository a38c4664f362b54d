import Tempograph.ArgMin
import Tempograph.Lfu
import Tempograph.Slots

/-!
The steps of `lfu.c`: what a hit and what a fault leave, and the victim of a full cache, which
is the slot used least often, and least recently of several.
-/

namespace Tempograph.LfuSteps

open Common Lfu Slots

variable {n m i v : ℕ} {s s' : State} {page : Page} {size : ℤ} {r : Result}

/-! ### The initial state -/

def initState (n : ℕ) : State := ⟨fun _ => ⟨-1, 0, 0⟩, n, 0, 0⟩

lemma lfuInit_eq (hn : n ≤ maxFrames) (s₀ : State) : lfuInit s₀ n = some (initState n) := by
  have hle : ¬((n : ℤ) > maxFrames) := by omega
  simp only [lfuInit, if_neg hle, lfuReset, ite_self, initState]

/-! ### The two outcomes -/

/-- The state after a hit of slot `i`. -/
def hitState (s : State) (i : ℕ) : State :=
  { s with
    slots := Function.update s.slots i ⟨(s.slots i).page, (s.slots i).freq + 1, s.lfuClock + 1⟩
    lfuClock := s.lfuClock + 1 }

/-- The state after a fault that loads `page` into slot `v`. -/
def faultState (s : State) (v : ℕ) (page : Page) (size : ℤ) : State :=
  { s with
    slots := Function.update s.slots v ⟨page, 1, s.lfuClock + 1⟩
    size := size
    lfuClock := s.lfuClock + 1 }

lemma access_hit (h : find s page = some i) :
    lfuAccess s page = some (hitState s i, .hit) := by
  have hfind : find { s with lfuClock := s.lfuClock + 1 } page = find s page := rfl
  simp only [lfuAccess, hfind, h, hitState]

lemma access_fault (h : find s page = none) (hv : victim s = (some v, size)) :
    lfuAccess s page = some (faultState s v page size, .fault) := by
  have hfind : find { s with lfuClock := s.lfuClock + 1 } page = find s page := rfl
  have hvictim : victim { s with lfuClock := s.lfuClock + 1 } = victim s := rfl
  simp only [lfuAccess, hfind, hvictim, h, hv, faultState]

/-- An access that is defined is one of the two. -/
lemma access_cases (h : lfuAccess s page = some (s', r)) :
    (∃ i, find s page = some i ∧ r = .hit ∧ s' = hitState s i) ∨
      find s page = none ∧ ∃ v size, victim s = (some v, size) ∧ r = .fault ∧
        s' = faultState s v page size := by
  cases hf : find s page with
  | some i =>
    rw [access_hit hf, Option.some.injEq, Prod.mk.injEq] at h
    exact Or.inl ⟨i, rfl, h.2.symm, h.1.symm⟩
  | none =>
    rcases hv : victim s with ⟨v, size⟩
    cases v with
    | none =>
      have hfind : find { s with lfuClock := s.lfuClock + 1 } page = find s page := rfl
      have hvictim : victim { s with lfuClock := s.lfuClock + 1 } = victim s := rfl
      simp [lfuAccess, hfind, hvictim, hf, hv] at h
    | some v =>
      rw [access_fault hf hv, Option.some.injEq, Prod.mk.injEq] at h
      exact Or.inr ⟨rfl, v, size, rfl, h.2.symm, h.1.symm⟩

@[simp] lemma hitState_page (s : State) (i j : ℕ) :
    ((hitState s i).slots j).page = (s.slots j).page := by
  simp only [hitState, Function.update_apply]
  split_ifs with e
  · rw [e]
  · rfl

@[simp] lemma faultState_page (s : State) (v : ℕ) (page : Page) (size : ℤ) (j : ℕ) :
    ((faultState s v page size).slots j).page = if j = v then page else (s.slots j).page := by
  simp only [faultState, Function.update_apply]
  split_ifs <;> rfl

/-- No count grows by more than one. -/
lemma hitState_freq (h : ∀ j, (s.slots j).freq ≤ m) (i j : ℕ) :
    ((hitState s i).slots j).freq ≤ m + 1 := by
  simp only [hitState, Function.update_apply]
  split_ifs
  · exact Nat.succ_le_succ (h i)
  · exact Nat.le_succ_of_le (h j)

lemma faultState_freq (h : ∀ j, (s.slots j).freq ≤ m) (v : ℕ) (page : Page) (size : ℤ) (j : ℕ) :
    ((faultState s v page size).slots j).freq ≤ m + 1 := by
  simp only [faultState, Function.update_apply]
  split_ifs
  · exact Nat.le_add_left 1 m
  · exact Nat.le_succ_of_le (h j)

/-! ### The searches -/

lemma find_eq_some (hcap : s.cap = n) (h : find s page = some i) :
    i < n ∧ (s.slots i).page = page := by
  have h1 := List.mem_of_find?_eq_some h
  have h2 := List.find?_some h
  exact ⟨by simpa [hcap] using h1, by simpa using h2⟩

lemma find_eq_none (hcap : s.cap = n) (h : find s page = none) :
    ¬Held n (fun i => (s.slots i).page) page := by
  rintro ⟨i, hi, e⟩
  have := List.find?_eq_none.mp h i (by simpa [hcap] using hi)
  simp [e] at this

/-- What the search compares. -/
def key (s : State) (i : ℕ) : ℕ ×ₗ ℕ := toLex ((s.slots i).freq, (s.slots i).lastTime)

/-- A candidate, with the two numbers as one key. -/
def pair (b : Least) : (ℕ ×ₗ ℕ) × Option ℕ := (toLex (b.freq, b.time), b.victim)

lemma pair_consider (s : State) (b : Least) (i : ℕ) :
    ArgMin.better (key s) (pair b) i = pair (consider s b i) := by
  unfold ArgMin.better consider pair key
  simp only [Prod.Lex.toLex_lt_toLex]
  split_ifs <;> rfl

lemma leastUsed_eq (s : State) : leastUsed s =
    (ArgMin.search (key s) (toLex (intMax, intMax)) (List.range s.cap.toNat)).2 := by
  calc leastUsed s
      = (pair ((List.range s.cap.toNat).foldl (consider s) ⟨intMax, intMax, none⟩)).2 := rfl
    _ = _ := by rw [← List.foldl_hom pair (pair_consider s)]; rfl

/-- **The victim of a full cache** has the least key, as long as the counts are in range. -/
lemma leastUsed_least (hn : 1 ≤ n) (hcap : s.cap = n) (hf : (s.slots 0).freq < intMax) :
    ∃ v < n, leastUsed s = some v ∧ ∀ i < n, key s v ≤ key s i := by
  have hrange : List.range s.cap.toNat = List.range n := by rw [hcap, Int.toNat_natCast]
  have hlt : key s 0 < toLex (intMax, intMax) := Prod.Lex.toLex_lt_toLex.mpr (Or.inl hf)
  obtain ⟨v, hv, he, hle⟩ := ArgMin.search_spec ⟨0, List.mem_range.mpr hn, hlt⟩
  refine ⟨v, List.mem_range.mp hv, ?_, fun i hi => hle i (List.mem_range.mpr hi)⟩
  rw [leastUsed_eq, hrange, he]

end Tempograph.LfuSteps
