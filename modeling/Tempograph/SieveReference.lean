import Mathlib.Data.List.Rotate
import Tempograph.SieveQueue

/-!
SIEVE as published, next to `sieve.c`.

The published algorithm keeps one queue in the order of insertion, takes its victim out of
the queue wherever the hand finds it and puts the new page at the head. `sieve.c` puts the
new page in the victim's slot. The two stay in step as long as every victim is at an end of
the queue; a victim between the ends puts the new page at different places, and for three
frames or more some trace shows it.
-/

namespace Tempograph.SieveReference

open Common Circular Runs SecondChance Sieve SieveQueue

/-- The queue from the tail, its oldest page, to the head; the hand is a place in it, and
unset before the first eviction and after the head was evicted. -/
structure Ref where
  queue : List Entry
  hand : Option ℕ

def empty : Ref := ⟨[], none⟩

/-- Move from place `i` toward the head, clearing visited bits, from the head back to the
tail, up to the first page not visited. One test more than there are pages is enough. -/
def scan : ℕ → List Entry → ℕ → List Entry × ℕ
  | 0, q, i => (q, i)
  | fuel + 1, q, i =>
    match q[i]? with
    | some (x, true) => scan fuel (q.set i (x, false)) (if i + 1 < q.length then i + 1 else 0)
    | _ => (q, i)

/-- The queue with the bits cleared on the way, and the place of the victim. -/
def victim (r : Ref) : List Entry × ℕ := scan (r.queue.length + 1) r.queue (r.hand.getD 0)

/-- Take the victim out. The hand stays on its neighbour toward the head. -/
def evict (r : Ref) : Ref :=
  let (q, i) := victim r
  ⟨q.eraseIdx i, if i + 1 < q.length then some i else none⟩

def insert (r : Ref) (page : Page) : Ref := { r with queue := r.queue ++ [(page, false)] }

def refAccess (n : ℕ) (r : Ref) (page : Page) : Ref × Result :=
  if page ∈ r.queue.map Prod.fst then ({ r with queue := r.queue.map (mark page) }, .hit)
  else (insert (if r.queue.length = n then evict r else r) page, .fault)

/-- `sieve.c`, from the statics `s₀` on, gives the results of the published algorithm. -/
def Agrees (s₀ : State) (n : ℕ) (tr : List Page) : Prop :=
  (sieveInit s₀ n).bind (fun s => outputs sieveAccess s tr) =
    some (results (refAccess n) empty tr)

instance (s₀ : State) (n : ℕ) (tr : List Page) : Decidable (Agrees s₀ n tr) :=
  inferInstanceAs (Decidable (_ = _))

/-- `sieve.c` misses a page that the published algorithm still holds. -/
theorem sieve_not_reference : ¬ Agrees start 3 [1, 2, 3, 1, 4, 5, 6, 1] := by decide

/-! ### The scan settles the queue -/

lemma split_at {α : Type*} {q : List α} {i : ℕ} (h : i < q.length) :
    ∃ a e b, q = a ++ e :: b ∧ a.length = i :=
  ⟨q.take i, q[i], q.drop (i + 1), by simp, by simp; omega⟩

lemma scan_spec (fuel : ℕ) {q : List Entry} {i : ℕ} (hi : i < q.length)
    (hf : q.countP (·.2) < fuel) :
    (scan fuel q i).2 < q.length ∧
      (scan fuel q i).1.rotate (scan fuel q i).2 = settle (q.rotate i) ∧
      (scan fuel q i).1.map Prod.fst = q.map Prod.fst := by
  induction fuel generalizing q i with
  | zero => omega
  | succ fuel ih =>
    obtain ⟨a, ⟨x, v⟩, b, rfl, rfl⟩ := split_at hi
    have hrot : (a ++ (x, v) :: b).rotate a.length = (x, v) :: (b ++ a) := by
      rw [List.rotate_append_length_eq]; rfl
    cases v with
    | false =>
      simp only [scan, List.getElem?_append_right le_rfl, Nat.sub_self, List.getElem?_cons_zero]
      exact ⟨hi, by rw [hrot, settle_unset], trivial⟩
    | true =>
      have hset : (a ++ (x, true) :: b).set a.length (x, false) = a ++ (x, false) :: b := by
        simp
      simp only [scan, List.getElem?_append_right le_rfl, Nat.sub_self, List.getElem?_cons_zero,
        hset]
      have hlen : (a ++ (x, false) :: b).length = (a ++ (x, true) :: b).length := by simp
      have hcount : (a ++ (x, false) :: b).countP (·.2) < fuel := by
        simp only [List.countP_append, List.countP_cons, if_true] at hf
        simp only [List.countP_append, List.countP_cons, Bool.false_eq_true, if_false]
        omega
      rw [hrot, settle_set]
      have hmap : (a ++ (x, false) :: b).map Prod.fst = (a ++ (x, true) :: b).map Prod.fst := by
        simp
      split_ifs with h1
      · obtain ⟨e1, e2, e3⟩ := ih (q := a ++ (x, false) :: b) (i := a.length + 1)
          (by rw [hlen]; exact h1) hcount
        refine ⟨by rw [← hlen]; exact e1, ?_, by rw [e3, hmap]⟩
        rw [e2, show a ++ (x, false) :: b = (a ++ [(x, false)]) ++ b by simp,
          show a.length + 1 = (a ++ [(x, false)]).length by simp, List.rotate_append_length_eq,
          List.append_assoc]
      · obtain rfl : b = [] := by
          cases b with
          | nil => rfl
          | cons y b => simp at h1
        obtain ⟨e1, e2, e3⟩ := ih (q := a ++ [(x, false)]) (i := 0) (by simp) hcount
        refine ⟨by rw [← hlen]; exact e1, ?_, by rw [e3, hmap]⟩
        rw [e2, List.rotate_zero, List.nil_append]

variable {n : ℕ} {q : List Entry} {r : Ref} {page : Page}

/-- The queue fits, and the hand is on one of its pages once it is full. -/
structure Ok (n : ℕ) (r : Ref) : Prop where
  size : r.queue.length ≤ n
  hand : r.hand.getD 0 = 0 ∨ r.queue.length = n ∧ r.hand.getD 0 < n

/-- The victim `v` of a full queue, with the pages toward the tail and toward the head. -/
lemma victim_spec (h : Ok n r) (hn : 1 ≤ n) (hfull : r.queue.length = n) :
    ∃ a v b, (victim r).2 = a.length ∧ (a ++ v :: b).map Prod.fst = r.queue.map Prod.fst ∧
      settle (r.queue.rotate (r.hand.getD 0)) = v :: (b ++ a) ∧
      evict r = ⟨a ++ b, if a.length + 1 < n then some a.length else none⟩ := by
  have hi : r.hand.getD 0 < r.queue.length := by rcases h.hand with hh | hh <;> omega
  obtain ⟨h1, h2, h3⟩ := scan_spec (r.queue.length + 1) hi
    (Nat.lt_succ_of_le List.countP_le_length)
  have hv : scan (r.queue.length + 1) r.queue (r.hand.getD 0) = victim r := rfl
  rw [hv] at h1 h2 h3
  have hlen : (victim r).1.length = r.queue.length := by
    simpa using congrArg List.length h3
  obtain ⟨a, v, b, hab, ha⟩ := split_at (q := (victim r).1) (i := (victim r).2) (by omega)
  have herase : (victim r).1.eraseIdx a.length = a ++ b := by
    rw [hab, List.eraseIdx_append_of_length_le le_rfl]; simp
  refine ⟨a, v, b, ha.symm, by rw [← hab, h3], ?_, ?_⟩
  · rw [← h2, hab, ← ha, List.rotate_append_length_eq]; rfl
  · unfold evict
    simp only [hlen, hfull, ← ha, herase]

lemma Ok.step (h : Ok n r) (hn : 1 ≤ n) (page : Page) : Ok n (refAccess n r page).1 := by
  have hs := h.size
  unfold refAccess
  split_ifs with hm hfull
  · exact ⟨by simpa using hs, by simpa using h.hand⟩
  · obtain ⟨a, v, b, -, hmap, -, he⟩ := victim_spec h hn hfull
    have hlen := congrArg List.length hmap
    simp only [List.length_map, List.length_append, List.length_cons, hfull] at hlen
    rw [he]
    refine ⟨by simp [insert]; omega, ?_⟩
    simp only [insert, List.length_append, List.length_singleton]
    split_ifs with hb
    · exact Or.inr ⟨by omega, by simpa using by omega⟩
    · exact Or.inl rfl
  · exact ⟨by simp [insert]; omega, Or.inl (h.hand.resolve_right fun hh => hfull hh.1)⟩

lemma ok_final (hn : 1 ≤ n) (tr : List Page) : Ok n (final (refAccess n) empty tr) := by
  induction tr using List.reverseRecOn with
  | nil => exact ⟨Nat.zero_le n, Or.inl rfl⟩
  | append_singleton tr page ih => rw [final_append]; exact ih.step hn page

/-! ### In step -/

/-- The victim is the tail or the head of the queue. -/
def AtEnd (r : Ref) : Prop := (victim r).2 = 0 ∨ (victim r).2 + 1 = r.queue.length

/-- The queue of `sieve.c` is the published one read from the hand on, behind the slots
that are still empty. -/
structure InStep (n : ℕ) (q : List Entry) (r : Ref) : Prop where
  order : q = List.replicate (n - r.queue.length) (-1, false) ++ r.queue.rotate (r.hand.getD 0)
  pages : ∀ e ∈ r.queue, e.1 ≠ -1

lemma inStep_empty (n : ℕ) : InStep n (List.replicate n (-1, false)) empty :=
  ⟨by simp [empty], by simp [empty]⟩

lemma InStep.mem (h : InStep n q r) (hp : page ≠ -1) :
    page ∈ q.map Prod.fst ↔ page ∈ r.queue.map Prod.fst := by
  rw [h.order]
  simp only [List.map_append, List.mem_append, List.map_replicate, List.mem_replicate,
    List.map_rotate, List.mem_rotate]
  exact ⟨fun hh => hh.resolve_left fun hh => hp hh.2, Or.inr⟩

lemma InStep.hit (h : InStep n q r) (hp : page ≠ -1) :
    InStep n (q.map (mark page)) { r with queue := r.queue.map (mark page) } where
  order := by
    have : mark page (-1, false) = (-1, false) := by simp [mark, Ne.symm hp]
    rw [h.order]
    simp [List.map_rotate, this]
  pages e he := by
    obtain ⟨e', he', rfl⟩ := List.mem_map.mp he
    simpa using h.pages e' he'

/-- A fault that finds an empty slot. -/
lemma InStep.fill (h : InStep n q r) (ho : Ok n r) (hp : page ≠ -1)
    (hlt : r.queue.length < n) :
    InStep n ((settle q).tail ++ [(page, false)]) (insert r page) where
  order := by
    have h0 : r.hand.getD 0 = 0 := ho.hand.resolve_right fun hh => by omega
    obtain ⟨k, hk⟩ : ∃ k, n - r.queue.length = k + 1 := ⟨n - r.queue.length - 1, by omega⟩
    have hk' : n - (r.queue.length + 1) = k := by omega
    rw [h.order, h0, hk]
    simp [List.replicate_succ, insert, h0, hk']
  pages e he := by
    rcases List.mem_append.mp he with he | he
    · exact h.pages e he
    · rw [List.mem_singleton.mp he]; exact hp

/-- A fault that evicts a page at an end of the queue. -/
lemma InStep.replace (h : InStep n q r) (ho : Ok n r) (hn : 1 ≤ n) (hp : page ≠ -1)
    (hfull : r.queue.length = n) (hend : AtEnd r) :
    InStep n ((settle q).tail ++ [(page, false)]) (insert (evict r) page) := by
  obtain ⟨a, v, b, hv, hmap, hsettle, hev⟩ := victim_spec ho hn hfull
  have hn' := congrArg List.length hmap
  simp only [List.length_map, List.length_append, List.length_cons, hfull] at hn'
  have hq : q = r.queue.rotate (r.hand.getD 0) := by rw [h.order, hfull]; simp
  rw [hq, hsettle, hev, List.tail_cons]
  refine ⟨?_, fun e he => ?_⟩
  · have hl : (a ++ b ++ [(page, false)]).length = n := by simp; omega
    simp only [insert, hl, Nat.sub_self, List.replicate_zero, List.nil_append]
    -- between the ends the two orders would differ: `a` would stand behind the new page
    rcases hend with hz | hz
    · obtain rfl : a = [] := List.length_eq_zero_iff.mp (by omega)
      split_ifs <;> simp
    · obtain rfl : b = [] := List.length_eq_zero_iff.mp (by omega)
      have : ¬ a.length + 1 < n := by omega
      simp [this]
  · rcases List.mem_append.mp he with he | he
    · have hmem : e.1 ∈ r.queue.map Prod.fst := by
        rw [← hmap]
        simp only [List.map_append, List.map_cons, List.mem_append, List.mem_cons]
        rcases List.mem_append.mp he with he | he
        · exact Or.inl (List.mem_map_of_mem he)
        · exact Or.inr (Or.inr (List.mem_map_of_mem he))
      obtain ⟨e', he', hee⟩ := List.mem_map.mp hmem
      rw [← hee]
      exact h.pages e' he'
    · rw [List.mem_singleton.mp he]; exact hp

/-- **In step.** An access keeps the two queues in step if a page it evicts is at an end of
the queue, and then the results are the same. -/
theorem InStep.step (h : InStep n q r) (ho : Ok n r) (hn : 1 ≤ n) (hp : page ≠ -1)
    (hend : r.queue.length = n → page ∉ r.queue.map Prod.fst → AtEnd r) :
    (access q page).2 = (refAccess n r page).2 ∧
      InStep n (access q page).1 (refAccess n r page).1 := by
  unfold access refAccess
  by_cases hm : page ∈ r.queue.map Prod.fst
  · rw [if_pos (h.mem hp |>.mpr hm), if_pos hm]
    exact ⟨rfl, h.hit hp⟩
  · rw [if_neg (fun hq => hm (h.mem hp |>.mp hq)), if_neg hm]
    refine ⟨rfl, ?_⟩
    by_cases hfull : r.queue.length = n
    · rw [if_pos hfull]; exact h.replace ho hn hp hfull (hend hfull hm)
    · rw [if_neg hfull]; exact h.fill ho hp (by have := ho.size; omega)

/-- Whenever the published algorithm evicts a page on this trace, the page is at an end of
its queue. -/
def EndVictims (n : ℕ) (tr : List Page) : Prop :=
  ∀ past page, past ++ [page] <+: tr →
    (final (refAccess n) empty past).queue.length = n →
    page ∉ (final (refAccess n) empty past).queue.map Prod.fst →
    AtEnd (final (refAccess n) empty past)

/-- The results of `sieve.c` are those of its queue. -/
lemma agrees_iff {s₀ : State} (h1 : 1 ≤ n) (h2 : n ≤ maxFrames) {tr : List Page}
    (htr : ∀ p ∈ tr, p ≠ -1) :
    Agrees s₀ n tr ↔
      results access (List.replicate n (-1, false)) tr = results (refAccess n) empty tr := by
  obtain ⟨s₁, s, q, os, hs₁, hs, hq, -⟩ := sieve_queue s₀ n h1 h2 tr htr
  rw [run_total, Option.some.injEq, Prod.mk.injEq] at hq
  rw [Agrees, hs₁, Option.bind_some, outputs_eq hs, hq.2, Option.some.injEq]

lemma agrees_of_endVictims {s₀ : State} (h1 : 1 ≤ n) (h2 : n ≤ maxFrames) {tr : List Page}
    (htr : ∀ p ∈ tr, p ≠ -1) (hend : EndVictims n tr) : Agrees s₀ n tr := by
  rw [agrees_iff h1 h2 htr]
  obtain ⟨q, r, os, hq, hr, -⟩ := run_sim (f := fun q page => some (access q page))
    (g := fun r page => some (refAccess n r page))
    (R := fun past q r => InStep n q r ∧ r = final (refAccess n) empty past)
    tr ⟨inStep_empty n, rfl⟩ fun past page q r hpre ⟨h, hr⟩ => by
      have hp := htr page (hpre.subset (by simp))
      obtain ⟨e, hs⟩ := h.step (hr ▸ ok_final h1 past) h1 hp fun hfull hm => by
        rw [hr]; exact hend past page hpre (hr ▸ hfull) (hr ▸ hm)
      refine ⟨(access q page).1, (refAccess n r page).1, (access q page).2, rfl, ?_, hs, ?_⟩
      · rw [e]
      · rw [final_append, ← hr]; rfl
  rw [run_total, Option.some.injEq, Prod.mk.injEq] at hq hr
  rw [hq.2, hr.2]

/-- A queue of at most two pages has nothing between its ends. -/
lemma endVictims_of_le_two (h1 : 1 ≤ n) (h2 : n ≤ 2) (tr : List Page) : EndVictims n tr := by
  intro past page _ hfull _
  obtain ⟨a, v, b, hv, hmap, -⟩ := victim_spec (ok_final h1 past) h1 hfull
  have hlen := congrArg List.length hmap
  simp only [List.length_map, List.length_append, List.length_cons, hfull] at hlen
  unfold AtEnd
  omega

/-! ### Out of step -/

/-- The `i`-th page of the trace that tells the two apart. -/
def pg (i : ℕ) : Page := Int32.ofNat i

/-- The pages from the `i`-th on, `k` of them. -/
def pgs (i k : ℕ) : List Page := (List.range k).map fun j => pg (i + j)

/-- Fill the cache, hit the oldest page, fault on as many new pages as there are frames and
ask for the oldest page again. -/
def apart (n : ℕ) : List Page := pgs 0 n ++ pg 0 :: pg n :: pgs (n + 1) (n - 1) ++ [pg 0]

lemma pg_inj {i j : ℕ} (hi : i < 2 ^ 31) (hj : j < 2 ^ 31) (h : pg i = pg j) : i = j := by
  have := congrArg Int32.toInt h
  rw [pg, pg, Int32.toInt_ofNat_of_lt hi, Int32.toInt_ofNat_of_lt hj] at this
  exact_mod_cast this

lemma pg_ne {i : ℕ} (hi : i < 2 ^ 31) : pg i ≠ -1 := by
  intro h
  have := congrArg Int32.toInt h
  rw [pg, Int32.toInt_ofNat_of_lt hi] at this
  have h1 : Int32.toInt (-1) = -1 := by decide
  omega

lemma pgs_succ (i k : ℕ) : pgs i (k + 1) = pg i :: pgs (i + 1) k := by
  simp [pgs, List.range_succ_eq_map, Function.comp_def, Nat.add_assoc, Nat.add_comm 1]

@[simp] lemma pgs_length (i k : ℕ) : (pgs i k).length = k := by simp [pgs]

lemma mem_pgs {i k : ℕ} {p : Page} : p ∈ pgs i k ↔ ∃ j, i ≤ j ∧ j < i + k ∧ pg j = p := by
  simp only [pgs, List.mem_map, List.mem_range]
  constructor
  · rintro ⟨j, hj, rfl⟩; exact ⟨i + j, by omega, by omega, rfl⟩
  · rintro ⟨j, h1, h2, rfl⟩; exact ⟨j - i, by omega, by rw [Nat.add_sub_cancel' h1]⟩

lemma pg_not_mem {i j k : ℕ} (hj : j < 2 ^ 31) (hik : i + k ≤ 2 ^ 31) (h : j < i ∨ i + k ≤ j) :
    pg j ∉ pgs i k := by
  rw [mem_pgs]
  rintro ⟨l, h1, h2, e⟩
  have := pg_inj (by omega) hj e
  omega

lemma pgs_nodup {i k : ℕ} (h : i + k ≤ 2 ^ 31) : (pgs i k).Nodup := by
  induction k generalizing i with
  | zero => simp [pgs]
  | succ k ih =>
    rw [pgs_succ, List.nodup_cons]
    exact ⟨pg_not_mem (by omega) (by omega) (by omega), ih (by omega)⟩

lemma pgs_disjoint {i j k l : ℕ} (h1 : i + k ≤ j) (h2 : j + l ≤ 2 ^ 31) :
    ∀ p ∈ pgs j l, p ∉ pgs i k := by
  intro p hp
  obtain ⟨m, h3, h4, rfl⟩ := mem_pgs.mp hp
  exact pg_not_mem (by omega) (by omega) (by omega)

/-- An entry with its bit unset. -/
def unset (page : Page) : Entry := (page, false)

/-- A hit on another page leaves the entries as they are. -/
lemma map_mark {p : Page} {l : List Page} (h : p ∉ l) :
    (l.map unset).map (mark p) = l.map unset := by
  rw [List.map_map]
  apply List.map_congr_left
  intro y hy
  have : y ≠ p := by rintro rfl; exact h hy
  simp [mark, unset, this]

/-- Faults on new pages push the oldest entries out of a queue with no bit set. -/
lemma access_fresh (ps : List Page) (l : List Page) (hl : l ≠ []) (hnd : ps.Nodup)
    (hnew : ∀ p ∈ ps, p ∉ l) :
    final access (l.map unset) ps = ((l ++ ps).drop ps.length).map unset := by
  induction ps generalizing l with
  | nil => simp [final]
  | cons p ps ih =>
    obtain ⟨x, l, rfl⟩ := List.exists_cons_of_ne_nil hl
    have hmem : p ∉ ((x :: l).map unset).map Prod.fst := by
      simpa [unset, Function.comp_def] using hnew p (by simp)
    have hstep : (access ((x :: l).map unset) p).1 = (l ++ [p]).map unset := by
      rw [access, if_neg hmem]
      simp [unset]
    obtain ⟨hp, hnd⟩ := List.nodup_cons.mp hnd
    have := ih (l ++ [p]) (by simp) hnd fun y hy => by
      have h1 : y ∉ x :: l := hnew y (by simp [hy])
      have h2 : y ≠ p := by rintro rfl; exact hp hy
      simp only [List.mem_cons, not_or] at h1
      simp [h1.2, h2]
    rw [final, List.foldl_cons, hstep, ← final, this]
    simp

/-- The published queue only grows while it is not full. -/
lemma ref_fresh (ps : List Page) (l : List Page) (hlen : l.length + ps.length ≤ n)
    (hnd : ps.Nodup) (hnew : ∀ p ∈ ps, p ∉ l) :
    final (refAccess n) ⟨l.map unset, none⟩ ps = ⟨(l ++ ps).map unset, none⟩ := by
  induction ps generalizing l with
  | nil => simp [final]
  | cons p ps ih =>
    simp only [List.length_cons] at hlen
    have hmem : p ∉ (l.map unset).map Prod.fst := by
      simpa [unset, Function.comp_def] using hnew p (by simp)
    have hstep : (refAccess n ⟨l.map unset, none⟩ p).1 = ⟨(l ++ [p]).map unset, none⟩ := by
      have hlt : l.length ≠ n := by omega
      simp only [refAccess, if_neg hmem, List.length_map, if_neg hlt]
      simp [insert, unset]
    obtain ⟨hp, hnd⟩ := List.nodup_cons.mp hnd
    have := ih (l ++ [p]) (by simp; omega) hnd fun y hy => by
      have h1 : y ∉ l := hnew y (by simp [hy])
      have h2 : y ≠ p := by rintro rfl; exact hp hy
      simp [h1, h2]
    rw [final, List.foldl_cons, hstep, ← final, this]
    simp

/-- A page that the hand of the full published queue has passed stays at the tail while new
pages come and go at the other end. -/
lemma ref_keeps (ps : List Page) (x : Page) (l : List Page) (hl : l.length + 1 = n)
    (hn : 3 ≤ n) (hnd : ps.Nodup) (hnew : ∀ p ∈ ps, p ∉ x :: l) :
    ∃ l', (final (refAccess n) ⟨(x :: l).map unset, some 1⟩ ps).queue = (x :: l').map unset := by
  induction ps generalizing l with
  | nil => exact ⟨l, rfl⟩
  | cons p ps ih =>
    obtain ⟨y, l, rfl⟩ : ∃ y m, l = y :: m := List.exists_cons_of_ne_nil (by
      rintro rfl; simp at hl; omega)
    simp only [List.length_cons] at hl
    have hmem : p ∉ ((x :: y :: l).map unset).map Prod.fst := by
      simpa [unset, Function.comp_def] using hnew p (by simp)
    have hv : victim ⟨(x :: y :: l).map unset, some 1⟩ = ((x :: y :: l).map unset, 1) := by
      simp [victim, scan, unset]
    have hstep : (refAccess n ⟨(x :: y :: l).map unset, some 1⟩ p).1 =
        ⟨(x :: (l ++ [p])).map unset, some 1⟩ := by
      have hfull : ((x :: y :: l).map unset).length = n := by simp; omega
      simp only [refAccess, if_neg hmem, if_pos hfull, evict, hv]
      have : 1 + 1 < n := by omega
      rw [if_pos (by rw [hfull]; exact this)]
      simp [insert, unset]
    obtain ⟨hp, hnd⟩ := List.nodup_cons.mp hnd
    rw [final, List.foldl_cons, hstep, ← final]
    apply ih (l ++ [p]) (by simp; omega) hnd
    intro z hz
    have h1 : z ∉ x :: y :: l := hnew z (by simp [hz])
    have h2 : z ≠ p := by rintro rfl; exact hp hz
    simp only [List.mem_cons, not_or] at h1
    simp [h1.1, h1.2.2, h2]

/-- Before the last access of `apart`, `sieve.c` has dropped the oldest page. -/
lemma apart_access (hn : 3 ≤ n) (h2 : n ≤ maxFrames) :
    pg 0 ∉ (final access (List.replicate n (-1, false))
      (pgs 0 n ++ pg 0 :: pg n :: pgs (n + 1) (n - 1))).map Prod.fst := by
  have hmax : n ≤ 512 := h2
  obtain ⟨k, rfl⟩ : ∃ k, n = k + 2 := ⟨n - 2, by omega⟩
  have h0 : List.replicate (k + 2) ((-1 : Page), false) =
      (List.replicate (k + 2) (-1 : Page)).map unset := by simp [unset]
  have hfill := access_fresh (pgs 0 (k + 2)) (List.replicate (k + 2) (-1)) (by simp)
    (pgs_nodup (by omega)) fun p hp hm => by
      obtain ⟨j, -, hj, rfl⟩ := mem_pgs.mp hp
      exact pg_ne (by omega) (List.eq_of_mem_replicate hm)
  have hdrop : (List.replicate (k + 2) (-1 : Page) ++ pgs 0 (k + 2)).drop
      (pgs 0 (k + 2)).length = pgs 0 (k + 2) := by
    rw [List.drop_append_of_le_length (by simp)]; simp
  rw [final_append, h0, hfill, hdrop, pgs_succ, pgs_succ]
  have h01 : pg 1 ≠ pg 0 := fun e => by have := pg_inj (by omega) (by omega) e; omega
  have h0r : pg 0 ∉ pgs 2 k := pg_not_mem (by omega) (by omega) (by omega)
  have hhit : (access ((pg 0 :: pg 1 :: pgs 2 k).map unset) (pg 0)).1 =
      (pg 0, true) :: (pg 1 :: pgs 2 k).map unset := by
    rw [access, if_pos (by simp [unset])]
    simp only [List.map_cons, map_mark h0r]
    simp [mark, unset, h01]
  have hfault : (access ((pg 0, true) :: (pg 1 :: pgs 2 k).map unset) (pg (k + 2))).1 =
      (pgs 2 k ++ [pg 0, pg (k + 2)]).map unset := by
    have hnew : pg (k + 2) ∉ pgs 0 (k + 2) := pg_not_mem (by omega) (by omega) (by omega)
    rw [pgs_succ, pgs_succ] at hnew
    rw [access, if_neg (by simpa [unset, Function.comp_def] using hnew)]
    simp [unset]
  have hlast := access_fresh (pgs (k + 3) (k + 1)) (pgs 2 k ++ [pg 0, pg (k + 2)]) (by simp)
    (pgs_nodup (by omega)) fun p hp => by
      have h1 := pgs_disjoint (i := 0) (k := k + 3) (by omega) (by omega) p hp
      rw [mem_pgs] at h1
      simp only [List.mem_append, mem_pgs, List.mem_cons, List.not_mem_nil, or_false]
      rintro (⟨j, h2, h3, e⟩ | e | e)
      · exact h1 ⟨j, by omega, by omega, e⟩
      · exact h1 ⟨0, by omega, by omega, e.symm⟩
      · exact h1 ⟨k + 2, by omega, by omega, e.symm⟩
  have hdrop' : (pgs 2 k ++ [pg 0, pg (k + 2)] ++ pgs (k + 3) (k + 1)).drop
      (pgs (k + 3) (k + 1)).length = pg (k + 2) :: pgs (k + 3) (k + 1) := by
    rw [show pgs 2 k ++ [pg 0, pg (k + 2)] ++ pgs (k + 3) (k + 1) =
      (pgs 2 k ++ [pg 0]) ++ pg (k + 2) :: pgs (k + 3) (k + 1) by simp]
    exact List.drop_left' (by simp)
  rw [final, List.foldl_cons, hhit, List.foldl_cons, hfault, ← final,
    show k + 2 - 1 = k + 1 by omega, hlast, hdrop', ← pgs_succ]
  have : pg 0 ∉ pgs (k + 2) (k + 1 + 1) := pg_not_mem (by omega) (by omega) (by omega)
  simpa [unset, Function.comp_def] using this

/-- The published algorithm still holds it. -/
lemma apart_ref (hn : 3 ≤ n) (h2 : n ≤ maxFrames) :
    pg 0 ∈ (final (refAccess n) empty
      (pgs 0 n ++ pg 0 :: pg n :: pgs (n + 1) (n - 1))).queue.map Prod.fst := by
  have hmax : n ≤ 512 := h2
  obtain ⟨k, rfl⟩ : ∃ k, n = k + 2 := ⟨n - 2, by omega⟩
  have hfill := ref_fresh (n := k + 2) (pgs 0 (k + 2)) [] (by simp) (pgs_nodup (by omega))
    (by simp)
  rw [List.map_nil, List.nil_append] at hfill
  rw [final_append, empty, hfill, pgs_succ, pgs_succ]
  have h01 : pg 1 ≠ pg 0 := fun e => by have := pg_inj (by omega) (by omega) e; omega
  have h0r : pg 0 ∉ pgs 2 k := pg_not_mem (by omega) (by omega) (by omega)
  have hhit : (refAccess (k + 2) ⟨(pg 0 :: pg 1 :: pgs 2 k).map unset, none⟩ (pg 0)).1 =
      ⟨(pg 0, true) :: (pg 1 :: pgs 2 k).map unset, none⟩ := by
    rw [refAccess, if_pos (by simp [unset])]
    simp only [List.map_cons, map_mark h0r]
    simp [mark, unset, h01]
  have hfault : (refAccess (k + 2) ⟨(pg 0, true) :: (pg 1 :: pgs 2 k).map unset, none⟩
      (pg (k + 2))).1 = ⟨(pg 0 :: (pgs 2 k ++ [pg (k + 2)])).map unset, some 1⟩ := by
    have hnew : pg (k + 2) ∉ pgs 0 (k + 2) := pg_not_mem (by omega) (by omega) (by omega)
    rw [pgs_succ, pgs_succ] at hnew
    have hv : victim ⟨(pg 0, true) :: (pg 1 :: pgs 2 k).map unset, none⟩ =
        ((pg 0 :: pg 1 :: pgs 2 k).map unset, 1) := by
      simp [victim, scan, unset]
    have hlt : 1 + 1 < k + 2 := by omega
    rw [refAccess, if_neg (by simpa [unset, Function.comp_def] using hnew),
      if_pos (by simp), evict, hv]
    simp [insert, unset]
    omega
  obtain ⟨l, hl⟩ := ref_keeps (n := k + 2) (pgs (k + 3) (k + 1)) (pg 0)
    (pgs 2 k ++ [pg (k + 2)]) (by simp) (by omega) (pgs_nodup (by omega)) fun p hp => by
      have h1 := pgs_disjoint (i := 0) (k := k + 3) (by omega) (by omega) p hp
      rw [mem_pgs] at h1
      simp only [List.mem_append, mem_pgs, List.mem_cons, List.not_mem_nil, or_false]
      rintro (e | ⟨j, h2, h3, e⟩ | e)
      · exact h1 ⟨0, by omega, by omega, e.symm⟩
      · exact h1 ⟨j, by omega, by omega, e⟩
      · exact h1 ⟨k + 2, by omega, by omega, e.symm⟩
  rw [final, List.foldl_cons, hhit, List.foldl_cons, hfault, ← final,
    show k + 2 - 1 = k + 1 by omega, hl]
  simp [unset]

lemma not_agrees_apart (s₀ : State) (hn : 3 ≤ n) (h2 : n ≤ maxFrames) :
    (∀ p ∈ apart n, p ≠ -1) ∧ ¬ Agrees s₀ n (apart n) := by
  have hmax : n ≤ 512 := h2
  have hpages : ∀ p ∈ apart n, p ≠ -1 := by
    intro p hp
    simp only [apart, List.mem_append, List.mem_cons, mem_pgs, List.not_mem_nil, or_false] at hp
    obtain ⟨i, hi, rfl⟩ : ∃ i < 2 ^ 31, p = pg i := by
      rcases hp with (⟨j, -, h, rfl⟩ | rfl | rfl | ⟨j, -, h, rfl⟩) | rfl
      exacts [⟨j, by omega, rfl⟩, ⟨0, by omega, rfl⟩, ⟨n, by omega, rfl⟩, ⟨j, by omega, rfl⟩,
        ⟨0, by omega, rfl⟩]
    exact pg_ne hi
  refine ⟨hpages, fun h => ?_⟩
  rw [agrees_iff (by omega) h2 hpages, apart, results_append _ _ _ [pg 0],
    results_append _ _ _ [pg 0]] at h
  have hlast := (List.append_inj' h (by simp [results])).2
  simp only [results, List.cons.injEq, and_true] at hlast
  rw [access, if_neg (apart_access hn h2), refAccess, if_pos (apart_ref hn h2)] at hlast
  cases hlast

/-- **When `sieve.c` is SIEVE.** On a trace whose evictions all take the page at an end of
the queue the results are those of the published algorithm; and they are so on every trace
exactly when there are at most two frames. -/
theorem sieve_reference_iff (s₀ : State) (n : ℕ) (h1 : 1 ≤ n) (h2 : n ≤ maxFrames) :
    (∀ tr, (∀ p ∈ tr, p ≠ -1) → EndVictims n tr → Agrees s₀ n tr) ∧
      ((∀ tr, (∀ p ∈ tr, p ≠ -1) → Agrees s₀ n tr) ↔ n ≤ 2) := by
  refine ⟨fun tr htr => agrees_of_endVictims h1 h2 htr, fun h => ?_, fun hn tr htr => ?_⟩
  · by_contra hn
    obtain ⟨hp, hna⟩ := not_agrees_apart s₀ (by omega) h2
    exact hna (h (apart n) hp)
  · exact agrees_of_endVictims h1 h2 htr (endVictims_of_le_two h1 hn tr)

/-- The theorem at two frames. -/
theorem sieve_reference_two : 1 ≤ 2 ∧ 2 ≤ maxFrames ∧ Agrees start 2 [1, 2, 1, 3, 4, 1] := by
  refine ⟨by decide, by decide, ?_⟩
  exact (sieve_reference_iff start 2 (by decide) (by decide)).2.mpr le_rfl _ (by simp)

end Tempograph.SieveReference
