import Tempograph.Recency
import Tempograph.Runs

/-!
Demand paging.

A cache of at most `n` items serves requests. A request for a resident item hits and leaves
the residents as they are; any other faults, brings its item in and may take others out. How
a policy chooses them, and whether it knows the requests to come, is left open.

The most recently used items are one such policy. What is shown of it here compares it with
all others.
-/

namespace Tempograph.Paging

open Recency Runs

variable {α : Type*} [DecidableEq α] {n k : ℕ} {C D E : Finset α} {x : α} {b : Bool}
  {is js tr : List α} {os : List Bool}

/-- One request: whether it hits, and the residents after it. -/
inductive Served (n : ℕ) (C : Finset α) (x : α) : Bool → Finset α → Prop
  | hit : x ∈ C → Served n C x true C
  | fault {D : Finset α} : x ∉ C → x ∈ D → D ⊆ insert x C → D.card ≤ n → Served n C x false D

/-- Requests one after the other, and which of them hit. -/
inductive Serves (n : ℕ) : Finset α → List α → List Bool → Finset α → Prop
  | nil (C : Finset α) : Serves n C [] [] C
  | cons {C D E : Finset α} {x : α} {b : Bool} {is : List α} {os : List Bool} :
      Served n C x b D → Serves n D is os E → Serves n C (x :: is) (b :: os) E

lemma Served.mem (h : Served n C x b D) : x ∈ D := by
  cases h with
  | hit h => exact h
  | fault _ h => exact h

lemma Served.hit_iff (h : Served n C x b D) : b = true ↔ x ∈ C := by
  cases h with
  | hit h => exact iff_of_true rfl h
  | fault h => exact iff_of_false (by simp) h

lemma Served.eq_of_hit (h : Served n C x true D) : D = C := by
  cases h
  rfl

lemma Served.subset (h : Served n C x b D) : D ⊆ insert x C := by
  cases h with
  | hit => exact Finset.subset_insert x C
  | fault _ _ h => exact h

lemma Served.card_le (h : Served n C x b D) (hC : C.card ≤ n) : D.card ≤ n := by
  cases h with
  | hit => exact hC
  | fault _ _ _ h => exact h

lemma Serves.card_le (h : Serves n C is os D) (hC : C.card ≤ n) : D.card ≤ n := by
  induction h with
  | nil => exact hC
  | cons h _ ih => exact ih (h.card_le hC)

lemma Serves.append {os' : List Bool} (h : Serves n C is os D) (h' : Serves n D js os' E) :
    Serves n C (is ++ js) (os ++ os') E := by
  induction h with
  | nil => exact h'
  | cons hs _ ih => exact .cons hs (ih h')

lemma Serves.snoc (h : Serves n C is os D) (h' : Served n D x b E) :
    Serves n C (is ++ [x]) (os ++ [b]) E := h.append (.cons h' (.nil E))

/-- Requests and more requests are served in two parts. -/
lemma Serves.split (h : Serves n C (is ++ js) os E) :
    ∃ D os₁ os₂, Serves n C is os₁ D ∧ Serves n D js os₂ E ∧ os = os₁ ++ os₂ := by
  induction is generalizing C os with
  | nil => exact ⟨C, [], os, .nil C, h, rfl⟩
  | cons x is ih =>
    cases h with
    | cons hs h =>
      obtain ⟨D, os₁, os₂, h1, h2, rfl⟩ := ih h
      exact ⟨D, _, os₂, .cons hs h1, h2, rfl⟩

lemma Serves.last_mem (h : Serves n C (is ++ [x]) os D) : x ∈ D := by
  obtain ⟨E, os₁, os₂, -, h, -⟩ := h.split
  cases h with
  | cons hs h =>
    cases h
    exact hs.mem

/-- **Demand**: every item that is not resident at first costs a fault. -/
theorem Serves.demand (h : Serves n C is os D) : (is.toFinset \ C).card ≤ os.count false := by
  induction h with
  | nil => simp
  | @cons C D E x b is os hs _ ih =>
    cases hs with
    | hit hx =>
      have hset : (x :: is).toFinset \ C = is.toFinset \ C := by
        rw [List.toFinset_cons, Finset.insert_sdiff_of_mem _ hx]
      rw [hset]
      simpa using ih
    | fault hx _ hsub _ =>
      have hset : (x :: is).toFinset \ C ⊆ insert x (is.toFinset \ D) := by
        intro y hy
        simp only [List.toFinset_cons, Finset.mem_sdiff, Finset.mem_insert] at hy ⊢
        by_cases hyx : y = x
        · exact Or.inl hyx
        · refine Or.inr ⟨hy.1.resolve_left hyx, fun hD => ?_⟩
          exact hy.2 ((Finset.mem_insert.mp (hsub hD)).resolve_left hyx)
      calc ((x :: is).toFinset \ C).card ≤ (is.toFinset \ D).card + 1 :=
            (Finset.card_le_card hset).trans (Finset.card_insert_le _ _)
        _ ≤ os.count false + 1 := Nat.succ_le_succ ih
        _ = (false :: os).count false := (List.count_cons_self).symm

/-- With one item known to be resident, of the other items all but `n - 1` cost a fault. -/
lemma Serves.demand_of_mem (h : Serves n C is os D) (hC : C.card ≤ n) (hx : x ∈ C) :
    (is.toFinset.erase x).card + 1 ≤ os.count false + n := by
  have hsub : is.toFinset.erase x ⊆ (is.toFinset \ C) ∪ C.erase x := by
    intro y hy
    obtain ⟨hyx, hy⟩ := Finset.mem_erase.mp hy
    by_cases hyC : y ∈ C
    · exact Finset.mem_union_right _ (Finset.mem_erase.mpr ⟨hyx, hyC⟩)
    · exact Finset.mem_union_left _ (Finset.mem_sdiff.mpr ⟨hy, hyC⟩)
  have hle := (Finset.card_le_card hsub).trans (Finset.card_union_le _ _)
  have herase := Finset.card_erase_add_one hx
  have hdemand := h.demand
  omega

/-- A cache of one item hits exactly the requests for the item requested just before. -/
def repeats (last : Option α) : List α → List Bool
  | [] => []
  | x :: is => decide (last = some x) :: repeats (some x) is

lemma Serves.eq_repeats {last : Option α} (h : Serves 1 C is os D)
    (hC : ∀ y, y ∈ C ↔ last = some y) : os = repeats last is := by
  induction h generalizing last with
  | nil => rfl
  | @cons C D E x b is os hs h ih =>
    have hb : b = decide (last = some x) := by
      rw [Bool.eq_iff_iff, hs.hit_iff, hC, decide_eq_true_iff]
    rw [repeats, hb]
    congr 1
    refine ih fun y => ?_
    cases hs with
    | hit hx =>
      rw [hC, (hC x).mp hx]
    | fault _ hx _ hcard =>
      rw [Option.some.injEq]
      constructor
      · exact fun hy => Finset.card_le_one.mp hcard x hx y hy
      · rintro rfl
        exact hx

/-! ### The most recently used items -/

/-- One request of the cache of the `k` most recently used items. -/
def lruStep (k : ℕ) (l : List α) (x : α) : List α × Bool :=
  ((touch x l).take k, decide (x ∈ l))

/-- Its hits on a trace. -/
def lruHits (k : ℕ) (tr : List α) : List Bool := results (lruStep k) [] tr

def lruFaults (k : ℕ) (tr : List α) : ℕ := (lruHits k tr).count false

lemma final_lruStep (k : ℕ) (tr : List α) : final (lruStep k) [] tr = (recency tr).take k := by
  induction tr using List.reverseRecOn with
  | nil => simp [final]
  | append_singleton tr x ih =>
    rw [final_append, ih, recency_snoc, take_touch x (recency tr) k]
    rfl

lemma lruHits_snoc (k : ℕ) (tr : List α) (x : α) :
    lruHits k (tr ++ [x]) = lruHits k tr ++ [decide (x ∈ (recency tr).take k)] := by
  rw [lruHits, results_append, final_lruStep]
  rfl

lemma toFinset_touch {l : List α} (hx : x ∈ l) : (touch x l).toFinset = l.toFinset := by
  ext y
  rw [List.mem_toFinset, List.mem_toFinset, mem_touch_of_mem hx]

lemma served_lruStep {l : List α} (hk : 1 ≤ k) (hl : l.length ≤ k) :
    Served k l.toFinset x (lruStep k l x).2 (lruStep k l x).1.toFinset := by
  obtain ⟨k, rfl⟩ : ∃ m, k = m + 1 := ⟨k - 1, by omega⟩
  by_cases hx : x ∈ l
  · have hset : (lruStep (k + 1) l x).1.toFinset = l.toFinset := by
      rw [lruStep, List.take_of_length_le (by rwa [length_touch_of_mem hx]), toFinset_touch hx]
    rw [hset]
    simpa [lruStep, hx] using Served.hit (n := k + 1) (List.mem_toFinset.mpr hx)
  · have hfalse : (lruStep (k + 1) l x).2 = false := by simp [lruStep, hx]
    rw [hfalse]
    refine .fault (by simpa using hx) (by simp [lruStep, touch]) (fun y hy => ?_)
      (((lruStep (k + 1) l x).1.toFinset_card_le).trans (List.length_take_le _ _))
    have := mem_touch.mp (List.mem_of_mem_take (List.mem_toFinset.mp hy))
    simpa using this

@[simp] lemma lruFaults_nil (k : ℕ) : lruFaults k ([] : List α) = 0 := rfl

lemma lruFaults_snoc (k : ℕ) (tr : List α) (x : α) :
    lruFaults k (tr ++ [x]) = lruFaults k tr + if x ∈ (recency tr).take k then 0 else 1 := by
  rw [lruFaults, lruHits_snoc, List.count_append, ← lruFaults]
  by_cases h : x ∈ (recency tr).take k <;> simp [h]

lemma lruFaults_anti {k' : ℕ} (hk : k ≤ k') (tr : List α) : lruFaults k' tr ≤ lruFaults k tr := by
  induction tr using List.reverseRecOn with
  | nil => exact le_rfl
  | append_singleton tr x ih =>
    have hsub := (List.take_sublist_take_left (l := recency tr) hk).subset
    rw [lruFaults_snoc, lruFaults_snoc]
    split_ifs with h1 h2 h2
    · exact ih
    · exact ih.trans (Nat.le_add_right _ _)
    · exact absurd (hsub h2) h1
    · exact Nat.add_le_add_right ih 1

/-- A cache that faults on none of the `k` most recently used items has no more faults. -/
lemma count_false_le_lruFaults (hlen : os.length = tr.length)
    (h : ∀ i (hi : i < tr.length) (hi' : i < os.length), os[i] = false →
      tr[i] ∉ (recency (tr.take i)).take k) : os.count false ≤ lruFaults k tr := by
  induction tr using List.reverseRecOn generalizing os with
  | nil => simp [List.length_eq_zero_iff.mp hlen]
  | append_singleton tr x ih =>
    obtain ⟨os, b, rfl⟩ : ∃ os' b, os = os' ++ [b] :=
      ⟨os.dropLast, os.getLast (List.ne_nil_of_length_pos (by simp [hlen])),
        (List.dropLast_append_getLast _).symm⟩
    have hlen' : os.length = tr.length := by simpa using hlen
    have hbefore := ih hlen' fun i hi hi' e => by
      have := h i (by simp; omega) (by simp; omega)
      simp only [List.getElem_append_left hi, List.getElem_append_left hi',
        List.take_append_of_le_length hi.le] at this
      exact this e
    have hlast : b = false → x ∉ (recency tr).take k := fun e => by
      have := h tr.length (by simp) (by simp [hlen'])
      simp only [List.getElem_append_right hlen'.le, List.getElem_append_right le_rfl, hlen',
        Nat.sub_self, List.getElem_singleton, List.take_left'] at this
      exact this e
    rw [List.count_append, lruFaults_snoc]
    cases b with
    | true => simpa using hbefore.trans (Nat.le_add_right _ _)
    | false =>
      rw [if_neg (hlast rfl)]
      simpa using hbefore

/-- **A segment with few items**: each of its faults is the first request for an item in
`pre` and the segment, unless these have more than `k` items. -/
lemma segment_faults (k : ℕ) (past pre seg : List α) :
    lruFaults k (past ++ pre ++ seg) ≤
        lruFaults k (past ++ pre) + (seg.toFinset \ pre.toFinset).card ∨
      k < (pre ++ seg).toFinset.card := by
  induction seg using List.reverseRecOn with
  | nil => simp
  | append_singleton seg x ih =>
    have hset : (pre ++ (seg ++ [x])).toFinset = insert x (pre ++ seg).toFinset := by
      ext; simp
    rcases ih with ih | ih
    · by_cases hk : k < (pre ++ seg).toFinset.card
      · right
        rw [hset]
        exact hk.trans_le (Finset.card_le_card (Finset.subset_insert _ _))
      left
      have hsub : seg.toFinset \ pre.toFinset ⊆ (seg ++ [x]).toFinset \ pre.toFinset :=
        Finset.sdiff_subset_sdiff (by simp) (Finset.Subset.refl _)
      rw [← List.append_assoc, lruFaults_snoc]
      split_ifs with hx
      · have := Finset.card_le_card hsub
        omega
      · -- the item is new, as few others were requested since its last request
        have hnew : x ∉ pre ++ seg := by
          intro hm
          obtain ⟨before, since, hsplit, hsince⟩ := exists_last_split hm
          have hsmall : since.toFinset.card < k := by
            have hss : insert x since.toFinset ⊆ (pre ++ seg).toFinset := by
              rw [hsplit]
              intro y hy
              simp only [Finset.mem_insert, List.mem_toFinset] at hy
              simp only [List.mem_toFinset, List.mem_append, List.mem_cons]
              tauto
            have := Finset.card_le_card hss
            rw [Finset.card_insert_of_notMem (by simpa using hsince)] at this
            omega
          refine hx ?_
          rw [List.append_assoc, hsplit, ← List.append_assoc]
          exact mem_take_recency_of hsmall
        rw [List.mem_append, not_or] at hnew
        have hins : (seg ++ [x]).toFinset \ pre.toFinset =
            insert x (seg.toFinset \ pre.toFinset) := by
          ext y
          simp only [Finset.mem_sdiff, List.mem_toFinset, List.mem_append, List.mem_singleton,
            Finset.mem_insert]
          by_cases hy : y = x
          · simp [hy, hnew.1]
          · simp [hy]
        rw [hins, Finset.card_insert_of_notMem (by simp [hnew.2])]
        omega
    · right
      rw [hset]
      exact ih.trans_le (Finset.card_le_card (Finset.subset_insert _ _))

/-- The faults grow one by one. -/
lemma exists_faults_eq {m : ℕ} (h : m ≤ lruFaults k tr) :
    ∃ past seg, tr = past ++ seg ∧ lruFaults k past = m := by
  induction tr using List.reverseRecOn with
  | nil => exact ⟨[], [], rfl, (Nat.le_zero.mp h).symm⟩
  | append_singleton tr x ih =>
    rcases Nat.lt_or_ge (lruFaults k tr) m with hlt | hge
    · refine ⟨tr ++ [x], [], (List.append_nil _).symm, ?_⟩
      rw [lruFaults_snoc] at h ⊢
      split_ifs at h ⊢ <;> omega
    · obtain ⟨past, seg, rfl, he⟩ := ih hge
      exact ⟨past, seg ++ [x], List.append_assoc _ _ _, he⟩

/-- While it has at most `k` faults, each is for an item of its own. -/
lemma lruFaults_le_card (h : lruFaults k tr ≤ k) : lruFaults k tr ≤ tr.toFinset.card := by
  rcases segment_faults k [] [] tr with hseg | hseg
  · simpa using hseg
  · rw [List.nil_append] at hseg
    omega

/-- In every segment with `k` faults the other policy has `k + 1 - h` of them. -/
lemma faults_of_segment {h : ℕ} {past seg : List α} {p : α} (hC : C.card ≤ h) (hp : p ∈ C)
    (hs : Serves h C seg os D)
    (hseg : lruFaults k (past ++ [p] ++ seg) = lruFaults k (past ++ [p]) + k) :
    k + 1 ≤ os.count false + h := by
  have hcard : k ≤ (seg.toFinset.erase p).card := by
    rcases segment_faults k past [p] seg with h1 | h1
    · rw [hseg] at h1
      simpa [Finset.sdiff_singleton_eq_erase] using h1
    · have hset : ([p] ++ seg).toFinset = insert p (seg.toFinset.erase p) := by
        ext y
        by_cases hy : y = p <;> simp [hy]
      rw [hset, Finset.card_insert_of_notMem (Finset.notMem_erase _ _)] at h1
      omega
  have := hs.demand_of_mem hC hp
  omega

/-- **The cache of the `k` most recently used items is competitive**: on no trace does it
have more than `k / (k + 1 - h)` times the faults of a cache of `h ≤ k` items, however that
one chooses its residents. -/
theorem lru_competitive {h : ℕ} (h1 : 1 ≤ h) (hk : h ≤ k) (hs : Serves h ∅ tr os D) :
    (k + 1 - h) * lruFaults k tr ≤ k * os.count false := by
  obtain ⟨m, hm⟩ : ∃ m, tr.length = m := ⟨_, rfl⟩
  induction m using Nat.strong_induction_on generalizing tr os D with
  | _ m ih =>
    subst hm
    have hle : k + 1 - h ≤ k := by omega
    rcases Nat.lt_or_ge k (lruFaults k tr) with hlt | hge
    · -- the last `k` faults and all before them
      obtain ⟨past, seg, rfl, hpast⟩ := exists_faults_eq (Nat.sub_le (lruFaults k tr) k)
      have hne : past ≠ [] := by
        rintro rfl
        rw [lruFaults_nil] at hpast
        omega
      have hsne : seg ≠ [] := by
        rintro rfl
        rw [List.append_nil] at hpast hlt
        omega
      obtain ⟨past, p, rfl⟩ := List.eq_nil_or_concat past |>.resolve_left hne
      rw [List.concat_eq_append] at *
      obtain ⟨C, os₁, os₂, hs₁, hs₂, rfl⟩ := hs.split
      have hseg : lruFaults k (past ++ [p] ++ seg) = lruFaults k (past ++ [p]) + k := by omega
      have hlast := faults_of_segment (hs₁.card_le (by simp)) hs₁.last_mem hs₂ hseg
      have hbefore := ih (past ++ [p]).length (by
        have := List.length_pos_of_ne_nil hsne
        rw [@List.length_append _ (past ++ [p])]
        omega) hs₁ rfl
      rw [List.count_append]
      calc (k + 1 - h) * lruFaults k (past ++ [p] ++ seg)
          = (k + 1 - h) * lruFaults k (past ++ [p]) + k * (k + 1 - h) := by
            rw [show lruFaults k (past ++ [p] ++ seg) = lruFaults k (past ++ [p]) + k by omega]
            ring
        _ ≤ k * os₁.count false + k * os₂.count false := by
            refine Nat.add_le_add hbefore (Nat.mul_le_mul_left k ?_)
            omega
        _ = k * (os₁.count false + os₂.count false) := (Nat.mul_add _ _ _).symm
    · have hdemand := hs.demand
      rw [Finset.sdiff_empty] at hdemand
      exact Nat.mul_le_mul hle ((lruFaults_le_card hge).trans hdemand)

/-! ### The worst case -/

omit [DecidableEq α] in
/-- A policy whose residents are known from the requests so far can be made to fault at every
request, as long as there are more items than it holds. -/
theorem exists_all_faults {U : Finset α} {L : ℕ} (residents : List α → Finset α)
    (hcard : ∀ tr, (∀ x ∈ tr, x ∈ U) → tr.length < L → (residents tr).card < U.card) :
    ∃ tr, tr.length = L ∧ (∀ x ∈ tr, x ∈ U) ∧
      ∀ past x, past ++ [x] <+: tr → x ∉ residents past := by
  induction L with
  | zero =>
    refine ⟨[], rfl, by simp, fun past x hp => ?_⟩
    simp at hp
  | succ L ih =>
    obtain ⟨tr, hlen, hU, hall⟩ := ih fun tr h hl => hcard tr h (Nat.lt_succ_of_lt hl)
    obtain ⟨x, hx, hnot⟩ := Finset.exists_mem_notMem_of_card_lt_card
      (hcard tr hU (hlen ▸ Nat.lt_succ_self L))
    refine ⟨tr ++ [x], by simp [hlen], fun y hy => ?_, fun past y hp => ?_⟩
    · rcases List.mem_append.mp hy with hy | hy
      · exact hU y hy
      · rwa [List.mem_singleton.mp hy]
    · rcases List.prefix_concat_iff.mp hp with he | hp
      · obtain ⟨rfl, rfl⟩ : past = tr ∧ y = x := by simpa using List.append_inj' he rfl
        exact hnot
      · exact hall past y hp

/-- Requests for residents only leave the residents as they are. -/
lemma serves_hits (h : ∀ x ∈ is, x ∈ C) : Serves n C is (List.replicate is.length true) C := by
  induction is with
  | nil => exact .nil C
  | cons x is ih =>
    exact .cons (.hit (h x List.mem_cons_self)) (ih fun y hy => h y (List.mem_cons_of_mem _ hy))

/-- Of the items of a set that all are requested, one is requested last of all for the first
time. -/
lemma exists_latest {S : Finset α} (hne : S.Nonempty) (h : ∀ y ∈ S, y ∈ tr) :
    ∃ a y b, tr = a ++ y :: b ∧ y ∈ S ∧ y ∉ a ∧ ∀ z ∈ S.erase y, z ∈ a := by
  obtain ⟨y, hy, hmax⟩ := S.exists_max_image (tr.idxOf ·) hne
  obtain ⟨a, b, rfl, ha⟩ := List.eq_append_cons_of_mem (h y hy)
  refine ⟨a, y, b, rfl, hy, ha, fun z hz => ?_⟩
  obtain ⟨hzy, hz⟩ := Finset.mem_erase.mp hz
  have hle := hmax z hz
  by_contra hza
  rw [List.idxOf_append_of_notMem hza, List.idxOf_append_of_notMem ha, List.idxOf_cons_self,
    List.idxOf_cons_ne _ (Ne.symm hzy)] at hle
  omega

/-- A full cache may give up any of its items for the one item it does not hold. -/
lemma exchange {U : Finset α} {y : α} (hU : U.card = n + 1) (hC : C ⊆ U) (hcard : C.card = n)
    (hx : x ∈ U) (hxC : x ∉ C) (hy : y ∈ C) :
    ∃ D, Served n C x false D ∧ D.card = n ∧ D ⊆ U ∧ ∀ z ∈ U, z ≠ y → z ∈ D := by
  have hUx : insert x C = U :=
    Finset.eq_of_subset_of_card_le (Finset.insert_subset hx hC) (by
      rw [Finset.card_insert_of_notMem hxC]
      omega)
  have hcard' : (insert x (C.erase y)).card = n := by
    have := Finset.card_erase_add_one hy
    rw [Finset.card_insert_of_notMem fun h => hxC (Finset.mem_of_mem_erase h)]
    omega
  have hsub : insert x (C.erase y) ⊆ insert x C :=
    Finset.insert_subset_insert _ (Finset.erase_subset _ _)
  refine ⟨insert x (C.erase y), .fault hxC (Finset.mem_insert_self _ _) hsub hcard'.le, hcard',
    hUx ▸ hsub, fun z hz hzy => ?_⟩
  rw [← hUx, Finset.mem_insert] at hz
  rw [Finset.mem_insert, Finset.mem_erase]
  tauto

/-- A full cache that knows the requests to come gives up the item that is requested last. -/
lemma exists_serves_full {U : Finset α} (hn : 1 ≤ n) (hU : U.card = n + 1) (hC : C ⊆ U)
    (hcard : C.card = n) (htr : ∀ x ∈ tr, x ∈ U) :
    ∃ os D, Serves n C tr os D ∧ n * os.count false ≤ tr.length + (n - 1) := by
  obtain ⟨m, hm⟩ : ∃ m, tr.length = m := ⟨_, rfl⟩
  induction m using Nat.strong_induction_on generalizing tr C with
  | _ m ih =>
    subst hm
    cases tr with
    | nil => exact ⟨[], C, .nil C, by simp⟩
    | cons x rest =>
      obtain ⟨hx, hrest⟩ := List.forall_mem_cons.mp htr
      by_cases hxC : x ∈ C
      · obtain ⟨os, D, hs, hle⟩ := ih rest.length (Nat.lt_succ_self _) hC hcard hrest rfl
        refine ⟨true :: os, D, .cons (.hit hxC) hs, ?_⟩
        rw [List.count_cons_of_ne (by simp), List.length_cons]
        omega
      · by_cases hall : ∀ y ∈ C, y ∈ rest
        · obtain ⟨a, y, b, rfl, hy, hya, hbefore⟩ :=
            exists_latest (Finset.card_pos.mp (by omega)) hall
          obtain ⟨D, hserved, hcard', hsub, hother⟩ := exchange hU hC hcard hx hxC hy
          obtain ⟨ha, hyb⟩ := List.forall_mem_append.mp hrest
          have hlong : n - 1 ≤ a.length := by
            calc n - 1 = (C.erase y).card := by rw [Finset.card_erase_of_mem hy, hcard]
              _ ≤ a.toFinset.card := Finset.card_le_card fun z hz =>
                  List.mem_toFinset.mpr (hbefore z hz)
              _ ≤ a.length := a.toFinset_card_le
          have hhits := serves_hits (n := n) fun z hz => hother z (ha z hz) fun e => hya (e ▸ hz)
          obtain ⟨os, E, hs, hle⟩ := ih (y :: b).length (by simp) hsub hcard' hyb rfl
          refine ⟨_, E, .cons hserved (hhits.append hs), ?_⟩
          have hcount : (false :: (List.replicate a.length true ++ os)).count false =
              os.count false + 1 := by
            simp [List.count_replicate]
          rw [hcount, Nat.mul_succ]
          simp only [List.length_cons, List.length_append] at hle ⊢
          omega
        · obtain ⟨y, hy, hyr⟩ : ∃ y ∈ C, y ∉ rest := by simpa using hall
          obtain ⟨D, hserved, -, -, hother⟩ := exchange hU hC hcard hx hxC hy
          refine ⟨_, _, .cons hserved (serves_hits fun z hz =>
            hother z (hrest z hz) fun e => hyr (e ▸ hz)), ?_⟩
          have hcount : (false :: List.replicate rest.length true).count false = 1 := by
            simp [List.count_replicate]
          rw [hcount, List.length_cons]
          omega

/-- **Knowing the requests to come**, a cache of `n` items faults about once in `n` requests for
`n + 1` items. -/
theorem exists_serves_few {U : Finset α} (hn : 1 ≤ n) (hU : U.card = n + 1)
    (htr : ∀ x ∈ tr, x ∈ U) (hC : C ⊆ U) (hcard : C.card ≤ n) :
    ∃ os D, Serves n C tr os D ∧
      n * os.count false ≤ tr.length + (n - 1) + n * (n - C.card) := by
  induction tr generalizing C with
  | nil => exact ⟨[], C, .nil C, by simp⟩
  | cons x rest ih =>
    rcases Nat.lt_or_ge C.card n with hlt | hge
    · obtain ⟨hx, hrest⟩ := List.forall_mem_cons.mp htr
      by_cases hxC : x ∈ C
      · obtain ⟨os, D, hs, hle⟩ := ih hrest hC hcard
        refine ⟨true :: os, D, .cons (.hit hxC) hs, ?_⟩
        rw [List.count_cons_of_ne (by simp), List.length_cons]
        omega
      · -- there is room for the item
        have hcard' := Finset.card_insert_of_notMem hxC
        obtain ⟨os, D, hs, hle⟩ := ih hrest (Finset.insert_subset hx hC) (by omega)
        refine ⟨false :: os, D, .cons (.fault hxC (Finset.mem_insert_self _ _)
          (Finset.Subset.refl _) (by omega)) hs, ?_⟩
        have hroom : n - C.card = n - (insert x C).card + 1 := by omega
        rw [List.count_cons_self, List.length_cons, hroom, Nat.mul_succ, Nat.mul_succ]
        omega
    · obtain ⟨os, D, hs, hle⟩ :=
        exists_serves_full hn hU hC (le_antisymm hcard hge) htr
      exact ⟨os, D, hs, hle.trans (Nat.le_add_right _ _)⟩

/-! ### Merged items -/

/-- What hits stays a hit. -/
def Covers (os os' : List Bool) : Prop := List.Forall₂ (fun b b' => b = true → b' = true) os os'

lemma Covers.count_le {os' : List Bool} (h : Covers os os') :
    os'.count false ≤ os.count false := by
  induction h with
  | nil => exact le_rfl
  | @cons b b' os os' hb _ ih =>
    cases b with
    | false => cases b' <;> simp <;> omega
    | true =>
      obtain rfl : b' = true := hb rfl
      simpa using ih

/-- **However a cache is run, one that is no smaller has the same hits, and more, when items
are merged.** -/
theorem Serves.map {β : Type*} [DecidableEq β] {m : ℕ} (f : α → β) (hm : n ≤ m)
    (h : Serves n C is os D) {C' : Finset β} (hC : C.image f ⊆ C') :
    ∃ os' D', Serves m C' (is.map f) os' D' ∧ D.image f ⊆ D' ∧ Covers os os' := by
  induction h generalizing C' with
  | nil C => exact ⟨[], C', .nil C', hC, .nil⟩
  | @cons C D E x b is os hs _ ih =>
    by_cases hx : f x ∈ C'
    · have hD : D.image f ⊆ C' := by
        cases hs with
        | hit => exact hC
        | fault _ _ hsub _ =>
          intro y hy
          obtain ⟨z, hz, rfl⟩ := Finset.mem_image.mp hy
          rcases Finset.mem_insert.mp (hsub hz) with rfl | hz
          · exact hx
          · exact hC (Finset.mem_image_of_mem f hz)
      obtain ⟨os', D', hserves, hsub, hcov⟩ := ih hD
      exact ⟨true :: os', D', .cons (.hit hx) hserves, hsub, .cons (fun _ => rfl) hcov⟩
    · cases hs with
      | hit hmem => exact absurd (hC (Finset.mem_image_of_mem f hmem)) hx
      | fault hmem hxD hsub hcard =>
        obtain ⟨os', D', hserves, hsub', hcov⟩ := ih (Finset.Subset.refl (D.image f))
        have hfault : Served m C' (f x) false (D.image f) := by
          refine .fault hx (Finset.mem_image_of_mem f hxD) (fun y hy => ?_)
            (Finset.card_image_le.trans (hcard.trans hm))
          obtain ⟨z, hz, rfl⟩ := Finset.mem_image.mp hy
          rcases Finset.mem_insert.mp (hsub hz) with rfl | hz
          · exact Finset.mem_insert_self _ _
          · exact Finset.mem_insert_of_mem (hC (Finset.mem_image_of_mem f hz))
        exact ⟨false :: os', D', .cons hfault hserves, hsub', .cons id hcov⟩

/-- The most recently used items do so by themselves. -/
theorem lruHits_map {β : Type*} [DecidableEq β] {m : ℕ} (f : α → β) (hm : k ≤ m) (tr : List α) :
    Covers (lruHits k tr) (lruHits m (tr.map f)) := by
  induction tr using List.reverseRecOn with
  | nil => exact .nil
  | append_singleton tr x ih =>
    rw [List.map_append, List.map_singleton, lruHits_snoc, lruHits_snoc]
    refine List.rel_append ih (.cons (fun hx => ?_) .nil)
    rw [decide_eq_true_iff] at hx ⊢
    have hmap := mem_take_recency_map f hx
    exact ((List.take_prefix_take_left hm).subset) hmap

end Tempograph.Paging
