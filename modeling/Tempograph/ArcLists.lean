import Tempograph.Recency

/-!
Adaptive replacement on lists.

The directory is four lists of items, most recent first: `t1` and `t2` hold the resident
items, `b1` and `b2` the items evicted from them. An access promotes an item of the
directory to the front of `t2`, or makes room and puts a new item at the front of `t1`; the
target `p` for the size of `t1` moves with the ghost hits. Nothing here can fail: taking
the last item of an empty list takes nothing.
-/

namespace Tempograph.ArcLists

structure Cache (α : Type*) where
  t1 : List α
  t2 : List α
  b1 : List α
  b2 : List α
  p : ℤ

variable {α : Type*}

def Cache.empty : Cache α := ⟨[], [], [], [], 0⟩

/-- All items of the directory. -/
def Cache.dir (a : Cache α) : List α := a.t1 ++ a.b1 ++ (a.t2 ++ a.b2)

/-- Whether an eviction takes from `t1`. -/
def Cache.fromT1 (a : Cache α) (in_b2 : Bool) : Prop :=
  0 < a.t1.length ∧ (a.p < a.t1.length ∨ in_b2 = true ∧ (a.t1.length : ℤ) = a.p)

instance (a : Cache α) (in_b2 : Bool) : Decidable (a.fromT1 in_b2) :=
  inferInstanceAs (Decidable (_ ∧ _))

/-- Evict the last item of `t1` or of `t2` to its ghost list. -/
def Cache.replace (a : Cache α) (in_b2 : Bool) : Cache α :=
  if a.fromT1 in_b2 then
    { a with t1 := a.t1.dropLast, b1 := a.t1.getLast?.toList ++ a.b1 }
  else { a with t2 := a.t2.dropLast, b2 := a.t2.getLast?.toList ++ a.b2 }

/-- Give up a slot for a new item. -/
def Cache.makeRoom (c : ℕ) (a : Cache α) : Cache α :=
  if a.t1.length + a.b1.length = c then
    if a.t1.length < c then { a with b1 := a.b1.dropLast }.replace false
    else { a with t1 := a.t1.dropLast }
  else if a.t1.length + a.b1.length < c ∧ c ≤ a.dir.length then
    if 2 * c ≤ a.dir.length ∧ 0 < a.b2.length then
      { a with b2 := a.b2.dropLast }.replace false
    else a.replace false
  else a

/-- How far a hit in a ghost list of `own` items moves the target. -/
def step (own other : ℕ) : ℤ := if other ≤ own then 1 else ((other / own : ℕ) : ℤ)

/-- A hit in `b1`: `t1` was too small. -/
def Cache.raise (c : ℕ) (a : Cache α) : Cache α :=
  { a with p := min (a.p + step a.b1.length a.b2.length) c }

/-- A hit in `b2`: `t2` was too small. -/
def Cache.lower (a : Cache α) : Cache α :=
  { a with p := max (a.p - step a.b2.length a.b1.length) 0 }

variable [DecidableEq α]

/-- One access, and whether it hits. -/
def Cache.access (c : ℕ) (a : Cache α) (x : α) : Cache α × Bool :=
  if x ∈ a.t1 then ({ a with t1 := a.t1.erase x, t2 := x :: a.t2 }, true)
  else if x ∈ a.t2 then ({ a with t2 := x :: a.t2.erase x }, true)
  else if x ∈ a.b1 then
    let a := (a.raise c).replace false
    ({ a with b1 := a.b1.erase x, t2 := x :: a.t2 }, false)
  else if x ∈ a.b2 then
    let a := a.lower.replace true
    ({ a with b2 := a.b2.erase x, t2 := x :: a.t2 }, false)
  else
    let a := a.makeRoom c
    ({ a with t1 := x :: a.t1 }, false)

/-! ### Eviction -/

/-- The items met once lately, resident or not. -/
def Cache.recent (a : Cache α) : List α := a.t1 ++ a.b1

/-- The items met again. -/
def Cache.frequent (a : Cache α) : List α := a.t2 ++ a.b2

section Replace

omit [DecidableEq α]

variable {c : ℕ} {a : Cache α} {in_b2 : Bool}

lemma demote_append (l g : List α) : l.dropLast ++ (l.getLast?.toList ++ g) = l ++ g := by
  rcases List.eq_nil_or_concat l with rfl | ⟨r, v, rfl⟩
  · simp
  · simp [List.concat_eq_append]

/-- An eviction moves the border between residents and ghosts, nothing else. -/
@[simp] lemma replace_recent (a : Cache α) (in_b2 : Bool) :
    (a.replace in_b2).recent = a.recent := by
  unfold Cache.replace
  split_ifs
  · exact demote_append a.t1 a.b1
  · rfl

@[simp] lemma replace_frequent (a : Cache α) (in_b2 : Bool) :
    (a.replace in_b2).frequent = a.frequent := by
  unfold Cache.replace
  split_ifs
  · rfl
  · exact demote_append a.t2 a.b2

@[simp] lemma replace_p (a : Cache α) (in_b2 : Bool) : (a.replace in_b2).p = a.p := by
  unfold Cache.replace
  split_ifs <;> rfl

lemma mem_replace_b1 {x : α} (in_b2 : Bool) (h : x ∈ a.b1) : x ∈ (a.replace in_b2).b1 := by
  unfold Cache.replace
  split_ifs
  · exact List.mem_append_right _ h
  · exact h

lemma mem_replace_b2 {x : α} (in_b2 : Bool) (h : x ∈ a.b2) : x ∈ (a.replace in_b2).b2 := by
  unfold Cache.replace
  split_ifs
  · exact h
  · exact List.mem_append_right _ h

/-- A full cache has an item to evict, unless `t1` fills it and is on target. -/
structure CanReplace (c : ℕ) (a : Cache α) (in_b2 : Bool) : Prop where
  pos : 1 ≤ c
  full : a.t1.length + a.t2.length = c
  p_le : a.p ≤ c
  room : a.t1.length < c ∨ in_b2 = true

lemma CanReplace.t1_ne_nil (h : a.fromT1 in_b2) : a.t1 ≠ [] :=
  List.ne_nil_of_length_pos h.1

lemma CanReplace.t2_ne_nil (h : CanReplace c a in_b2) (hf : ¬a.fromT1 in_b2) : a.t2 ≠ [] := by
  obtain ⟨hpos, hfull, hp, hroom⟩ := h
  rintro h2
  simp only [h2, List.length_nil, Nat.add_zero] at hfull
  apply hf
  refine ⟨by omega, ?_⟩
  rcases hroom with h | h
  · omega
  · by_cases e : (a.t1.length : ℤ) = a.p
    · exact Or.inr ⟨h, e⟩
    · left; omega

lemma length_getLast_toList {l : List α} (h : l ≠ []) : l.getLast?.toList.length = 1 := by
  rw [List.getLast?_eq_some_getLast h]; rfl

/-- An eviction takes one resident. -/
lemma CanReplace.lengths (h : CanReplace c a in_b2) :
    (a.replace in_b2).t1.length + (a.replace in_b2).t2.length + 1 = c ∧
      (a.replace in_b2).t1.length + (a.replace in_b2).b1.length = a.t1.length + a.b1.length ∧
      (a.replace in_b2).t2.length + (a.replace in_b2).b2.length =
        a.t2.length + a.b2.length := by
  have hfull := h.full
  unfold Cache.replace
  split_ifs with hf
  · have h1 := List.length_pos_of_ne_nil (CanReplace.t1_ne_nil hf)
    have h2 := length_getLast_toList (CanReplace.t1_ne_nil hf)
    simp only [List.length_append, List.length_dropLast, h2]
    refine ⟨by omega, by omega, trivial⟩
  · have h1 := List.length_pos_of_ne_nil (h.t2_ne_nil hf)
    have h2 := length_getLast_toList (h.t2_ne_nil hf)
    simp only [List.length_append, List.length_dropLast, h2]
    refine ⟨by omega, trivial, by omega⟩

end Replace

/-! ### Sizes -/

/-- The bounds on the sizes of the lists. -/
structure Sizes (c : ℕ) (a : Cache α) : Prop where
  resident : a.t1.length + a.t2.length ≤ c
  recent : a.t1.length + a.b1.length ≤ c
  total : a.t1.length + a.t2.length + a.b1.length + a.b2.length ≤ 2 * c
  p_nonneg : 0 ≤ a.p
  p_le : a.p ≤ c
  /-- There are ghosts only once the cache is full. -/
  ghosts : a.t1.length + a.t2.length < c → a.b1 = [] ∧ a.b2 = []

variable {c : ℕ} {a : Cache α} {x : α}

omit [DecidableEq α] in
lemma sizes_empty (c : ℕ) : Sizes c (Cache.empty : Cache α) := by
  refine ⟨?_, ?_, ?_, ?_, ?_, ?_⟩ <;> simp [Cache.empty]

omit [DecidableEq α] in
lemma Sizes.full_of_b1 (h : Sizes c a) (hx : x ∈ a.b1) : a.t1.length + a.t2.length = c := by
  have := h.resident
  by_contra hne
  have := (h.ghosts (by omega)).1
  simp [this] at hx

omit [DecidableEq α] in
lemma Sizes.full_of_b2 (h : Sizes c a) (hx : x ∈ a.b2) : a.t1.length + a.t2.length = c := by
  have := h.resident
  by_contra hne
  have := (h.ghosts (by omega)).2
  simp [this] at hx

omit [DecidableEq α] in
/-- Of a full cache the sizes and the target are to be checked. -/
lemma Sizes.of_full (h12 : a.t1.length + a.t2.length = c) (h1 : a.t1.length + a.b1.length ≤ c)
    (h2 : a.t2.length + a.b2.length + (a.t1.length + a.b1.length) ≤ 2 * c) (hp : 0 ≤ a.p)
    (hpc : a.p ≤ c) : Sizes c a :=
  ⟨by omega, h1, by omega, hp, hpc, by omega⟩

lemma step_nonneg (own other : ℕ) : 0 ≤ step own other := by
  unfold step; split_ifs <;> positivity

/-! ### Making room -/

/-- How room is made for a new item. -/
inductive Room (c : ℕ) (a : Cache α) : Cache α → Prop
  /-- The oldest item of a full `t1 ++ b1` is a ghost. -/
  | ghost : a.b1 ≠ [] → a.t1.length + a.b1.length = c →
      CanReplace c { a with b1 := a.b1.dropLast } false →
      Room c a ({ a with b1 := a.b1.dropLast }.replace false)
  /-- It is resident, and `t1` is all there is. -/
  | resident : a.t1.length = c → a.t2 = [] → a.b1 = [] →
      Room c a { a with t1 := a.t1.dropLast }
  /-- The directory is full. -/
  | full : a.b2 ≠ [] → a.t1.length + a.b1.length < c → 2 * c ≤ a.dir.length →
      CanReplace c { a with b2 := a.b2.dropLast } false →
      Room c a ({ a with b2 := a.b2.dropLast }.replace false)
  /-- The cache is full, the directory is not. -/
  | cache : a.t1.length + a.b1.length < c → a.dir.length < 2 * c →
      CanReplace c a false → Room c a (a.replace false)
  | free : a.t1.length + a.t2.length < c → a.b1 = [] → a.b2 = [] → Room c a a

section Room

omit [DecidableEq α]

lemma dir_length (a : Cache α) :
    a.dir.length = a.t1.length + a.t2.length + a.b1.length + a.b2.length := by
  simp [Cache.dir]; omega

lemma Sizes.forget_b1 (hc : 1 ≤ c) (h : Sizes c a) (h1 : a.t1.length + a.b1.length = c)
    (h2 : a.t1.length < c) :
    a.b1 ≠ [] ∧ CanReplace c { a with b1 := a.b1.dropLast } false := by
  have hb : a.b1 ≠ [] := List.ne_nil_of_length_pos (by omega)
  obtain ⟨x, hx⟩ := List.exists_mem_of_ne_nil _ hb
  exact ⟨hb, hc, h.full_of_b1 hx, h.p_le, Or.inl h2⟩

lemma Sizes.forget_b2 (hc : 1 ≤ c) (h : Sizes c a) (h1 : a.t1.length + a.b1.length < c)
    (h2 : 0 < a.b2.length) :
    a.b2 ≠ [] ∧ CanReplace c { a with b2 := a.b2.dropLast } false := by
  have hb : a.b2 ≠ [] := List.ne_nil_of_length_pos h2
  obtain ⟨x, hx⟩ := List.exists_mem_of_ne_nil _ hb
  exact ⟨hb, hc, h.full_of_b2 hx, h.p_le, Or.inl (Nat.lt_of_le_of_lt (Nat.le_add_right _ _) h1)⟩

/-- Ghosts or not, a directory of `c` items means a full cache. -/
lemma Sizes.canReplace (hc : 1 ≤ c) (h : Sizes c a) (h1 : a.t1.length + a.b1.length < c)
    (h2 : c ≤ a.dir.length) : CanReplace c a false := by
  have hres := h.resident
  rw [dir_length] at h2
  have hfull : a.t1.length + a.t2.length = c := by
    by_contra hne
    obtain ⟨hb1, hb2⟩ := h.ghosts (by omega)
    simp only [hb1, hb2, List.length_nil] at h2
    omega
  exact ⟨hc, hfull, h.p_le, Or.inl (by omega)⟩

lemma Sizes.room (hc : 1 ≤ c) (h : Sizes c a) : Room c a (a.makeRoom c) := by
  have hdir := dir_length a
  have hres := h.resident
  have hrec := h.recent
  unfold Cache.makeRoom
  split_ifs with h1 h2 h3 h4
  · obtain ⟨hb, hcan⟩ := h.forget_b1 hc h1 h2
    exact .ghost hb h1 hcan
  · exact .resident (by omega) (List.length_eq_zero_iff.mp (by omega))
      (List.length_eq_zero_iff.mp (by omega))
  · obtain ⟨hb, hcan⟩ := h.forget_b2 hc h3.1 h4.2
    exact .full hb h3.1 h4.1 hcan
  · have hcan := h.canReplace hc h3.1 h3.2
    have hfull := hcan.full
    have hlt : a.dir.length < 2 * c := by
      rcases Nat.eq_zero_or_pos a.b2.length with hb | hb
      · omega
      · by_contra hge
        exact h4 ⟨by omega, hb⟩
    exact .cache h3.1 hlt hcan
  · have hlt : a.t1.length + a.t2.length < c := by omega
    exact .free hlt (h.ghosts hlt).1 (h.ghosts hlt).2

/-- An eviction leaves room for one item in `t1`, if the directory has room. -/
lemma CanReplace.insert {in_b2 : Bool} (h : CanReplace c a in_b2) (hp : 0 ≤ a.p)
    (h1 : a.t1.length + a.b1.length < c)
    (h2 : a.t2.length + a.b2.length + (a.t1.length + a.b1.length) < 2 * c) :
    Sizes c { a.replace in_b2 with t1 := x :: (a.replace in_b2).t1 } ∧
      (x :: (a.replace in_b2).t1).length + (a.replace in_b2).t2.length = c := by
  have hpc := h.p_le
  have hlen := h.lengths
  have hfull : (x :: (a.replace in_b2).t1).length + (a.replace in_b2).t2.length = c := by
    rw [List.length_cons]; omega
  refine ⟨Sizes.of_full hfull ?_ ?_ ?_ ?_, hfull⟩
  · simp only [List.length_cons]; omega
  · simp only [List.length_cons]; omega
  · rwa [replace_p]
  · rwa [replace_p]

/-- A full cache gives up one resident, and no bound is in the way of a new item. -/
lemma Sizes.insert (hc : 1 ≤ c) (h : Sizes c a) {b : Cache α} (hr : Room c a b) :
    Sizes c { b with t1 := x :: b.t1 } ∧
      (a.t1.length + a.t2.length = c → (x :: b.t1).length + b.t2.length = c) := by
  have hres := h.resident
  have hrec := h.recent
  have htot := h.total
  have hp := h.p_nonneg
  have hdir := dir_length a
  cases hr with
  | ghost hb hl hcan =>
    have hb := List.length_pos_of_ne_nil hb
    obtain ⟨h1, h2⟩ := hcan.insert (x := x) hp (by simp; omega) (by simp; omega)
    exact ⟨h1, fun _ => h2⟩
  | resident ht h2 hb =>
    have h2 := List.length_eq_zero_iff.mpr h2
    have hb := List.length_eq_zero_iff.mpr hb
    have hfull : (x :: a.t1.dropLast).length + a.t2.length = c := by
      rw [List.length_cons, List.length_dropLast]; omega
    refine ⟨Sizes.of_full hfull ?_ ?_ hp h.p_le, fun _ => hfull⟩
    · simp only [List.length_cons, List.length_dropLast]; omega
    · simp only [List.length_cons, List.length_dropLast]; omega
  | full hb hl hd hcan =>
    have hb := List.length_pos_of_ne_nil hb
    obtain ⟨h1, h2⟩ := hcan.insert (x := x) hp hl (by simp; omega)
    exact ⟨h1, fun _ => h2⟩
  | cache hl hd hcan =>
    obtain ⟨h1, h2⟩ := hcan.insert (x := x) hp hl (by omega)
    exact ⟨h1, fun _ => h2⟩
  | free hlt h1 h2 =>
    refine ⟨⟨?_, ?_, ?_, hp, h.p_le, fun _ => ⟨h1, h2⟩⟩, fun e => by omega⟩ <;>
      simp only [h1, h2, List.length_nil, List.length_cons] at * <;> omega

end Room

/-! ### Accesses -/

section Access

variable {in_b2 : Bool}

/-- A ghost becomes resident in the place of the item evicted for it. -/
lemma CanReplace.recall_b1 (h : CanReplace c a in_b2) (hp : 0 ≤ a.p)
    (hrec : a.t1.length + a.b1.length ≤ c)
    (htot : a.t2.length + a.b2.length + (a.t1.length + a.b1.length) ≤ 2 * c) (hx : x ∈ a.b1) :
    Sizes c { a.replace in_b2 with
      b1 := (a.replace in_b2).b1.erase x, t2 := x :: (a.replace in_b2).t2 } ∧
      (a.replace in_b2).t1.length + (x :: (a.replace in_b2).t2).length = c := by
  have hpc := h.p_le
  have hlen := h.lengths
  have hx' := mem_replace_b1 in_b2 hx
  have hpos := List.length_pos_of_mem hx'
  have he := List.length_erase_of_mem hx'
  have hfull : (a.replace in_b2).t1.length + (x :: (a.replace in_b2).t2).length = c := by
    rw [List.length_cons]; omega
  refine ⟨Sizes.of_full hfull ?_ ?_ ?_ ?_, hfull⟩
  · simp only; omega
  · simp only [List.length_cons]; omega
  · rwa [replace_p]
  · rwa [replace_p]

lemma CanReplace.recall_b2 (h : CanReplace c a in_b2) (hp : 0 ≤ a.p)
    (hrec : a.t1.length + a.b1.length ≤ c)
    (htot : a.t2.length + a.b2.length + (a.t1.length + a.b1.length) ≤ 2 * c) (hx : x ∈ a.b2) :
    Sizes c { a.replace in_b2 with
      b2 := (a.replace in_b2).b2.erase x, t2 := x :: (a.replace in_b2).t2 } ∧
      (a.replace in_b2).t1.length + (x :: (a.replace in_b2).t2).length = c := by
  have hpc := h.p_le
  have hlen := h.lengths
  have hx' := mem_replace_b2 in_b2 hx
  have hpos := List.length_pos_of_mem hx'
  have he := List.length_erase_of_mem hx'
  have hfull : (a.replace in_b2).t1.length + (x :: (a.replace in_b2).t2).length = c := by
    rw [List.length_cons]; omega
  refine ⟨Sizes.of_full hfull ?_ ?_ ?_ ?_, hfull⟩
  · simp only; omega
  · simp only [List.length_cons]; omega
  · rwa [replace_p]
  · rwa [replace_p]

omit [DecidableEq α] in
lemma Sizes.raise (hc : 1 ≤ c) (h : Sizes c a) (hx : x ∈ a.b1) :
    CanReplace c (a.raise c) false ∧ 0 ≤ (a.raise c).p := by
  have := h.recent
  have := h.p_nonneg
  have := List.length_pos_of_mem hx
  have := step_nonneg a.b1.length a.b2.length
  refine ⟨⟨hc, h.full_of_b1 hx, ?_, Or.inl ?_⟩, ?_⟩ <;> simp only [Cache.raise] <;> omega

omit [DecidableEq α] in
lemma Sizes.lower (hc : 1 ≤ c) (h : Sizes c a) (hx : x ∈ a.b2) :
    CanReplace c a.lower true ∧ 0 ≤ a.lower.p := by
  have := h.p_le
  have := step_nonneg a.b2.length a.b1.length
  refine ⟨⟨hc, h.full_of_b2 hx, ?_, Or.inr rfl⟩, ?_⟩ <;> simp only [Cache.lower] <;> omega

/-- **The bounds hold after every access**, and a full cache stays full. -/
theorem Sizes.access (hc : 1 ≤ c) (h : Sizes c a) (x : α) :
    Sizes c (a.access c x).1 ∧
      (a.t1.length + a.t2.length = c →
        (a.access c x).1.t1.length + (a.access c x).1.t2.length = c) := by
  have hres := h.resident
  have hrec := h.recent
  have htot := h.total
  have hp := h.p_nonneg
  have hpc := h.p_le
  unfold Cache.access
  split_ifs with h1 h2 h3 h4
  · have hlen := List.length_erase_of_mem h1
    have hpos := List.length_pos_of_mem h1
    refine ⟨⟨?_, ?_, ?_, hp, hpc, fun hl => h.ghosts ?_⟩, fun hf => ?_⟩
    all_goals simp only [List.length_cons] at *; omega
  · have hlen := List.length_erase_of_mem h2
    have hpos := List.length_pos_of_mem h2
    refine ⟨⟨?_, ?_, ?_, hp, hpc, fun hl => h.ghosts ?_⟩, fun hf => ?_⟩
    all_goals simp only [List.length_cons] at *; omega
  · obtain ⟨hcan, hp'⟩ := h.raise hc h3
    obtain ⟨hs, hf⟩ := hcan.recall_b1 hp' hrec (by simp only [Cache.raise]; omega) h3
    exact ⟨hs, fun _ => hf⟩
  · obtain ⟨hcan, hp'⟩ := h.lower hc h4
    obtain ⟨hs, hf⟩ := hcan.recall_b2 hp' hrec (by simp only [Cache.lower]; omega) h4
    exact ⟨hs, fun _ => hf⟩
  · exact h.insert hc (h.room hc)

end Access

/-! ### The directory and the order of last use -/

open Recency

omit [DecidableEq α] in
lemma mem_dir {a : Cache α} {q : α} :
    q ∈ a.dir ↔ q ∈ a.t1 ∨ q ∈ a.t2 ∨ q ∈ a.b1 ∨ q ∈ a.b2 := by
  simp only [Cache.dir, List.mem_append]; tauto

omit [DecidableEq α] in
lemma dir_eq (a : Cache α) : a.dir = a.recent ++ a.frequent := rfl

omit [DecidableEq α] in
/-- What making room takes out of the directory: nothing, or the oldest item of `t1 ++ b1`
or of `t2 ++ b2` with at least `c` items there. -/
lemma Room.dropped {b : Cache α} (hr : Room c a b) :
    b.recent = a.recent ∧ b.frequent = a.frequent ∨
      b.recent = a.recent.dropLast ∧ b.frequent = a.frequent ∧ a.recent.length = c ∨
      b.recent = a.recent ∧ b.frequent = a.frequent.dropLast ∧ c < a.frequent.length := by
  cases hr with
  | ghost hb hl hcan =>
    right; left
    refine ⟨?_, replace_frequent _ _, by simp [Cache.recent, hl]⟩
    rw [replace_recent]
    simp [Cache.recent, List.dropLast_append_of_ne_nil hb]
  | resident ht h2 hb =>
    right; left
    refine ⟨?_, rfl, ?_⟩ <;> simp [Cache.recent, hb, ht]
  | full hb hl hd hcan =>
    right; right
    rw [dir_length] at hd
    refine ⟨replace_recent _ _, ?_, ?_⟩
    · rw [replace_frequent]
      simp [Cache.frequent, List.dropLast_append_of_ne_nil hb]
    · simp only [Cache.frequent, List.length_append]; omega
  | cache hl hd hcan => left; exact ⟨replace_recent a _, replace_frequent a _⟩
  | free hlt h1 h2 => left; exact ⟨rfl, rfl⟩

/-- An item of the directory goes to the front of `t2`. -/
lemma access_of_mem (hnd : a.dir.Nodup) (hx : x ∈ a.dir) :
    (a.access c x).1.recent = a.recent.erase x ∧
      (a.access c x).1.frequent = touch x a.frequent := by
  rw [dir_eq, List.nodup_append] at hnd
  obtain ⟨hn1, hn2, hdis⟩ := hnd
  have hr (h : x ∈ a.recent) : x ∉ a.frequent := fun h' => hdis x h x h' rfl
  have hf (h : x ∈ a.frequent) : x ∉ a.recent := fun h' => hdis x h' x h rfl
  unfold Cache.access
  split_ifs with h1 h2 h3 h4
  · have hx := hr (List.mem_append_left _ h1)
    rw [touch_of_not_mem hx]
    exact ⟨(List.erase_append_left _ h1).symm, rfl⟩
  · have hx := hf (List.mem_append_left _ h2)
    rw [List.erase_of_not_mem hx]
    exact ⟨rfl, by simp [Cache.frequent, touch, List.erase_append_left _ h2]⟩
  · have hx := hr (List.mem_append_right _ h3)
    have hb := mem_replace_b1 (a := a.raise c) false h3
    have he := replace_recent (a.raise c) false
    have hn := hn1
    rw [show a.recent = (a.raise c).recent from rfl, ← he] at hn ⊢
    have ht : x ∉ ((a.raise c).replace false).t1 := fun h =>
      List.disjoint_of_nodup_append hn h hb
    refine ⟨(List.erase_append_right _ ht).symm, ?_⟩
    rw [touch_of_not_mem hx]
    exact congrArg (x :: ·) (replace_frequent (a.raise c) false)
  · have hb := mem_replace_b2 (a := a.lower) true h4
    have hx := hf (List.mem_append_right _ h4)
    have he := replace_frequent a.lower true
    have hn := hn2
    rw [show a.frequent = a.lower.frequent from rfl, ← he] at hn ⊢
    have ht : x ∉ (a.lower.replace true).t2 := fun h =>
      List.disjoint_of_nodup_append hn h hb
    rw [List.erase_of_not_mem hx]
    exact ⟨replace_recent a.lower true,
      by simp [Cache.frequent, touch, List.erase_append_right _ ht]⟩
  · rw [mem_dir] at hx
    tauto

lemma access_of_not_mem (hx : x ∉ a.dir) :
    (a.access c x).1 = { a.makeRoom c with t1 := x :: (a.makeRoom c).t1 } := by
  simp only [mem_dir, not_or] at hx
  simp [Cache.access, hx]

/-- An access hits exactly the residents. -/
lemma access_hit_iff : (a.access c x).2 = true ↔ x ∈ a.t1 ∨ x ∈ a.t2 := by
  unfold Cache.access
  split_ifs with h1 h2 h3 h4 <;> simp [*]

/-- An access leaves its item at the front of `t1` or of `t2`. -/
lemma access_head (c : ℕ) (a : Cache α) (x : α) :
    (a.access c x).1.t1.head? = some x ∨ (a.access c x).1.t2.head? = some x := by
  unfold Cache.access
  split_ifs <;> simp

omit [DecidableEq α] in
/-- A directory of at most `c` items has no ghosts. -/
lemma Sizes.no_ghosts (h : Sizes c a) (hd : a.dir.length ≤ c) : a.b1 = [] ∧ a.b2 = [] := by
  rcases Nat.lt_or_ge (a.t1.length + a.t2.length) c with hlt | hge
  · exact h.ghosts hlt
  · rw [dir_length] at hd
    exact ⟨List.length_eq_zero_iff.mp (by omega), List.length_eq_zero_iff.mp (by omega)⟩

/-- The directory follows the recency list `r`. -/
structure Follows (c : ℕ) (r : List α) (a : Cache α) : Prop where
  nodup : a.dir.Nodup
  recent : a.recent.Sublist r
  frequent : a.frequent.Sublist r
  covers : ∀ q ∈ r.take c, q ∈ a.dir

/-- An item among the `c` most recent was so before, or was just used. -/
lemma Follows.mem_of_take_touch {r : List α} (h : Follows c r a) {q : α}
    (hq : q ∈ (touch x r).take c) : q = x ∨ q ∈ a.dir :=
  (mem_take_touch hq).imp_right (h.covers q)

lemma Follows.access_of_mem {r : List α} (h : Follows c r a) (hx : x ∈ a.dir) :
    Follows c (touch x r) (a.access c x).1 := by
  obtain ⟨e1, e2⟩ := ArcLists.access_of_mem (c := c) h.nodup hx
  have hnd := h.nodup
  rw [dir_eq, List.nodup_append] at hnd
  obtain ⟨hn1, hn2, hdis⟩ := hnd
  refine ⟨?_, ?_, ?_, fun q hq => ?_⟩
  · rw [dir_eq, e1, e2, List.nodup_append]
    refine ⟨hn1.erase x, nodup_touch hn2, fun y hy z hz e => ?_⟩
    obtain ⟨hyx, hy⟩ := hn1.mem_erase_iff.mp hy
    rcases mem_touch.mp hz with hz | hz
    · exact hyx (e.trans hz)
    · exact hdis y hy z hz e
  · rw [e1]; exact (h.recent.erase x).cons x
  · rw [e2]; exact sublist_touch h.frequent
  · rw [dir_eq, e1, e2, List.mem_append, mem_touch]
    rcases h.mem_of_take_touch hq with hq | hq
    · exact Or.inr (Or.inl hq)
    · by_cases hqx : q = x
      · exact Or.inr (Or.inl hqx)
      · rw [List.mem_erase_of_ne hqx]
        rw [dir_eq, List.mem_append] at hq
        tauto

/-- The item that makes room for `x` is not among the `c` most recent once `x` is. -/
lemma Follows.mem_of_room {r : List α} (h : Follows c r a) (hr : r.Nodup) (hx : x ∉ a.dir)
    {b : Cache α} (hb : Room c a b) {q : α} (hq : q ∈ a.dir) (hqr : q ∈ (touch x r).take c) :
    q ∈ b.dir := by
  rw [dir_eq, List.mem_append, not_or] at hx
  rw [dir_eq, List.mem_append] at hq ⊢
  rcases hb.dropped with ⟨e1, e2⟩ | ⟨e1, e2, hlen⟩ | ⟨e1, e2, hlen⟩
  · rwa [e1, e2]
  · rw [e1, e2]
    rcases List.eq_nil_or_concat a.recent with h0 | ⟨l, v, hl⟩
    · rwa [h0] at hq ⊢
    · rw [List.concat_eq_append] at hl
      have hfar := h.recent.erase x
      rw [List.erase_of_not_mem hx.1, hl] at hfar
      have hlen : c ≤ (x :: l).length := by simp [← hlen, hl]
      have hqv : q ≠ v := by
        rintro rfl
        exact not_mem_take_of_sublist (hfar.cons_cons x) (nodup_touch hr) hlen hqr
      simpa [hl, hqv] using hq
  · rw [e1, e2]
    rcases List.eq_nil_or_concat a.frequent with h0 | ⟨l, v, hl⟩
    · rwa [h0] at hq ⊢
    · rw [List.concat_eq_append] at hl
      have hfar := sublist_touch_of_not_mem h.frequent hx.2
      rw [hl] at hfar hlen
      have hqv : q ≠ v := by
        rintro rfl
        exact not_mem_take_of_sublist hfar (nodup_touch hr) (by simp at hlen; omega) hqr
      simpa [hl, hqv] using hq

omit [DecidableEq α] in
lemma Room.sublist {b : Cache α} (h : Room c a b) :
    b.recent.Sublist a.recent ∧ b.frequent.Sublist a.frequent := by
  rcases h.dropped with ⟨e1, e2⟩ | ⟨e1, e2, -⟩ | ⟨e1, e2, -⟩ <;> rw [e1, e2]
  · exact ⟨List.Sublist.refl _, List.Sublist.refl _⟩
  · exact ⟨List.dropLast_sublist _, List.Sublist.refl _⟩
  · exact ⟨List.Sublist.refl _, List.dropLast_sublist _⟩

/-- **The directory follows the order of last use** through every access: each pair of lists
keeps that order, and the `c` most recent items are never dropped. -/
theorem Follows.access (hc : 1 ≤ c) (hs : Sizes c a) {r : List α} (hr : r.Nodup)
    (h : Follows c r a) (x : α) : Follows c (touch x r) (a.access c x).1 := by
  by_cases hx : x ∈ a.dir
  · exact h.access_of_mem hx
  have hroom := hs.room hc
  rw [access_of_not_mem hx]
  generalize a.makeRoom c = b at hroom ⊢
  obtain ⟨hsub1, hsub2⟩ := hroom.sublist
  have hx' := hx
  rw [dir_eq, List.mem_append, not_or] at hx'
  have hnd : b.dir.Nodup := h.nodup.sublist (hsub1.append hsub2)
  have hxb : x ∉ b.dir := fun hm => hx ((hsub1.append hsub2).subset hm)
  refine ⟨List.nodup_cons.mpr ⟨hxb, hnd⟩, ?_, ?_, fun q hq => ?_⟩
  · have := (hsub1.trans h.recent).erase x
    rw [List.erase_of_not_mem fun hm => hx'.1 (hsub1.subset hm)] at this
    exact this.cons_cons x
  · exact sublist_touch_of_not_mem (hsub2.trans h.frequent) fun hm => hx'.2 (hsub2.subset hm)
  · rcases h.mem_of_take_touch hq with rfl | hm
    · exact List.mem_cons_self
    · exact List.mem_cons_of_mem _ (h.mem_of_room hr hx hroom hm hq)

/-! ### Renaming -/

section Renaming

variable {β : Type*} [DecidableEq β] {f : α → β}

/-- Rename the items. -/
def Cache.map (f : α → β) (a : Cache α) : Cache β :=
  ⟨a.t1.map f, a.t2.map f, a.b1.map f, a.b2.map f, a.p⟩

omit [DecidableEq α] [DecidableEq β] in
lemma replace_map (f : α → β) (a : Cache α) (in_b2 : Bool) :
    (a.map f).replace in_b2 = (a.replace in_b2).map f := by
  have hfrom : (a.map f).fromT1 in_b2 ↔ a.fromT1 in_b2 := by
    simp [Cache.fromT1, Cache.map]
  unfold Cache.replace
  simp only [hfrom]
  split_ifs <;> simp [Cache.map, List.getLast?_map, Option.toList_map]

omit [DecidableEq α] [DecidableEq β] in
lemma makeRoom_map (f : α → β) (c : ℕ) (a : Cache α) :
    (a.map f).makeRoom c = (a.makeRoom c).map f := by
  have hb1 : ({ a.map f with b1 := (a.map f).b1.dropLast } : Cache β) =
      ({ a with b1 := a.b1.dropLast } : Cache α).map f := by simp [Cache.map]
  have hb2 : ({ a.map f with b2 := (a.map f).b2.dropLast } : Cache β) =
      ({ a with b2 := a.b2.dropLast } : Cache α).map f := by simp [Cache.map]
  have ht1 : ({ a.map f with t1 := (a.map f).t1.dropLast } : Cache β) =
      ({ a with t1 := a.t1.dropLast } : Cache α).map f := by simp [Cache.map]
  have hlen : (a.map f).dir.length = a.dir.length := by simp [dir_length, Cache.map]
  unfold Cache.makeRoom
  rw [hb1, hb2, ht1, hlen]
  simp only [replace_map]
  simp only [Cache.map, List.length_map]
  split_ifs <;> rfl

/-- **Renaming the items renames the cache**, and no access tells the difference. -/
theorem access_map (hf : Function.Injective f) (c : ℕ) (a : Cache α) (x : α) :
    (a.map f).access c (f x) = ((a.access c x).1.map f, (a.access c x).2) := by
  have hmem (l : List α) : f x ∈ l.map f ↔ x ∈ l := List.mem_map_of_injective hf
  have herase (l : List α) : (l.map f).erase (f x) = (l.erase x).map f :=
    (map_erase_of_injOn fun _ _ e => hf e).symm
  have hraise : (a.map f).raise c = (a.raise c).map f := by simp [Cache.raise, Cache.map]
  have hlower : (a.map f).lower = a.lower.map f := by simp [Cache.lower, Cache.map]
  unfold Cache.access
  rw [hraise, hlower, makeRoom_map]
  simp only [replace_map]
  simp only [Cache.map, hmem, herase]
  split_ifs <;> rfl

end Renaming

end Tempograph.ArcLists
