import Tempograph.ArcDirectory

/-!
The history of the lists of `arc.c`.

A run of `arc.c` does to the four lists of pages what a run of accesses does to lists, so the
state after a trace is known from the trace. Two things about whole runs follow: what the
place of a page in the lists says about its past, and what a scan over new pages leaves of
the pages met again.
-/

namespace Tempograph.ArcRuns

open Common LinkedList Recency Runs Arc ArcLists ArcRefine ArcDirectory

/-! ### Runs on lists -/

section Lists

variable {α : Type*} [DecidableEq α] {c : ℕ} {a : Cache α}

/-- The cache after a trace. -/
def after (c : ℕ) (tr : List α) : Cache α := final (Cache.access c) Cache.empty tr

@[simp] lemma after_nil (c : ℕ) : after c ([] : List α) = Cache.empty := rfl

@[simp] lemma after_snoc (c : ℕ) (tr : List α) (x : α) :
    after c (tr ++ [x]) = ((after c tr).access c x).1 := final_append _ _ tr [x]

lemma sizes_final (hc : 1 ≤ c) (h : Sizes c a) (is : List α) :
    Sizes c (final (Cache.access c) a is) := by
  induction is generalizing a with
  | nil => exact h
  | cons x is ih => exact ih (h.access hc x).1

lemma sizes_after (hc : 1 ≤ c) (tr : List α) : Sizes c (after c tr) :=
  sizes_final hc (sizes_empty c) tr

lemma follows_after (hc : 1 ≤ c) (tr : List α) : Follows c (recency tr) (after c tr) := by
  induction tr using List.reverseRecOn with
  | nil => exact ⟨List.nodup_nil, List.Sublist.refl _, List.Sublist.refl _, by simp⟩
  | append_singleton tr x ih =>
    rw [after_snoc, recency_snoc]
    exact ih.access hc (sizes_after hc tr) (nodup_recency tr) x

lemma mem_of_mem_after (hc : 1 ≤ c) {tr : List α} {q : α} (hq : q ∈ (after c tr).dir) :
    q ∈ tr := by
  have h := follows_after hc tr
  rw [dir_eq, List.mem_append] at hq
  exact mem_recency.mp (hq.elim (fun hm => h.recent.subset hm) fun hm => h.frequent.subset hm)

end Lists

/-! ### Runs of `arc.c` -/

variable {M : Malloc} {c : ℕ} {s : State} {nd : ListId → List ℕ} {tr : List Page}

/-- What an access that hits or not returns. -/
def outcome (hit : Bool) : Result := if hit then .hit else .fault

/-- The pages of a list, from head to tail. -/
def pages (s : State) (i : ListId) : List Page := (walk s i).map s.page

lemma pages_eq (h : Rep c s nd) (i : ListId) : pages s i = (nd i).map s.page := by
  rw [pages, walk_eq h]

lemma mem_dir_pages (h : Rep c s nd) {q : Page} :
    q ∈ (abs s nd).dir ↔ ∃ i, q ∈ pages s i := by
  simp only [mem_abs_dir, pages_eq h, List.mem_map]

/-- **A run of `arc.c` is a run on lists.** -/
theorem run_rep (M : Malloc) (hc : 1 ≤ c) (h : Rep c s nd) (hs : Sizes c (abs s nd))
    (is : List Page) :
    ∃ s' nd', run (arcAccess M) s is =
        some (s', (results (Cache.access c) (abs s nd) is).map outcome) ∧
      Rep c s' nd' ∧ abs s' nd' = final (Cache.access c) (abs s nd) is := by
  induction is generalizing s nd with
  | nil => exact ⟨s, nd, rfl, h, rfl⟩
  | cons page is ih =>
    obtain ⟨s₁, nd₁, he, hr, ha⟩ := access_spec M hc h hs page
    have hs₁ := (hs.access hc page).1
    rw [← ha] at hs₁
    obtain ⟨s', nd', he', hr', ha'⟩ := ih hr hs₁
    rw [ha] at he' ha'
    exact ⟨s', nd', run_cons he he', hr', ha'⟩

lemma run_after (M : Malloc) (s₀ : State) (hc : 1 ≤ c) (tr : List Page) :
    ∃ s nd, run (arcAccess M) (arcInit s₀ c) tr =
        some (s, (results (Cache.access c) Cache.empty tr).map outcome) ∧
      Rep c s nd ∧ abs s nd = after c tr :=
  run_rep M hc (rep_init s₀ c) (sizes_empty c) tr

/-- What a trace leaves in the lists. -/
lemma pages_after (h : Rep c s nd) (ha : abs s nd = after c tr) :
    pages s .t1 ++ pages s .b1 = (after c tr).recent ∧
      pages s .t2 ++ pages s .b2 = (after c tr).frequent := by
  rw [← ha]
  simp only [pages_eq h]
  exact ⟨rfl, rfl⟩

/-! ### The past of a page -/

section Past

variable {α : Type*} [DecidableEq α] {c : ℕ} {q : α} {before since : List α}

/-- After `before` the item `q` was in none of the lists, and during the accesses `since` it
was always in one. -/
structure Entered (c : ℕ) (q : α) (before since : List α) : Prop where
  absent : q ∉ (after c before).dir
  present : ∀ mid, mid <+: since → mid ≠ [] → q ∈ (after c (before ++ mid)).dir

/-- The item `q` was accessed `k` times since it entered the directory, the access it
entered with included. -/
def Met (c : ℕ) (tr : List α) (q : α) (k : ℕ) : Prop :=
  ∃ before since, tr = before ++ since ∧ Entered c q before since ∧ since.count q = k

variable {tr : List α} {x : α} {k : ℕ}

/-- An item in the directory after one more access entered it no later. -/
lemma Met.snoc (h : Met c tr q k) (hq : q ∈ (after c (tr ++ [x])).dir) :
    Met c (tr ++ [x]) q (k + if x = q then 1 else 0) := by
  obtain ⟨before, since, rfl, he, rfl⟩ := h
  refine ⟨before, since ++ [x], by simp, ⟨he.absent, fun mid hm hne => ?_⟩, ?_⟩
  · rcases List.prefix_concat_iff.mp hm with rfl | hm
    · rwa [← List.append_assoc]
    · exact he.present mid hm hne
  · rw [List.count_append, List.count_singleton]
    simp

/-- An item enters the directory with its own access. -/
lemma met_self (hq : q ∉ (after c tr).dir) : Met c (tr ++ [q]) q 1 := by
  refine ⟨tr, [q], rfl, ⟨hq, fun mid hm hne => ?_⟩, by simp⟩
  rcases List.prefix_cons_iff.mp hm with rfl | ⟨r, rfl, hr⟩
  · exact absurd rfl hne
  · rw [List.prefix_nil.mp hr, after_snoc, access_of_not_mem hq]
    exact mem_dir.mpr (Or.inl List.mem_cons_self)

/-- What the lists say about the past of their items. -/
structure Past (c : ℕ) (tr : List α) : Prop where
  recent : ∀ q ∈ (after c tr).recent, Met c tr q 1
  frequent : ∀ q ∈ (after c tr).frequent, ∃ k ≥ 2, Met c tr q k

/-- The access of an item of the directory is at least its second since it entered. -/
lemma Past.snoc_of_mem (hc : 1 ≤ c) (h : Past c tr) (hx : x ∈ (after c tr).dir) :
    Past c (tr ++ [x]) := by
  have hnd := (follows_after hc tr).nodup
  obtain ⟨e1, e2⟩ := access_of_mem (c := c) hnd hx
  rw [← after_snoc] at e1 e2
  rw [dir_eq, List.nodup_append] at hnd
  rw [dir_eq, List.mem_append] at hx
  refine ⟨fun q hq => ?_, fun q hq => ?_⟩
  · have hm : q ∈ (after c (tr ++ [x])).dir := List.mem_append_left _ hq
    rw [e1, hnd.1.mem_erase_iff] at hq
    simpa [Ne.symm hq.1] using (h.recent q hq.2).snoc hm
  · have hm : q ∈ (after c (tr ++ [x])).dir := List.mem_append_right _ hq
    rw [e2, mem_touch] at hq
    by_cases hqx : q = x
    · subst hqx
      rcases hx with hx | hx
      · exact ⟨2, le_rfl, by simpa using (h.recent q hx).snoc hm⟩
      · obtain ⟨k, hk, hmet⟩ := h.frequent q hx
        exact ⟨k + 1, by omega, by simpa using hmet.snoc hm⟩
    · obtain ⟨k, hk, hmet⟩ := h.frequent q (hq.resolve_left hqx)
      exact ⟨k, hk, by simpa [Ne.symm hqx] using hmet.snoc hm⟩

lemma Past.snoc_of_not_mem (hc : 1 ≤ c) (h : Past c tr) (hx : x ∉ (after c tr).dir) :
    Past c (tr ++ [x]) := by
  obtain ⟨hsub1, hsub2⟩ := ((sizes_after hc tr).room hc).sublist
  have hacc := access_of_not_mem (c := c) hx
  rw [← after_snoc] at hacc
  refine ⟨fun q hq => ?_, fun q hq => ?_⟩
  · have hm : q ∈ (after c (tr ++ [x])).dir := List.mem_append_left _ hq
    by_cases hqx : q = x
    · subst hqx
      exact met_self hx
    · rw [hacc] at hq
      have hq' := hsub1.subset ((List.mem_cons.mp hq).resolve_left hqx)
      simpa [Ne.symm hqx] using (h.recent q hq').snoc hm
  · have hm : q ∈ (after c (tr ++ [x])).dir := List.mem_append_right _ hq
    rw [hacc] at hq
    have hq' := hsub2.subset hq
    have hqx : x ≠ q := by
      rintro rfl
      exact hx (List.mem_append_right _ hq')
    obtain ⟨k, hk, hmet⟩ := h.frequent q hq'
    exact ⟨k, hk, by simpa [hqx] using hmet.snoc hm⟩

/-- **The past of the items of the directory**: since they entered it, those of `t1` and
`b1` were accessed once and those of `t2` and `b2` more than once. -/
theorem past (hc : 1 ≤ c) (tr : List α) : Past c tr := by
  induction tr using List.reverseRecOn with
  | nil => exact ⟨by simp [Cache.recent, Cache.empty], by simp [Cache.frequent, Cache.empty]⟩
  | append_singleton tr x ih =>
    by_cases hx : x ∈ (after c tr).dir
    · exact ih.snoc_of_mem hc hx
    · exact ih.snoc_of_not_mem hc hx

end Past

/-- After the accesses `past` the page is in one of the lists. -/
def Present (M : Malloc) (s₀ : State) (c : ℕ) (past : List Page) (q : Page) : Prop :=
  ∃ s os, run (arcAccess M) (arcInit s₀ c) past = some (s, os) ∧ ∃ i, q ∈ pages s i

lemma present_iff (M : Malloc) (s₀ : State) (hc : 1 ≤ c) (past : List Page) (q : Page) :
    Present M s₀ c past q ↔ q ∈ (after c past).dir := by
  obtain ⟨s, nd, hrun, hr, ha⟩ := run_after M s₀ hc past
  rw [← ha, mem_dir_pages hr]
  constructor
  · rintro ⟨s', os, hrun', hq⟩
    rw [hrun] at hrun'
    obtain ⟨rfl, -⟩ := Prod.mk.inj (Option.some.inj hrun')
    exact hq
  · exact fun hq => ⟨s, _, hrun, hq⟩

/-- Since it was last in none of the lists the page was accessed `k` times. -/
def AccessedSince (M : Malloc) (s₀ : State) (c : ℕ) (tr : List Page) (q : Page) (k : ℕ) : Prop :=
  ∃ before since, tr = before ++ since ∧ ¬Present M s₀ c before q ∧
    (∀ mid, mid <+: since → mid ≠ [] → Present M s₀ c (before ++ mid) q) ∧ since.count q = k

lemma accessedSince_iff (M : Malloc) (s₀ : State) (hc : 1 ≤ c) (q : Page) (k : ℕ) :
    AccessedSince M s₀ c tr q k ↔ Met c tr q k := by
  simp only [AccessedSince, Met, present_iff M s₀ hc]
  constructor
  · rintro ⟨before, since, h, h1, h2, h3⟩
    exact ⟨before, since, h, ⟨h1, h2⟩, h3⟩
  · rintro ⟨before, since, h, ⟨h1, h2⟩, h3⟩
    exact ⟨before, since, h, h1, h2, h3⟩

/-- **What the four lists mean.** After every trace `T1` and then `B1` is in the order of
last access, and so is `T2` and then `B2`; since they were last in none of the lists, the
pages of the first two were accessed once and those of the other two more than once. -/
theorem lists_meaning (M : Malloc) (s₀ : State) (c : ℕ) (hc : 1 ≤ c) (tr : List Page) :
    ∃ s os, run (arcAccess M) (arcInit s₀ c) tr = some (s, os) ∧
      (pages s .t1 ++ pages s .b1).Pairwise (fun a b => lastAccess tr b < lastAccess tr a) ∧
      (pages s .t2 ++ pages s .b2).Pairwise (fun a b => lastAccess tr b < lastAccess tr a) ∧
      (∀ q ∈ pages s .t1 ++ pages s .b1, AccessedSince M s₀ c tr q 1) ∧
      ∀ q ∈ pages s .t2 ++ pages s .b2, ∃ k ≥ 2, AccessedSince M s₀ c tr q k := by
  obtain ⟨s, nd, hrun, hr, ha⟩ := run_after M s₀ hc tr
  obtain ⟨e1, e2⟩ := pages_after hr ha
  have hf := follows_after hc tr
  have hp := past hc tr
  refine ⟨s, _, hrun, ?_, ?_, fun q hq => ?_, fun q hq => ?_⟩
  · rw [e1]; exact (pairwise_recency tr).sublist hf.recent
  · rw [e2]; exact (pairwise_recency tr).sublist hf.frequent
  · rw [e1] at hq
    exact (accessedSince_iff M s₀ hc q 1).mpr (hp.recent q hq)
  · rw [e2] at hq
    obtain ⟨k, hk, hmet⟩ := hp.frequent q hq
    exact ⟨k, hk, (accessedSince_iff M s₀ hc q k).mpr hmet⟩

/-- The theorem at two frames and a trace that calls a page back from a ghost list. -/
theorem lists_meaning_two :
    1 ≤ 2 ∧ ∃ (s : State) (os : List Result),
      run (arcAccess Malloc.above) (arcInit start 2) [1, 1, 2, 3, 2] = some (s, os) ∧
        ∀ q ∈ pages s .t1 ++ pages s .b1,
          AccessedSince Malloc.above start 2 [1, 1, 2, 3, 2] q 1 := by
  obtain ⟨s, os, h, -, -, h1, -⟩ :=
    lists_meaning Malloc.above start 2 (by decide) [1, 1, 2, 3, 2]
  exact ⟨by decide, s, os, h, h1⟩

/-! ### Scans -/

section Keep

variable {α : Type*} {c : ℕ} {a b : Cache α}

/-- How many of `n` items of `t2` no scan removes. -/
def kept (c : ℕ) (p : ℤ) (n : ℕ) : ℤ := min n (max 0 (c - p - 1))

lemma kept_le (c : ℕ) (p : ℤ) (n : ℕ) : kept c p n ≤ n := min_le_left _ _

/-- An eviction takes from `t2` only if `t1` is not over its target. -/
lemma kept_replace (h : CanReplace c a false) (hp : 0 ≤ a.p) :
    (a.replace false).t2 <+: a.t2 ∧ kept c a.p a.t2.length ≤ (a.replace false).t2.length := by
  have hfull := h.full
  unfold Cache.replace
  split_ifs with hf
  · exact ⟨List.prefix_refl _, kept_le _ _ _⟩
  · refine ⟨List.dropLast_prefix _, ?_⟩
    have hpos := List.length_pos_of_ne_nil (h.t2_ne_nil hf)
    have hle : (a.t1.length : ℤ) ≤ a.p := by
      by_contra hlt
      exact hf ⟨by omega, Or.inl (by omega)⟩
    simp only [List.length_dropLast, kept]
    omega

/-- Making room leaves the target and most of `t2`. -/
lemma kept_room (hr : Room c a b) (hp : 0 ≤ a.p) :
    b.p = a.p ∧ b.t2 <+: a.t2 ∧ kept c a.p a.t2.length ≤ b.t2.length := by
  cases hr with
  | ghost _ _ hcan => exact ⟨replace_p _ _, kept_replace hcan hp⟩
  | resident => exact ⟨rfl, List.prefix_refl _, kept_le _ _ _⟩
  | full _ _ _ hcan => exact ⟨replace_p _ _, kept_replace hcan hp⟩
  | cache _ _ hcan => exact ⟨replace_p _ _, kept_replace hcan hp⟩
  | free => exact ⟨rfl, List.prefix_refl _, kept_le _ _ _⟩

/-- What survives one part of a scan and what survives the rest of it survives both. -/
lemma kept_trans {n m k : ℕ} {p : ℤ} (h1 : kept c p n ≤ m) (h2 : kept c p m ≤ k) :
    kept c p n ≤ k := by
  unfold kept at *
  omega

end Keep

/-- Each of the accesses is to a page that is in none of the lists at that moment. -/
def AllNew (M : Malloc) : State → List Page → Prop
  | _, [] => True
  | s, q :: qs => (∀ i, q ∉ pages s i) ∧ ∀ s' r, arcAccess M s q = some (s', r) → AllNew M s' qs

lemma scan_rep (M : Malloc) (hc : 1 ≤ c) (h : Rep c s nd) (hs : Sizes c (abs s nd))
    {scan : List Page} (hnew : AllNew M s scan) :
    ∃ s' os, run (arcAccess M) s scan = some (s', os) ∧ s'.p = s.p ∧
      pages s' .t2 <+: pages s .t2 ∧
      kept c s.p (pages s .t2).length ≤ (pages s' .t2).length := by
  induction scan generalizing s nd with
  | nil => exact ⟨s, [], rfl, rfl, List.prefix_refl _, kept_le _ _ _⟩
  | cons q scan ih =>
    obtain ⟨hq, hnew⟩ := hnew
    obtain ⟨s₁, nd₁, he, hr, ha⟩ := access_spec M hc h hs q
    have hdir : q ∉ (abs s nd).dir := fun hm => by
      obtain ⟨i, hi⟩ := (mem_dir_pages h).mp hm
      exact hq i hi
    have hs₁ := (hs.access hc q).1
    rw [← ha] at hs₁
    rw [access_of_not_mem hdir] at ha
    -- what one access keeps
    obtain ⟨kp, kpre, klen⟩ := kept_room (hs.room hc) hs.p_nonneg
    have hp : s₁.p = s.p := (congrArg Cache.p ha).trans kp
    have ht : pages s₁ .t2 = ((abs s nd).makeRoom c).t2 := by
      rw [pages_eq hr]
      exact congrArg Cache.t2 ha
    have ht₀ : pages s .t2 = (abs s nd).t2 := pages_eq h _
    obtain ⟨s', os, hrun, hp', hpre, hlen⟩ := ih hr hs₁ (hnew s₁ _ he)
    rw [hp] at hlen
    refine ⟨s', _, run_cons he hrun, hp'.trans hp, ?_, kept_trans ?_ hlen⟩
    · rw [ht] at hpre
      rw [ht₀]
      exact hpre.trans kpre
    · rw [ht, ht₀]
      exact klen

/-- **Scan resistance.** From every reachable state, accesses to pages that are in none of
the lists when accessed leave the target as it is and the front of `T2`, of at least `c - p -
1` pages or all of `T2`; no scan is too long for this. -/
theorem scan_resistance (M : Malloc) (s₀ : State) (c : ℕ) (hc : 1 ≤ c) (tr : List Page)
    (s : State) (os : List Result)
    (hrun : run (arcAccess M) (arcInit s₀ c) tr = some (s, os)) (scan : List Page)
    (hnew : AllNew M s scan) :
    ∃ s' os', run (arcAccess M) s scan = some (s', os') ∧ s'.p = s.p ∧
      pages s' .t2 <+: pages s .t2 ∧
      min ((pages s .t2).length : ℤ) (max 0 (c - s.p - 1)) ≤ (pages s' .t2).length := by
  obtain ⟨s₁, nd, hrun₁, hr, ha⟩ := run_after M s₀ hc tr
  rw [hrun] at hrun₁
  obtain ⟨rfl, -⟩ := Prod.mk.inj (Option.some.inj hrun₁)
  exact scan_rep M hc hr (ha ▸ sizes_after hc tr) hnew

/-- Pages that were never asked for are new, each once. -/
lemma allNew_of_fresh {M : Malloc} {s₀ : State} (hc : 1 ≤ c) {tr scan : List Page} {s : State}
    {os : List Result} (hrun : run (arcAccess M) (arcInit s₀ c) tr = some (s, os))
    (hnd : scan.Nodup) (hfresh : ∀ q ∈ scan, q ∉ tr) : AllNew M s scan := by
  induction scan generalizing tr s os with
  | nil => trivial
  | cons q qs ih =>
    obtain ⟨hq, hnd⟩ := List.nodup_cons.mp hnd
    refine ⟨fun i hi => ?_, fun s' r ha => ih (run_snoc hrun ha) hnd fun x hx hm => ?_⟩
    · obtain ⟨t, nd, hrun', hr, ha⟩ := run_after M s₀ hc tr
      obtain ⟨rfl, -⟩ := Prod.mk.inj (Option.some.inj (hrun.symm.trans hrun'))
      have hm := (mem_dir_pages hr).mpr ⟨i, hi⟩
      rw [ha] at hm
      exact hfresh q List.mem_cons_self (mem_of_mem_after hc hm)
    · rcases List.mem_append.mp hm with hm | hm
      · exact hfresh x (List.mem_cons_of_mem q hx) hm
      · exact hq (List.mem_singleton.mp hm ▸ hx)

/-- The theorem at three frames with three pages in `T2`: a scan of six leaves two of them. -/
theorem scan_resistance_three :
    1 ≤ 3 ∧ ∃ (s : State) (os : List Result),
      run (arcAccess Malloc.above) (arcInit start 3) [1, 1, 2, 2, 3, 3] = some (s, os) ∧
      pages s .t2 = [3, 2, 1] ∧ AllNew Malloc.above s [5, 6, 7, 8, 9, 10] ∧
      ∃ s' os', run (arcAccess Malloc.above) s [5, 6, 7, 8, 9, 10] = some (s', os') ∧
        s'.p = s.p ∧ pages s' .t2 <+: [3, 2, 1] ∧ 2 ≤ (pages s' .t2).length := by
  obtain ⟨s, nd, hrun, -, -⟩ := run_after Malloc.above start (show 1 ≤ 3 by decide) [1, 1, 2, 2, 3, 3]
  have hval : (run (arcAccess Malloc.above) (arcInit start 3) [1, 1, 2, 2, 3, 3]).map
      (fun a => (pages a.1 .t2, a.1.p)) = some ([3, 2, 1], 0) := by decide
  have hnew : AllNew Malloc.above s [5, 6, 7, 8, 9, 10] :=
    allNew_of_fresh (by decide) hrun (by decide) (by simp)
  obtain ⟨s', os', h', hp, hpre, hlen⟩ := scan_resistance Malloc.above start 3 (by decide)
    [1, 1, 2, 2, 3, 3] s _ hrun [5, 6, 7, 8, 9, 10] hnew
  rw [show ((3 : ℕ) : ℤ) = 3 from rfl] at hrun
  rw [hrun, Option.map_some, Option.some.injEq, Prod.mk.injEq] at hval
  obtain ⟨ht2, hp0⟩ := hval
  rw [ht2] at hpre hlen
  rw [hp0] at hlen
  exact ⟨by decide, s, _, hrun, ht2, hnew, s', os', h', hp, hpre, by simp at hlen; omega⟩

end Tempograph.ArcRuns
