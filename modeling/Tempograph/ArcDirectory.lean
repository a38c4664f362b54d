import Tempograph.ArcRefine
import Tempograph.LruExact

/-!
Whole runs of `arc.c`: the bounds on its lists, and the pages it never forgets.

The four lists stay within the bounds of adaptive replacement and follow the recency list of
the trace. `lru.c` holds the first `c` places of that list, so what `arc.c` meets as a
completely new page is a fault there too.
-/

namespace Tempograph.ArcDirectory

open Common LinkedList Recency Runs Arc ArcLists ArcRefine

variable {M : Malloc} {c : ℕ} {s : State} {nd : ListId → List ℕ} {tr : List Page}

lemma walk_eq (h : Rep c s nd) (i : ListId) : walk s i = nd i :=
  (h.list i).follow_all (h.live i)

/-- The lists are within their bounds and follow the trace. -/
def Inv (c : ℕ) (tr : List Page) (s : State) : Prop :=
  ∃ nd, Rep c s nd ∧ Sizes c (abs s nd) ∧ Follows c (recency tr) (abs s nd)

/-- The resident pages fill the cache. -/
def Full (c : ℕ) (s : State) : Prop := (s.lists .t1).size + (s.lists .t2).size = c

lemma full_iff (h : Rep c s nd) :
    Full c s ↔ (abs s nd).t1.length + (abs s nd).t2.length = c := by
  obtain ⟨h1, h2, -, -⟩ := abs_size h
  unfold Full
  omega

lemma inv_init (s₀ : State) (c : ℕ) : Inv c [] (arcInit s₀ c) := by
  refine ⟨fun _ => [], rep_init s₀ c, ?_, ?_⟩
  · exact sizes_empty c
  · exact ⟨List.nodup_nil, List.Sublist.refl _, List.Sublist.refl _, by simp⟩

/-- **One access** keeps the bounds and the order of the lists, and a full cache full. -/
theorem inv_step (M : Malloc) (hc : 1 ≤ c) (h : Inv c tr s) (page : Page) :
    ∃ s' r, arcAccess M s page = some (s', r) ∧ Inv c (tr ++ [page]) s' ∧
      (Full c s → Full c s') := by
  obtain ⟨nd, hr, hs, hf⟩ := h
  obtain ⟨s', nd', he, hr', ha⟩ := access_spec M hc hr hs page
  obtain ⟨hs', hfull⟩ := hs.access hc page
  have hf' := hf.access hc hs (nodup_recency tr) page
  rw [← ha] at hs' hf' hfull
  rw [← recency_snoc] at hf'
  refine ⟨s', _, he, ⟨nd', hr', hs', hf'⟩, ?_⟩
  rw [full_iff hr, full_iff hr']
  exact hfull

/-- A first access faults, and while all pages fit every other access hits. -/
lemma Inv.result {s' : State} {r : Result} {page : Page} (hc : 1 ≤ c) (h : Inv c tr s)
    (he : arcAccess M s page = some (s', r)) :
    (page ∉ tr → r = .fault) ∧ (tr.toFinset.card ≤ c → page ∈ tr → r = .hit) := by
  obtain ⟨nd, hr, hs, hf⟩ := h
  obtain ⟨s₁, nd', he', -, -⟩ := access_spec M hc hr hs page
  rw [he] at he'
  obtain ⟨-, rfl⟩ := Prod.mk.inj (Option.some.inj he')
  have hdir : ∀ q ∈ (abs s nd).dir, q ∈ tr := fun q hq => by
    rw [dir_eq, List.mem_append] at hq
    exact mem_recency.mp (hq.elim (fun h => hf.recent.subset h) fun h => hf.frequent.subset h)
  constructor
  · intro hm
    have hno : ¬((abs s nd).access c page).2 = true := fun h => by
      rw [access_hit_iff] at h
      exact hm (hdir page (mem_dir.mpr (by tauto)))
    rw [if_neg hno]
  · intro hcard hm
    have hlen : (abs s nd).dir.length ≤ c := by
      calc (abs s nd).dir.length = (abs s nd).dir.toFinset.card :=
            (List.toFinset_card_of_nodup hf.nodup).symm
        _ ≤ tr.toFinset.card := Finset.card_le_card fun q hq =>
            List.mem_toFinset.mpr (hdir q (List.mem_toFinset.mp hq))
        _ ≤ c := hcard
    obtain ⟨hb1, hb2⟩ := hs.no_ghosts hlen
    have hmem := hf.covers page (by
      rw [List.take_of_length_le (by rwa [length_recency]), mem_recency]
      exact hm)
    rw [mem_dir, hb1, hb2] at hmem
    rw [if_pos (access_hit_iff.mpr (by simpa using hmem))]

lemma arc_run (M : Malloc) (s₀ : State) (hc : 1 ≤ c) (tr : List Page) :
    ∃ s os, run (arcAccess M) (arcInit s₀ c) tr = some (s, os) ∧ Inv c tr s :=
  run_inv tr (inv_init s₀ c) fun _ page _ _ h => by
    obtain ⟨s', r, he, hi, -⟩ := inv_step M hc h page
    exact ⟨s', r, he, hi⟩

/-! ### The bounds -/

/-- The bounds on the four `size` fields and the target; each `size` is the number of nodes
in the list. -/
structure Bounded (c : ℕ) (s : State) : Prop where
  resident : (s.lists .t1).size + (s.lists .t2).size ≤ c
  recent : (s.lists .t1).size + (s.lists .b1).size ≤ c
  total : (s.lists .t1).size + (s.lists .t2).size + (s.lists .b1).size + (s.lists .b2).size ≤
    2 * c
  p_nonneg : 0 ≤ s.p
  p_le : s.p ≤ c
  ghosts : (s.lists .t1).size + (s.lists .t2).size < c → walk s .b1 = [] ∧ walk s .b2 = []
  size : ∀ i, (s.lists i).size = (walk s i).length

lemma Inv.bounded (h : Inv c tr s) : Bounded c s := by
  obtain ⟨nd, hr, hs, -⟩ := h
  obtain ⟨h1, h2, h3, h4⟩ := abs_size hr
  have hres := hs.resident
  have hrec := hs.recent
  have htot := hs.total
  refine ⟨by omega, by omega, by omega, hs.p_nonneg, hs.p_le, fun hl => ?_, fun i => ?_⟩
  · obtain ⟨hb1, hb2⟩ := hs.ghosts (by omega)
    rw [walk_eq hr, walk_eq hr]
    exact ⟨List.map_eq_nil_iff.mp hb1, List.map_eq_nil_iff.mp hb2⟩
  · rw [walk_eq hr, hr.size]

/-- **The sizes of the four lists** are bounded after every trace, and once the resident
pages fill the cache they do so for the rest of the run. -/
theorem arc_sizes (M : Malloc) (s₀ : State) (c : ℕ) (hc : 1 ≤ c) (tr : List Page) :
    ∃ s os, run (arcAccess M) (arcInit s₀ c) tr = some (s, os) ∧ Bounded c s ∧
      (Full c s → ∀ more, ∃ s' os', run (arcAccess M) s more = some (s', os') ∧
        Bounded c s' ∧ Full c s') := by
  obtain ⟨s, os, hrun, hinv⟩ := arc_run M s₀ hc tr
  refine ⟨s, os, hrun, hinv.bounded, fun hfull more => ?_⟩
  obtain ⟨s', os', hrun', hi, hf⟩ := run_inv
    (I := fun past s => Inv c (tr ++ past) s ∧ Full c s) more ⟨by simpa using hinv, hfull⟩
    fun past page s _ h => by
      obtain ⟨s', r, he, hi, hf⟩ := inv_step M hc h.1 page
      exact ⟨s', r, he, by simpa using hi, hf h.2⟩
  exact ⟨s', os', hrun', hi.bounded, hf⟩

/-- The theorem at two frames and a trace that hits a ghost. -/
theorem arc_sizes_two :
    1 ≤ 2 ∧ ∃ (s : State) (os : List Result),
      run (arcAccess Malloc.above) (arcInit start 2) [1, 1, 2, 3, 2] = some (s, os) ∧
        Bounded 2 s := by
  obtain ⟨s, os, h, hb, -⟩ := arc_sizes Malloc.above start 2 (by decide) [1, 1, 2, 3, 2]
  exact ⟨by decide, s, os, h, hb⟩

/-! ### The directory and LRU -/

/-- What the hash map does not find is in none of the lists. -/
lemma mem_dir_iff (h : Rep c s nd) {q : Page} : q ∈ (abs s nd).dir ↔ ahmGet s q ≠ none := by
  rw [mem_abs_dir, Option.ne_none_iff_exists']
  constructor
  · rintro ⟨i, x, hx, e⟩
    exact ⟨x, (h.get q x).mpr ⟨⟨i, hx⟩, e⟩⟩
  · rintro ⟨x, hx⟩
    obtain ⟨⟨i, hi⟩, e⟩ := (h.get q x).mp hx
    exact ⟨i, x, hi, e⟩

/-- **The directory of ARC contains the LRU cache.** After any trace every page that
`lru.c` holds is in one of the lists of `arc.c` with the same number of frames; so the next
page, if `arc.c` meets it as completely new, is a fault for `lru.c`. -/
theorem directory_contains_lru (M M' : Malloc) (s₀ : State) (s₀' : Lru.State) (c : ℕ)
    (hc : 1 ≤ c) (tr : List Page) :
    ∃ s os s' os', run (arcAccess M) (arcInit s₀ c) tr = some (s, os) ∧
      run (Lru.lruAccess M') (Lru.lruInit s₀' c) tr = some (s', os') ∧
      (∀ a ∈ Lru.walk s', ∃ i, ∃ x ∈ walk s i, s.page x = s'.page a) ∧
      ∀ q, ahmGet s q = none → ∃ t, Lru.lruAccess M' s' q = some (t, .fault) := by
  obtain ⟨s, os, hrun, nd, hr, hs, hf⟩ := arc_run M s₀ hc tr
  obtain ⟨s', os', hrun', hinv, -⟩ := LruExact.lru_run M' s₀' hc tr
  obtain ⟨l, hr', hl⟩ := id hinv
  refine ⟨s, os, s', os', hrun, hrun', fun a ha => ?_, fun q hq => ?_⟩
  · rw [Lru.walk, hr'.list.follow_all hr'.live] at ha
    have hm : s'.page a ∈ (recency tr).take c := hl ▸ List.mem_map_of_mem ha
    obtain ⟨i, x, hx, e⟩ := mem_abs_dir.mp (hf.covers _ hm)
    exact ⟨i, x, walk_eq hr i ▸ hx, e⟩
  · obtain ⟨t, r, he, -, hhit⟩ := LruExact.inv_step M' hc hinv q
    cases r with
    | hit => exact absurd hq ((mem_dir_iff hr).mp (hf.covers q (hhit.mp rfl)))
    | fault => exact ⟨t, he⟩

/-- The theorem at one frame and a trace of two pages. -/
theorem directory_contains_lru_one :
    1 ≤ 1 ∧ ∃ (s : State) (os : List Result) (s' : Lru.State) (os' : List Result),
      run (arcAccess Malloc.above) (arcInit start 1) [3, 5] = some (s, os) ∧
      run (Lru.lruAccess Malloc.above) (Lru.lruInit Lru.start 1) [3, 5] = some (s', os') ∧
      ∀ a ∈ Lru.walk s', ∃ i, ∃ x ∈ walk s i, s.page x = s'.page a := by
  obtain ⟨s, os, s', os', h1, h2, h3, -⟩ :=
    directory_contains_lru Malloc.above Malloc.above start Lru.start 1 le_rfl [3, 5]
  exact ⟨le_rfl, s, os, s', os', h1, h2, h3⟩

end Tempograph.ArcDirectory
