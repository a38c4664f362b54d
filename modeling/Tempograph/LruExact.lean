import Tempograph.Lru
import Tempograph.Recency
import Tempograph.Runs

/-!
`lru.c` holds the most recently used pages.

The list, the hash map and the counter are tied together by `Rep`. An access moves its page
to the front of the list and cuts the list at the capacity, which is what the recency list
of the trace does; so the list is always the first `capacity` places of that list.
-/

namespace Tempograph.LruExact

open Common ChainMap LinkedList Recency Runs Lru

variable {M : Malloc} {c : ℕ} {s : State} {l : List ℕ} {page : Page}

/-- The nodes of `l` are the list, and the hash map finds exactly them. -/
structure Rep (c : ℕ) (s : State) (l : List ℕ) : Prop where
  list : IsList s.links s.ends l
  size : s.size = l.length
  capacity : s.capacity = c
  get : ∀ q a, hmGet s q = some a ↔ a ∈ l ∧ s.page a = q
  live : ∀ a ∈ l, a ∈ s.live

lemma Rep.page_inj (h : Rep c s l) {a b : ℕ} (ha : a ∈ l) (hb : b ∈ l)
    (e : s.page a = s.page b) : a = b := by
  have h1 := (h.get (s.page a) a).mpr ⟨ha, rfl⟩
  have h2 := (h.get (s.page a) b).mpr ⟨hb, e.symm⟩
  rw [h1] at h2
  exact Option.some.inj h2

lemma rep_init (s₀ : State) (c : ℕ) : Rep c (lruInit s₀ c) [] where
  list := isList_nil _
  size := rfl
  capacity := rfl
  get q a := by simp [hmGet, lruInit, lruReset]
  live := by simp

/-- A hit moves the page's node to the front. -/
lemma hit_spec (h : Rep c s l) {n : ℕ} (hn : n ∈ l) :
    Rep c (listPushFront (listRemove s n) n) (touch n l) where
  list := (h.list.unlink hn).pushFront h.list.nodup.not_mem_erase
  size := by rw [length_touch_of_mem hn]; exact h.size
  capacity := h.capacity
  get q a := by
    have := h.get q a
    have hmem : a ∈ touch n l ↔ a ∈ l := mem_touch_of_mem hn
    simpa [hmGet, listPushFront, listRemove, hmem] using this
  live a ha := by
    rcases mem_touch.mp ha with rfl | ha
    · exact h.live _ hn
    · exact h.live a ha

/-- Eviction is defined and leaves room for one node. -/
lemma evict_spec (hc : 1 ≤ c) (h : Rep c s l) (hlen : l.length ≤ c) :
    ∃ s', evict s = some s' ∧ Rep c s' (l.take (c - 1)) ∧ s'.page = s.page := by
  by_cases hfull : l.length = c
  · have hne : l ≠ [] := by rintro rfl; simp at hfull; omega
    obtain ⟨r, v, rfl⟩ := List.eq_nil_or_concat l |>.resolve_left hne
    rw [List.concat_eq_append] at *
    have htail : s.ends.tail = some v := by rw [h.list.tail]; simp
    have hr : r.length = c - 1 := by simp at hfull; omega
    have hv : v ∈ r ++ [v] := by simp
    have herase : (r ++ [v]).erase v = r := by
      simpa using split_erase (b := []) h.list.nodup
    have hvr : v ∉ r := fun hm => by
      have := List.disjoint_of_nodup_append h.list.nodup hm
      simp at this
    have hfull' : s.size = s.capacity := by rw [h.size, h.capacity, hfull]
    have hlist := h.list.unlink hv
    rw [herase] at hlist
    have htake : (r ++ [v]).take (c - 1) = r := by rw [← hr, List.take_left]
    rw [htake]
    refine ⟨drop s v, by simp only [evict, if_pos hfull', htail],
      ⟨hlist, ?_, h.capacity, ?_, ?_⟩, rfl⟩
    · simp [h.size, drop, hmDel, listRemove]
    · intro q a
      simp only [hmGet, drop, hmDel, listRemove, Table.get_del]
      have hq := h.get q a
      rw [hmGet] at hq
      by_cases e : q = s.page v
      · -- the page of the victim is no longer found, and no other node holds it
        have : ¬(a ∈ r ∧ s.page a = q) := by
          rintro ⟨ha, rfl⟩
          have := h.page_inj (by simp [ha]) hv e
          exact hvr (this ▸ ha)
        rw [if_pos e]
        simp only [this, reduceCtorEq]
      · have : a ∈ r ++ [v] ∧ s.page a = q ↔ a ∈ r ∧ s.page a = q := by
          constructor
          · rintro ⟨ha, rfl⟩
            have hav : a ≠ v := by rintro rfl; exact e rfl
            exact ⟨by simpa [hav] using ha, rfl⟩
          · rintro ⟨ha, rfl⟩; exact ⟨by simp [ha], rfl⟩
        rw [if_neg e, hq, this]
    · intro a ha
      have hav : a ≠ v := by rintro rfl; exact hvr ha
      simp only [drop, hmDel, listRemove]
      rw [List.mem_erase_of_ne hav]
      exact h.live a (by simp [ha])
  · have hfull' : s.size ≠ s.capacity := by rw [h.size, h.capacity]; exact_mod_cast hfull
    refine ⟨s, by simp [evict, hfull'], ?_, rfl⟩
    rwa [List.take_of_length_le (by omega)]

/-- A page that no node holds is loaded into a new node at the head. -/
lemma load_spec (h : Rep c s l) (hp : ∀ a ∈ l, s.page a ≠ page) :
    Rep c (load M s page) (M.pick s.live :: l) ∧
      (M.pick s.live :: l).map (load M s page).page = page :: l.map s.page := by
  have hn : M.pick s.live ∉ l := fun hm => M.fresh _ (h.live _ hm)
  have hne : ∀ a ∈ l, a ≠ M.pick s.live := fun a ha e => hn (e ▸ ha)
  refine ⟨⟨?_, ?_, h.capacity, fun q a => ?_, ?_⟩, ?_⟩
  · refine IsList.pushFront (h.list.frame fun x hx => ?_) hn
    simp [hne x hx]
  · simp [load, hmPut, listPushFront, h.size]
  · simp only [load, hmPut, listPushFront, hmGet, Table.get_put, List.mem_cons]
    have hq := h.get q a
    rw [hmGet] at hq
    by_cases e : q = page
    · subst e
      by_cases ha : a = M.pick s.live
      · simp [ha]
      · have : ¬(a ∈ l ∧ s.page a = q) := fun hh => hp a hh.1 hh.2
        simp [ha, Ne.symm ha, this]
    · rw [if_neg e, hq]
      by_cases ha : a = M.pick s.live
      · simp [ha, hn, Ne.symm e]
      · simp [ha]
  · intro a ha
    rcases List.mem_cons.mp ha with rfl | ha
    · simp [load, hmPut, listPushFront]
    · simp [load, hmPut, listPushFront, h.live a ha]
  · simp only [load, hmPut, listPushFront, List.map_cons, Function.update_self,
      List.cons.injEq, true_and]
    exact List.map_congr_left fun a ha => Function.update_of_ne (hne a ha) _ _

/-- **One access.** It hits exactly the pages the list holds, and the list of pages moves
the page to the front and is cut at the capacity. -/
theorem access_spec (M : Malloc) (hc : 1 ≤ c) (h : Rep c s l) (hlen : l.length ≤ c)
    (page : Page) :
    ∃ s' l', lruAccess M s page =
        some (s', if page ∈ l.map s.page then .hit else .fault) ∧
      Rep c s' l' ∧ l'.map s'.page = (touch page (l.map s.page)).take c := by
  cases hg : hmGet s page with
  | none =>
    have hp : ∀ a ∈ l, s.page a ≠ page := fun a ha e => by
      rw [(h.get page a).mpr ⟨ha, e⟩] at hg; cases hg
    have hmem : page ∉ l.map s.page := by simpa using hp
    obtain ⟨s', he, hr, hpage⟩ := evict_spec hc h hlen
    obtain ⟨hr', hpages⟩ := load_spec (M := M) hr fun a ha => by
      rw [hpage]; exact hp a (List.mem_of_mem_take ha)
    refine ⟨_, _, by simp only [lruAccess, hg, he, if_neg hmem], hr', ?_⟩
    obtain ⟨k, rfl⟩ : ∃ k, c = k + 1 := ⟨c - 1, by omega⟩
    rw [hpages, hpage, touch_of_not_mem hmem]
    simp
  | some n =>
    obtain ⟨hn, rfl⟩ := (h.get page n).mp hg
    have hmem : s.page n ∈ l.map s.page := List.mem_map_of_mem hn
    refine ⟨_, _, by simp only [lruAccess, hg, if_pos hmem], hit_spec h hn, ?_⟩
    have hmap := map_touch_of_injOn fun a ha e => h.page_inj ha hn e
    rw [← hmap, List.take_of_length_le]
    · rfl
    · rw [List.length_map, length_touch_of_mem hn]; exact hlen

/-! ### Whole runs -/

/-- The list is the recency list of the trace, cut at the capacity. -/
def Inv (c : ℕ) (tr : List Page) (s : State) : Prop :=
  ∃ l, Rep c s l ∧ l.map s.page = (recency tr).take c

lemma inv_init (s₀ : State) (c : ℕ) : Inv c [] (lruInit s₀ c) :=
  ⟨[], rep_init s₀ c, by simp⟩

lemma inv_step (M : Malloc) (hc : 1 ≤ c) {tr : List Page} (h : Inv c tr s) (page : Page) :
    ∃ s' r, lruAccess M s page = some (s', r) ∧ Inv c (tr ++ [page]) s' ∧
      (r = .hit ↔ page ∈ (recency tr).take c) := by
  obtain ⟨l, hr, hl⟩ := h
  have hlen : l.length ≤ c := by
    have := congrArg List.length hl
    simp only [List.length_map, List.length_take] at this
    omega
  obtain ⟨s', l', ha, hr', hl'⟩ := access_spec M hc hr hlen page
  refine ⟨s', _, ha, ⟨l', hr', ?_⟩, ?_⟩
  · rw [hl', hl, recency_snoc, ← take_touch]
  · rw [hl]; split_ifs with hm <;> simp [hm]

/-- Every trace runs to its end, and an access hits exactly the pages that are among the
`c` most recent. -/
theorem lru_run (M : Malloc) (s₀ : State) (hc : 1 ≤ c) (tr : List Page) :
    ∃ s os, run (lruAccess M) (lruInit s₀ c) tr = some (s, os) ∧ Inv c tr s ∧
      ∀ k (hk : k < tr.length) (hk' : k < os.length),
        os[k] = .hit ↔ tr[k] ∈ (recency (tr.take k)).take c :=
  run_spec (O := fun past page r => r = Result.hit ↔ page ∈ (recency past).take c) tr
    (inv_init s₀ c) fun _ page _ _ hi => inv_step M hc hi page

/-- **LRU is exact.** After any trace the list, walked from the head, holds the `c` most
recent pages, the walk from the tail is its reverse, `size` is its length and the hash map
finds exactly its nodes. The next access hits a page exactly when fewer than `c` distinct
pages were accessed since its last access, and more frames lose no hit. -/
theorem lru_exact (M : Malloc) (s₀ : State) (c : ℕ) (hc : 1 ≤ c) (tr : List Page) :
    ∃ s os l, run (lruAccess M) (lruInit s₀ c) tr = some (s, os) ∧
      (∀ m, l.length ≤ m → follow s.links.next m s.ends.head = l ∧
        follow s.links.prev m s.ends.tail = l.reverse) ∧
      MostRecent c tr (l.map s.page) ∧
      s.size = l.length ∧
      (∀ q a, hmGet s q = some a ↔ a ∈ l ∧ s.page a = q) ∧
      (∀ q, ∃ s' r, lruAccess M s q = some (s', r) ∧
        (r = .hit ↔ ∃ before since, tr = before ++ q :: since ∧ q ∉ since ∧
          since.toFinset.card < c)) ∧
      ∀ (M' : Malloc) (s₀' : State) (c' : ℕ), c ≤ c' →
        ∃ s' os', run (lruAccess M') (lruInit s₀' c') tr = some (s', os') ∧
          ∀ k : ℕ, os[k]? = some .hit → os'[k]? = some .hit := by
  obtain ⟨s, os, hrun, hinv, hos⟩ := lru_run M s₀ hc tr
  obtain ⟨l, hr, hl⟩ := id hinv
  refine ⟨s, os, l, hrun, fun m hm => ⟨?_, ?_⟩, ?_, hr.size, hr.get, fun q => ?_, ?_⟩
  · rw [hr.list.follow_next, List.take_of_length_le hm]
  · rw [hr.list.follow_prev, List.take_of_length_le (by simpa using hm)]
  · rw [hl]; exact mostRecent_take c tr
  · obtain ⟨s', r, ha, -, hhit⟩ := inv_step M hc hinv q
    exact ⟨s', r, ha, by rw [hhit, mem_take_recency]⟩
  · intro M' s₀' c' hcc
    obtain ⟨s', os', hrun', -, hos'⟩ := lru_run M' s₀' (hc.trans hcc) tr
    refine ⟨s', os', hrun', fun k hk => ?_⟩
    obtain ⟨hk1, hk2⟩ := List.getElem?_eq_some_iff.mp hk
    have hlen := run_length hrun
    have hlen' := run_length hrun'
    have hmem := (hos k (by omega) hk1).mp hk2
    rw [List.getElem?_eq_some_iff]
    exact ⟨by omega, (hos' k (by omega) (by omega)).mpr
      ((List.take_sublist_take_left hcc).subset hmem)⟩

/-- The theorem at one frame and a trace of two pages. -/
theorem lru_exact_one :
    1 ≤ 1 ∧ ∃ (s : State) (os : List Result) (l : List ℕ),
      run (lruAccess Malloc.above) (lruInit start 1) [3, 5] = some (s, os) ∧
      MostRecent 1 [3, 5] (l.map s.page) := by
  obtain ⟨s, os, l, h, -, hm, -⟩ := lru_exact Malloc.above start 1 le_rfl [3, 5]
  exact ⟨le_rfl, s, os, l, h, hm⟩

end Tempograph.LruExact
