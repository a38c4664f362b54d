import Tempograph.Arc
import Tempograph.ArcLists
import Tempograph.Runs

/-!
`arc.c` is adaptive replacement on lists.

`Rep` ties the four linked lists, the `list` fields, the counters and the hash map to four
lists of nodes. Every function keeps it, and what it does to the lists of pages is what the
operation of the same purpose on lists does; an access is defined because of the bounds on
the sizes.
-/

namespace Tempograph.ArcRefine

open Common ChainMap LinkedList Runs Arc ArcLists

variable {M : Malloc} {c : ℕ} {s : State} {nd : ListId → List ℕ} {page : Page} {n : ℕ}
  {l g i : ListId}

/-- The four chains hold the nodes of `nd`, no node twice. -/
structure Chains (s : State) (nd : ListId → List ℕ) : Prop where
  list : ∀ i, IsList s.links (s.lists i).ends (nd i)
  size : ∀ i, (s.lists i).size = (nd i).length
  disjoint : ∀ i j, ∀ x ∈ nd i, x ∈ nd j → i = j

lemma Chains.remove (h : Chains s nd) (hn : n ∈ nd l) :
    Chains (dlRemove s l n) (Function.update nd l ((nd l).erase n)) := by
  have hpos := List.length_pos_of_mem hn
  have hlen := List.length_erase_of_mem hn
  refine ⟨fun i => ?_, fun i => ?_, fun i j x hi hj => ?_⟩
  · by_cases e : i = l
    · subst e
      simpa [dlRemove] using (h.list i).unlink hn
    · simp only [dlRemove, Function.update_of_ne e]
      exact (h.list i).frame fun x hx =>
        (h.list l).unlink_links hn fun hl => e (h.disjoint i l x hx hl)
  · by_cases e : i = l
    · subst e
      simp only [dlRemove, Function.update_self, h.size i, hlen]
      omega
    · simpa [dlRemove, e] using h.size i
  · have hsub : ∀ k, Function.update nd l ((nd l).erase n) k ⊆ nd k := by
      intro k
      by_cases e : k = l
      · subst e; simpa using List.erase_subset
      · simp [e]
    exact h.disjoint i j x (hsub i hi) (hsub j hj)

lemma Chains.pushFront (h : Chains s nd) (hn : ∀ i, n ∉ nd i) :
    Chains (dlPushFront s l n) (Function.update nd l (n :: nd l)) := by
  refine ⟨fun i => ?_, fun i => ?_, fun i j x hi hj => ?_⟩
  · by_cases e : i = l
    · subst e
      simpa [dlPushFront] using (h.list i).pushFront (hn i)
    · simp only [dlPushFront, Function.update_of_ne e]
      exact (h.list i).frame fun x hx => (h.list l).pushFront_links
        (fun hl => e (h.disjoint i l x hx hl)) fun hxn => hn i (hxn ▸ hx)
  · by_cases e : i = l
    · subst e
      simp [dlPushFront, h.size i]
    · simpa [dlPushFront, e] using h.size i
  · rcases mem_update_cons.mp hi with ⟨rfl, e⟩ | h1
    · rcases mem_update_cons.mp hj with ⟨-, e'⟩ | h2
      · exact e.trans e'.symm
      · exact absurd h2 (hn j)
    · rcases mem_update_cons.mp hj with ⟨rfl, -⟩ | h2
      · exact absurd h1 (hn i)
      · exact h.disjoint i j x h1 h2

/-- The chains, the `list` fields, the hash map and the capacity agree. -/
structure Rep (c : ℕ) (s : State) (nd : ListId → List ℕ) : Prop extends Chains s nd where
  tag : ∀ i, ∀ x ∈ nd i, s.list x = i
  get : ∀ q x, ahmGet s q = some x ↔ (∃ i, x ∈ nd i) ∧ s.page x = q
  live : ∀ i, ∀ x ∈ nd i, x ∈ s.live
  c : s.c = c

lemma rep_init (s₀ : State) (c : ℕ) : Rep c (arcInit s₀ c) fun _ => [] where
  list _ := isList_nil _
  size _ := rfl
  disjoint := by simp
  tag := by simp
  get := by simp [ahmGet, arcInit, arcReset]
  live := by simp
  c := rfl

lemma Rep.page_inj (h : Rep c s nd) {i j : ListId} {a b : ℕ} (ha : a ∈ nd i) (hb : b ∈ nd j)
    (e : s.page a = s.page b) : a = b := by
  have h1 := (h.get (s.page a) a).mpr ⟨⟨i, ha⟩, rfl⟩
  have h2 := (h.get (s.page a) b).mpr ⟨⟨j, hb⟩, e.symm⟩
  rw [h1] at h2
  exact Option.some.inj h2

/-- The lists of pages. -/
def abs (s : State) (nd : ListId → List ℕ) : Cache Page where
  t1 := (nd .t1).map s.page
  t2 := (nd .t2).map s.page
  b1 := (nd .b1).map s.page
  b2 := (nd .b2).map s.page
  p := s.p

/-! ### Moving a node -/

/-- Take `n` out of `l`, tag it with `g` and put it at the front of `g`. -/
def move (s : State) (l g : ListId) (n : ℕ) : State :=
  dlPushFront (setList (dlRemove s l n) n g) g n

/-- The nodes after the move. -/
def moved (nd : ListId → List ℕ) (l g : ListId) (n : ℕ) : ListId → List ℕ :=
  let nd' := Function.update nd l ((nd l).erase n)
  Function.update nd' g (n :: nd' g)

lemma mem_moved (hn : n ∈ nd l) (hnd : (nd l).Nodup) (hd : ∀ i, n ∈ nd i → i = l) {x : ℕ} :
    x ∈ moved nd l g n i ↔ if x = n then i = g else x ∈ nd i := by
  have herase : x ∈ (nd l).erase n ↔ x ≠ n ∧ x ∈ nd l := hnd.mem_erase_iff
  have hother : i ≠ l → n ∉ nd i := fun e hm => e (hd i hm)
  by_cases e1 : i = g <;> by_cases e2 : i = l <;> by_cases e3 : x = n
  all_goals simp [moved, Function.update_apply, *]
  all_goals grind

@[simp] lemma moved_of_ne (h1 : i ≠ l) (h2 : i ≠ g) : moved nd l g n i = nd i := by
  simp [moved, h1, h2]

lemma moved_src (h : l ≠ g) : moved nd l g n l = (nd l).erase n := by
  simp [moved, h]

lemma moved_dst (h : l ≠ g) : moved nd l g n g = n :: nd g := by
  simp [moved, h.symm]

lemma moved_same : moved nd l l n l = n :: (nd l).erase n := by
  simp [moved]

lemma Rep.move (h : Rep c s nd) (hn : n ∈ nd l) (g : ListId) :
    Rep c (move s l g n) (moved nd l g n) := by
  have hnd := (h.list l).nodup
  have hmem {i : ListId} {x : ℕ} := mem_moved (g := g) (i := i) (x := x) hn hnd
    fun i hi => h.disjoint i l n hi hn
  have hout : ∀ i, n ∉ Function.update nd l ((nd l).erase n) i := by
    intro i hi
    by_cases e : i = l
    · subst e
      rw [Function.update_self] at hi
      exact hnd.not_mem_erase hi
    · rw [Function.update_of_ne e] at hi
      exact e (h.disjoint i l n hi hn)
  have hrem := h.toChains.remove hn
  have hset : Chains (setList (dlRemove s l n) n g) _ := ⟨hrem.list, hrem.size, hrem.disjoint⟩
  refine ⟨hset.pushFront hout, fun i x hx => ?_, fun q x => ?_, fun i x hx => ?_, h.c⟩
  · rw [hmem] at hx
    split_ifs at hx with e
    · simp [ArcRefine.move, dlPushFront, setList, e, hx]
    · simpa [ArcRefine.move, dlPushFront, setList, dlRemove, e] using h.tag i x hx
  · have hunion : (∃ i, x ∈ moved nd l g n i) ↔ ∃ i, x ∈ nd i := by
      by_cases e : x = n
      · subst e
        exact iff_of_true ⟨g, by rw [hmem]; simp⟩ ⟨l, hn⟩
      · simp [hmem, e]
    rw [hunion]
    exact h.get q x
  · rw [hmem] at hx
    split_ifs at hx with e
    · exact e ▸ h.live l n hn
    · exact h.live i x hx

/-- Putting a node of the lists into the hash map again changes nothing. -/
lemma Rep.put (h : Rep c s nd) (hn : n ∈ nd i) : Rep c (ahmPut s (s.page n) n) nd := by
  refine ⟨⟨h.list, h.size, h.disjoint⟩, h.tag, fun q x => ?_, h.live, h.c⟩
  have hget : s.ahmap.get (s.page n) = some n := (h.get _ n).mpr ⟨⟨i, hn⟩, rfl⟩
  rw [ahmGet, ahmPut, Table.get_put_same hget]
  exact h.get q x

lemma tail_spec (h : Rep c s nd) (hne : nd l ≠ []) :
    ∃ r v, nd l = r ++ [v] ∧ (s.lists l).ends.tail = some v ∧ (nd l).erase v = r := by
  obtain ⟨r, v, hl⟩ := List.eq_nil_or_concat (nd l) |>.resolve_left hne
  rw [List.concat_eq_append] at hl
  have hnd := (h.list l).nodup
  have htail := (h.list l).tail
  rw [hl] at hnd htail
  exact ⟨r, v, hl, by simp [htail], by rw [hl]; simpa using split_erase (b := []) hnd⟩

/-- The tail of a list with a node moves to the ghost list. -/
lemma demote_spec (h : Rep c s nd) (hlg : l ≠ g) (hne : nd l ≠ []) :
    ∃ s' r v, demote s l g = some s' ∧ nd l = r ++ [v] ∧ moved nd l g v l = r ∧
      Rep c s' (moved nd l g v) ∧ s'.page = s.page ∧ s'.p = s.p := by
  obtain ⟨r, v, hl, htail, herase⟩ := tail_spec h hne
  have hv : v ∈ nd l := by simp [hl]
  have hr := (h.move hv g).put (n := v) (i := g) (by rw [moved_dst hlg]; simp)
  exact ⟨_, r, v, by simp only [demote, dlPopTail, htail]; rfl, hl, by rw [moved_src hlg, herase],
    hr, rfl, rfl⟩

lemma abs_fromT1 (h : Rep c s nd) (in_b2 : Bool) :
    (abs s nd).fromT1 in_b2 ↔ (s.lists .t1).size > 0 ∧
      ((s.lists .t1).size > s.p ∨ in_b2 = true ∧ (s.lists .t1).size = s.p) := by
  simp [Cache.fromT1, abs, h.size]

/-- Eviction is defined, and does what it does on lists. -/
lemma replace_spec (h : Rep c s nd) {in_b2 : Bool} (hcan : CanReplace c (abs s nd) in_b2) :
    ∃ s' nd', arcReplace s in_b2 = some s' ∧ Rep c s' nd' ∧
      abs s' nd' = (abs s nd).replace in_b2 ∧ s'.page = s.page ∧
      nd .b1 ⊆ nd' .b1 ∧ nd .b2 ⊆ nd' .b2 := by
  unfold arcReplace Cache.replace
  simp only [← abs_fromT1 h]
  split_ifs with hf
  · have hne : nd .t1 ≠ [] := fun e => CanReplace.t1_ne_nil hf (by simp [abs, e])
    obtain ⟨s', r, v, hs, hl, hm, hr, hpage, hp⟩ := demote_spec h (g := .b1) (by decide) hne
    refine ⟨s', _, hs, hr, ?_, hpage, ?_, ?_⟩
    · simp [abs, hpage, hp, hm, moved_dst, hl]
    · simp [moved_dst]
    · simp
  · have hne : nd .t2 ≠ [] := fun e => hcan.t2_ne_nil hf (by simp [abs, e])
    obtain ⟨s', r, v, hs, hl, hm, hr, hpage, hp⟩ := demote_spec h (g := .b2) (by decide) hne
    refine ⟨s', _, hs, hr, ?_, hpage, ?_, ?_⟩
    · simp [abs, hpage, hp, hm, moved_dst, hl]
    · simp
    · simp [moved_dst]

/-! ### Making room and loading -/

/-- The tail of a list with a node leaves the directory. -/
lemma forget_spec (h : Rep c s nd) (hne : nd l ≠ []) :
    ∃ s' r v, forget s l = some s' ∧ nd l = r ++ [v] ∧ Rep c s' (Function.update nd l r) ∧
      s'.page = s.page ∧ s'.p = s.p := by
  obtain ⟨r, v, hl, htail, herase⟩ := tail_spec h hne
  have hv : v ∈ nd l := by simp [hl]
  have hvr : v ∉ r := fun hm => by
    have hnd := (h.list l).nodup
    rw [hl] at hnd
    have := List.disjoint_of_nodup_append hnd hm
    simp at this
  have hrem := h.toChains.remove hv
  rw [herase] at hrem
  have hmem : ∀ i x, x ∈ Function.update nd l r i ↔ x ≠ v ∧ x ∈ nd i := by
    intro i x
    by_cases e : i = l
    · subst e
      rw [Function.update_self, hl]
      constructor
      · intro hx
        exact ⟨fun e => hvr (e ▸ hx), by simp [hx]⟩
      · rintro ⟨hxv, hx⟩
        simpa [hxv] using hx
    · rw [Function.update_of_ne e]
      exact ⟨fun hx => ⟨fun exv => e (h.disjoint i l v (exv ▸ hx) hv), hx⟩, And.right⟩
  refine ⟨{ ahmDel (dlRemove s l v) (s.page v) with live := s.live.erase v }, r, v,
    by simp only [forget, dlPopTail, htail]; rfl, hl,
    ⟨⟨hrem.list, hrem.size, hrem.disjoint⟩, fun i x hx => ?_, fun q x => ?_, fun i x hx => ?_,
      h.c⟩, rfl, rfl⟩
  · exact h.tag i x ((hmem i x).mp hx).2
  · have hq := h.get q x
    simp only [ahmGet, ahmDel, dlRemove, Table.get_del, hmem] at hq ⊢
    split_ifs with e
    · simp only [false_iff]
      rintro ⟨⟨i, hxv, hx⟩, rfl⟩
      exact hxv (h.page_inj hx hv e)
    · rw [hq]
      constructor
      · rintro ⟨⟨i, hx⟩, rfl⟩
        exact ⟨⟨i, fun exv => e (exv ▸ rfl), hx⟩, rfl⟩
      · rintro ⟨⟨i, -, hx⟩, rfl⟩
        exact ⟨⟨i, hx⟩, rfl⟩
  · obtain ⟨hxv, hx⟩ := (hmem i x).mp hx
    exact (List.mem_erase_of_ne hxv).mpr (h.live i x hx)

lemma abs_size (h : Rep c s nd) :
    (s.lists .t1).size = (abs s nd).t1.length ∧ (s.lists .t2).size = (abs s nd).t2.length ∧
      (s.lists .b1).size = (abs s nd).b1.length ∧ (s.lists .b2).size = (abs s nd).b2.length := by
  simp [abs, h.size]

lemma abs_b1 {s' : State} {r : List ℕ} {v : ℕ} (hl : nd .b1 = r ++ [v])
    (hpage : s'.page = s.page) (hp : s'.p = s.p) :
    abs s' (Function.update nd .b1 r) = { abs s nd with b1 := (abs s nd).b1.dropLast } := by
  simp [abs, hpage, hp, hl]

lemma abs_b2 {s' : State} {r : List ℕ} {v : ℕ} (hl : nd .b2 = r ++ [v])
    (hpage : s'.page = s.page) (hp : s'.p = s.p) :
    abs s' (Function.update nd .b2 r) = { abs s nd with b2 := (abs s nd).b2.dropLast } := by
  simp [abs, hpage, hp, hl]

/-- The tests of the counters when room is made. -/
lemma room_tests (h : Rep c s nd) :
    ((s.lists .t1).size + (s.lists .b1).size = s.c ↔
      (abs s nd).t1.length + (abs s nd).b1.length = c) ∧
    ((s.lists .t1).size < s.c ↔ (abs s nd).t1.length < c) ∧
    ((s.lists .t1).size + (s.lists .b1).size < s.c ∧
      (s.lists .t1).size + (s.lists .b1).size + (s.lists .t2).size + (s.lists .b2).size ≥ s.c ↔
      (abs s nd).t1.length + (abs s nd).b1.length < c ∧ c ≤ (abs s nd).dir.length) ∧
    ((s.lists .t1).size + (s.lists .b1).size + (s.lists .t2).size + (s.lists .b2).size ≥
        2 * s.c ∧ (s.lists .b2).size > 0 ↔
      2 * c ≤ (abs s nd).dir.length ∧ 0 < (abs s nd).b2.length) := by
  obtain ⟨z1, z2, z3, z4⟩ := abs_size h
  have hdir := dir_length (abs s nd)
  have hcap := h.c
  refine ⟨?_, ?_, ?_, ?_⟩ <;> omega

/-- Making room is defined, and does what it does on lists. -/
lemma makeRoom_spec (hc : 1 ≤ c) (h : Rep c s nd) (hs : Sizes c (abs s nd)) :
    ∃ s' nd', makeRoom s = some s' ∧ Rep c s' nd' ∧ abs s' nd' = (abs s nd).makeRoom c ∧
      s'.page = s.page := by
  obtain ⟨e1, e2, e3, e4⟩ := room_tests h
  unfold makeRoom Cache.makeRoom
  simp only [e1, e2, e3, e4]
  split_ifs with h1 h2 h3 h4
  · obtain ⟨hb, hcan⟩ := hs.forget_b1 hc h1 h2
    obtain ⟨s₁, r, v, hf, hl, hr, hpage, hp⟩ :=
      forget_spec h (l := .b1) fun e => hb (by simp [abs, e])
    rw [← abs_b1 hl hpage hp] at hcan ⊢
    obtain ⟨s', nd', he, hr', ha', hpage', -⟩ := replace_spec hr hcan
    exact ⟨s', nd', by rw [hf]; exact he, hr', ha', hpage'.trans hpage⟩
  · obtain ⟨s', r, v, hf, hl, hr, hpage, hp⟩ := forget_spec h (l := .t1) fun e => by
      simp only [abs, e, List.map_nil, List.length_nil] at h1 h2
      omega
    exact ⟨s', _, hf, hr, by simp [abs, hpage, hp, hl], hpage⟩
  · obtain ⟨hb, hcan⟩ := hs.forget_b2 hc h3.1 h4.2
    obtain ⟨s₁, r, v, hf, hl, hr, hpage, hp⟩ :=
      forget_spec h (l := .b2) fun e => hb (by simp [abs, e])
    rw [← abs_b2 hl hpage hp] at hcan ⊢
    obtain ⟨s', nd', he, hr', ha', hpage', -⟩ := replace_spec hr hcan
    exact ⟨s', nd', by rw [hf]; exact he, hr', ha', hpage'.trans hpage⟩
  · obtain ⟨s', nd', he, hr, ha, hpage, -⟩ := replace_spec h (hs.canReplace hc h3.1 h3.2)
    exact ⟨s', nd', he, hr, ha, hpage⟩
  · exact ⟨s, nd, rfl, h, rfl, rfl⟩

/-- A page that no node holds is loaded into a new node of `T1`. -/
lemma load_spec (M : Malloc) (page : Page) (h : Rep c s nd)
    (hp : ∀ i, ∀ x ∈ nd i, s.page x ≠ page) :
    ∃ nd', Rep c (load M s page) nd' ∧
      abs (load M s page) nd' = { abs s nd with t1 := page :: (abs s nd).t1 } := by
  have hn : ∀ i, M.pick s.live ∉ nd i := fun i hm => M.fresh _ (h.live i _ hm)
  have hne : ∀ i, ∀ x ∈ nd i, x ≠ M.pick s.live := fun i x hx e => hn i (e ▸ hx)
  have hmem : ∀ i x, x ∈ Function.update nd .t1 (M.pick s.live :: nd .t1) i ↔
      x = M.pick s.live ∧ i = .t1 ∨ x ∈ nd i := fun i x => mem_update_cons
  have hmap : ∀ i, (nd i).map (Function.update s.page (M.pick s.live) page) =
      (nd i).map s.page := fun i =>
    List.map_congr_left fun x hx => Function.update_of_ne (hne i x hx) _ _
  have hfresh : Chains { s with
      live := M.pick s.live :: s.live
      page := Function.update s.page (M.pick s.live) page
      list := Function.update s.list (M.pick s.live) .t1
      links := ⟨Function.update s.links.prev (M.pick s.live) none,
        Function.update s.links.next (M.pick s.live) none⟩ } nd :=
    ⟨fun i => (h.list i).frame fun x hx => by simp [hne i x hx], h.size, h.disjoint⟩
  have hpush := hfresh.pushFront (l := .t1) hn
  refine ⟨_, ⟨⟨hpush.list, hpush.size, hpush.disjoint⟩, fun i x hx => ?_, fun q x => ?_,
    fun i x hx => ?_, h.c⟩, ?_⟩
  · rcases (hmem i x).mp hx with ⟨rfl, rfl⟩ | hx
    · simp [load, ahmPut, dlPushFront]
    · simpa [load, ahmPut, dlPushFront, hne i x hx] using h.tag i x hx
  · have hq := h.get q x
    simp only [load, ahmPut, dlPushFront, ahmGet, Table.get_put, hmem] at hq ⊢
    have hu : (∃ i, x = M.pick s.live ∧ i = .t1 ∨ x ∈ nd i) ↔
        x = M.pick s.live ∨ ∃ i, x ∈ nd i := by
      simp [exists_or]
    rw [hu]
    by_cases hx : x = M.pick s.live
    · by_cases e : q = page
      · simp [hx, e]
      · have : ¬∃ i, x ∈ nd i := by
          rintro ⟨i, hi⟩
          exact hne i x hi hx
        simp only [hx, e, if_false, Function.update_self, Ne.symm e, and_false] at hq ⊢
        simpa [hn] using hq
    · rw [Function.update_of_ne hx]
      by_cases e : q = page
      · have : ¬((∃ i, x ∈ nd i) ∧ s.page x = q) := by
          rintro ⟨⟨i, hi⟩, rfl⟩
          exact hp i x hi e
        simp [e, Ne.symm hx, hx]
        simpa [e] using this
      · simp [e, hx, hq]
  · rcases (hmem i x).mp hx with ⟨rfl, rfl⟩ | hx
    · simp [load, ahmPut, dlPushFront]
    · simp [load, ahmPut, dlPushFront, h.live i x hx]
  · simp [abs, load, ahmPut, dlPushFront, hmap]

/-! ### Accesses -/

lemma delta_eq {own other : ℕ} (h : 0 < own) : delta own other = some (step own other) := by
  unfold delta step
  have h1 : ((own : ℤ) ≥ other) ↔ other ≤ own := by omega
  have h2 : (own : ℤ) ≠ 0 := by omega
  simp only [h1, h2, if_false]
  split_ifs with h3
  · rfl
  · simp

lemma mem_abs_dir : page ∈ (abs s nd).dir ↔ ∃ i, ∃ x ∈ nd i, s.page x = page := by
  simp only [mem_dir, abs, List.mem_map]
  constructor
  · rintro (⟨x, hx, e⟩ | ⟨x, hx, e⟩ | ⟨x, hx, e⟩ | ⟨x, hx, e⟩)
    exacts [⟨_, x, hx, e⟩, ⟨_, x, hx, e⟩, ⟨_, x, hx, e⟩, ⟨_, x, hx, e⟩]
  · rintro ⟨_ | _ | _ | _, x, hx, e⟩
    · exact Or.inl ⟨x, hx, e⟩
    · exact Or.inr (Or.inl ⟨x, hx, e⟩)
    · exact Or.inr (Or.inr (Or.inl ⟨x, hx, e⟩))
    · exact Or.inr (Or.inr (Or.inr ⟨x, hx, e⟩))

lemma mem_map_page (h : Rep c s nd) (hn : n ∈ nd i) (l : ListId) :
    s.page n ∈ (nd l).map s.page ↔ l = i := by
  constructor
  · intro hm
    obtain ⟨x, hx, e⟩ := List.mem_map.mp hm
    exact h.disjoint l i n (h.page_inj hx hn e ▸ hx) hn
  · rintro rfl
    exact List.mem_map_of_mem hn

lemma map_erase (h : Rep c s nd) (hn : n ∈ nd i) (l : ListId) :
    ((nd l).erase n).map s.page = ((nd l).map s.page).erase (s.page n) :=
  Recency.map_erase_of_injOn fun _ hy e => h.page_inj hy hn e

lemma Rep.setP (h : Rep c s nd) (p : ℤ) : Rep c (setP s p) nd :=
  ⟨⟨h.list, h.size, h.disjoint⟩, h.tag, h.get, h.live, h.c⟩

@[simp] lemma promote_page : (promote s l n).page = s.page := rfl

@[simp] lemma promote_p : (promote s l n).p = s.p := rfl

lemma access_new (M : Malloc) (hc : 1 ≤ c) (h : Rep c s nd) (hs : Sizes c (abs s nd))
    (hg : ahmGet s page = none) :
    page ∉ (abs s nd).dir ∧ ∃ s' nd', arcAccess M s page = some (s', .fault) ∧ Rep c s' nd' ∧
      abs s' nd' = ((abs s nd).access c page).1 := by
  have hdir : page ∉ (abs s nd).dir := fun hm => by
    obtain ⟨i, x, hx, e⟩ := mem_abs_dir.mp hm
    rw [(h.get page x).mpr ⟨⟨i, hx⟩, e⟩] at hg
    cases hg
  obtain ⟨s₁, nd₁, he, hr, ha, hpage⟩ := makeRoom_spec hc h hs
  obtain ⟨hsub1, hsub2⟩ := (hs.room hc).sublist
  obtain ⟨nd', hr', ha'⟩ := load_spec M page hr fun i x hx e => by
    have hm : page ∈ (abs s₁ nd₁).dir := mem_abs_dir.mpr ⟨i, x, hx, e⟩
    rw [ha] at hm
    exact hdir ((hsub1.append hsub2).subset hm)
  refine ⟨hdir, _, nd', by simp only [arcAccess, hg, he], hr', ?_⟩
  rw [ha', ha, access_of_not_mem hdir]

/-- The target after a hit in `B1`, and after a hit in `B2`. -/
lemma raised (h : Rep c s nd) (hx : page ∈ (abs s nd).b1) :
    ∃ d, delta (s.lists .b1).size (s.lists .b2).size = some d ∧
      abs (setP s (if s.p + d < s.c then s.p + d else s.c)) nd = (abs s nd).raise c := by
  obtain ⟨-, -, z3, z4⟩ := abs_size h
  refine ⟨_, by rw [z3, z4]; exact delta_eq (List.length_pos_of_mem hx), ?_⟩
  simp only [abs, setP, Cache.raise, h.c, Cache.mk.injEq, true_and]
  omega

lemma lowered (h : Rep c s nd) (hx : page ∈ (abs s nd).b2) :
    ∃ d, delta (s.lists .b2).size (s.lists .b1).size = some d ∧
      abs (setP s (if s.p - d > 0 then s.p - d else 0)) nd = (abs s nd).lower := by
  obtain ⟨-, -, z3, z4⟩ := abs_size h
  refine ⟨_, by rw [z3, z4]; exact delta_eq (List.length_pos_of_mem hx), ?_⟩
  simp only [abs, setP, Cache.lower, Cache.mk.injEq, true_and]
  omega

/-- **One access.** It is defined, and does to the lists of pages what an access to lists
does. -/
theorem access_spec (M : Malloc) (hc : 1 ≤ c) (h : Rep c s nd) (hs : Sizes c (abs s nd))
    (page : Page) :
    ∃ s' nd', arcAccess M s page =
        some (s', if ((abs s nd).access c page).2 then .hit else .fault) ∧
      Rep c s' nd' ∧ abs s' nd' = ((abs s nd).access c page).1 := by
  cases hg : ahmGet s page with
  | none =>
    obtain ⟨hdir, s', nd', he, hr, ha⟩ := access_new M hc h hs hg
    simp only [mem_dir, not_or] at hdir
    exact ⟨s', nd', by simp [he, Cache.access, hdir], hr, ha⟩
  | some n =>
    obtain ⟨⟨i, hn⟩, rfl⟩ := (h.get page n).mp hg
    have htag := h.tag i n hn
    have hmem := mem_map_page h hn
    have herase := map_erase h hn i
    cases i with
    | t1 =>
      refine ⟨promote s .t1 n, _, ?_, h.move hn .t2, ?_⟩
      · simp [arcAccess, hg, htag, Cache.access, abs, hmem]
      · simp [Cache.access, abs, hmem, moved_src, moved_dst, herase]
    | t2 =>
      refine ⟨promote s .t2 n, _, ?_, h.move hn .t2, ?_⟩
      · simp [arcAccess, hg, htag, Cache.access, abs, hmem]
      · simp [Cache.access, abs, hmem, moved_same, herase]
    | b1 =>
      have h1 : s.page n ∉ (abs s nd).t1 := fun hm => by
        cases (hmem _).mp hm
      have h2 : s.page n ∉ (abs s nd).t2 := fun hm => by
        cases (hmem _).mp hm
      have hx : s.page n ∈ (abs s nd).b1 := List.mem_map_of_mem hn
      obtain ⟨d, hd, ha⟩ := raised h hx
      obtain ⟨hcan, -⟩ := hs.raise hc hx
      rw [← ha] at hcan
      obtain ⟨s₁, nd₁, he, hr, ha₁, hpage, hsub, -⟩ := replace_spec (h.setP _) hcan
      have hacc : (abs s nd).access c (s.page n) = ({ abs s₁ nd₁ with
          b1 := (abs s₁ nd₁).b1.erase (s.page n), t2 := s.page n :: (abs s₁ nd₁).t2 }, false) := by
        rw [ha₁, ha]
        simp only [Cache.access, if_neg h1, if_neg h2, if_pos hx]
      have hpage : s₁.page n = s.page n := congrFun hpage n
      have herase := map_erase hr (hsub hn) .b1
      refine ⟨promote s₁ .b1 n, _, ?_, hr.move (hsub hn) .t2, ?_⟩
      · simp only [arcAccess, hg, htag, hd, he, hacc]; rfl
      · rw [hacc]; simp [abs, moved_src, moved_dst, herase, hpage]
    | b2 =>
      have h1 : s.page n ∉ (abs s nd).t1 := fun hm => by
        cases (hmem _).mp hm
      have h2 : s.page n ∉ (abs s nd).t2 := fun hm => by
        cases (hmem _).mp hm
      have h3 : s.page n ∉ (abs s nd).b1 := fun hm => by
        cases (hmem _).mp hm
      have hx : s.page n ∈ (abs s nd).b2 := List.mem_map_of_mem hn
      obtain ⟨d, hd, ha⟩ := lowered h hx
      obtain ⟨hcan, -⟩ := hs.lower hc hx
      rw [← ha] at hcan
      obtain ⟨s₁, nd₁, he, hr, ha₁, hpage, -, hsub⟩ := replace_spec (h.setP _) hcan
      have hacc : (abs s nd).access c (s.page n) = ({ abs s₁ nd₁ with
          b2 := (abs s₁ nd₁).b2.erase (s.page n), t2 := s.page n :: (abs s₁ nd₁).t2 }, false) := by
        rw [ha₁, ha]
        simp only [Cache.access, if_neg h1, if_neg h2, if_neg h3, if_pos hx]
      have hpage : s₁.page n = s.page n := congrFun hpage n
      have herase := map_erase hr (hsub hn) .b2
      refine ⟨promote s₁ .b2 n, _, ?_, hr.move (hsub hn) .t2, ?_⟩
      · simp only [arcAccess, hg, htag, hd, he, hacc]; rfl
      · rw [hacc]; simp [abs, moved_src, moved_dst, herase, hpage]

end Tempograph.ArcRefine
