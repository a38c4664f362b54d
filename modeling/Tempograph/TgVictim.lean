import Tempograph.ArgMin
import Tempograph.TgFrames

/-!
The victim of `tempograph.c`.

An empty frame is taken if there is one. Otherwise the search goes over the frames of the
tail of the recency list, which are those whose indices were accessed longest ago, and takes
the one with the least score, and of several the one accessed last. The score of a frame adds
up the stored weights of the edges to it from the last accesses.
-/

namespace Tempograph.TgVictim

open Common Tempograph.Graph LinkedList SlidingWindow Recency Runs TempoGraph TgSafe TgFrames

variable {n f v W : ℕ} {s : State} {l h : List ℕ} {page : Page}

/-! ### The search -/

/-- What the search compares: a low score first, then a late time. -/
def key (s : State) (f : ℕ) : ℕ ×ₗ ℤᵒᵈ :=
  toLex (scorePage s (held s f), OrderDual.toDual (s.mruTime f : ℤ))

/-- A candidate, with the score and the time as one key. -/
def pair (b : Best) : (ℕ ×ₗ ℤᵒᵈ) × Option ℕ :=
  (toLex (b.score, OrderDual.toDual b.time), b.frame)

lemma pair_consider (s : State) (b : Best) (f : ℕ) :
    ArgMin.better (key s) (pair b) f = pair (consider s b f) := by
  unfold ArgMin.better consider pair key
  simp only [Prod.Lex.toLex_lt_toLex, OrderDual.toDual_lt_toDual, gt_iff_lt, held]
  split_ifs <;> rfl

/-- The search of `evictionVictim`. -/
lemma best_eq (s : State) :
    pair ((sample s).foldl (consider s) ⟨none, longMax, -1⟩) =
      ArgMin.search (key s) (toLex (longMax, OrderDual.toDual (-1))) (sample s) := by
  rw [← List.foldl_hom pair (pair_consider s)]
  rfl

/-- With scores in range the search does not fall back on the tail. -/
lemma evictionVictim_least (hne : sample s ≠ []) (hsc : ∀ f ∈ sample s,
    scorePage s (held s f) < longMax) :
    ∃ v ∈ sample s, evictionVictim s = some v ∧ ∀ f ∈ sample s, key s v ≤ key s f := by
  obtain ⟨f, hf⟩ := List.exists_mem_of_ne_nil _ hne
  have hlt : key s f < toLex (longMax, OrderDual.toDual (-1)) :=
    Prod.Lex.toLex_lt_toLex.mpr (Or.inl (hsc f hf))
  obtain ⟨v, hv, he, hle⟩ := ArgMin.search_spec ⟨f, hf, hlt⟩
  refine ⟨v, hv, ?_, hle⟩
  have hframe : ((sample s).foldl (consider s) ⟨none, longMax, -1⟩).frame = some v := by
    rw [← best_eq] at he
    exact (Prod.mk.inj he).2
  simp only [evictionVictim, hframe, Option.isSome_some, if_true]

/-! ### The state a victim is chosen in -/

/-- The list, the times, the window and the graph after the history `h` of page indices, as
far as the search reads them. -/
structure Ready (n W : ℕ) (h : List ℕ) (s : State) (l : List ℕ) : Prop where
  list : IsList s.links s.ends l
  cap : s.cap = n
  size : s.size = l.length
  occupied : ∀ f, f ∈ l ↔ f < n ∧ s.frames f ≠ -1
  time : ∀ f ∈ l, s.mruTime f = lastAccess h (held s f)
  order : (l.map (held s)).Sublist (recency h)
  window : Holds W h s.win
  light : Light s.graph

lemma ready_of_rep (hr : Rep n h s l) (hw : Holds W h s.win) (hg : Light s.graph) :
    Ready n W h s l :=
  ⟨hr.list, hr.cap, hr.size, hr.occupied, hr.time, hr.order, hw, hg⟩

lemma light_addEdges {g : Adj} (hg : Light g) (items : List ℕ) (idx : ℕ) :
    Light (addEdges g items idx) :=
  addEdges_keeps hg fun _ u _ _ hg => hg.adjInc u idx

lemma light_prepare (hg : Light s.graph) (idx : ℕ) : Light (prepare s idx).graph :=
  light_addEdges (decayed_keeps hg Light.applyDecay) _ _

lemma Ready.prepare (hr : Ready n W h s l) (idx : ℕ) : Ready n W h (prepare s idx) l :=
  ⟨hr.list, hr.cap, hr.size, hr.occupied, hr.time, hr.order, hr.window,
    light_prepare hr.light idx⟩

lemma windowOf_le (W : ℤ) : windowOf W ≤ maxWindow := by
  unfold windowOf
  split_ifs with hW
  · omega
  · decide

/-- **No score reaches the start of the search.** -/
lemma Ready.score_lt (hr : Ready n W h s l) (hW : W ≤ maxWindow) (idx : ℕ) :
    scorePage s idx < longMax := by
  have hitems := hr.window.items
  have hlen : s.win.items.length ≤ maxWindow := by
    rw [hitems]
    exact (List.length_take_le _ _).trans hW
  have hle : ∀ x ∈ s.win.items.map fun u => adjWeight s.graph u idx, x ≤ 65535 := by
    intro x hx
    obtain ⟨u, -, rfl⟩ := List.mem_map.mp hx
    exact hr.light.adjWeight u idx
  calc scorePage s idx ≤ (s.win.items.map fun u => adjWeight s.graph u idx).length • 65535 :=
        List.sum_le_card_nsmul _ _ hle
    _ ≤ maxWindow * 65535 := by
        rw [List.length_map, smul_eq_mul]
        exact Nat.mul_le_mul_right _ hlen
    _ < longMax := by decide

/-! ### The choice -/

/-- The `k` frames below `n` that were used longest ago. -/
structure Oldest (n k : ℕ) (last : ℕ → ℕ) (S : Finset ℕ) : Prop where
  lt : ∀ f ∈ S, f < n
  card : S.card = k
  older : ∀ f ∈ S, ∀ g < n, g ∉ S → last f < last g

/-- There are no two such sets. -/
lemma Oldest.unique {k : ℕ} {last : ℕ → ℕ} {S T : Finset ℕ} (hS : Oldest n k last S)
    (hT : Oldest n k last T) : S = T := by
  have hcard : S.card = T.card := hS.card.trans hT.card.symm
  by_contra hne
  obtain ⟨f, hf⟩ : (S \ T).Nonempty := by
    rw [Finset.sdiff_nonempty]
    exact fun hsub => hne (Finset.eq_of_subset_of_card_le hsub hcard.ge)
  obtain ⟨g, hg⟩ : (T \ S).Nonempty := by
    rw [Finset.sdiff_nonempty]
    exact fun hsub => hne (Finset.eq_of_subset_of_card_le hsub hcard.le).symm
  rw [Finset.mem_sdiff] at hf hg
  have h1 := hS.older f hf.1 g (hT.lt g hg.1) hg.2
  have h2 := hT.older g hg.1 f (hS.lt f hf.1) hf.2
  omega

/-- The weights of the edges from the last `W` accesses to the index in the frame. -/
def score (W : ℕ) (h : List ℕ) (s : State) (f : ℕ) : ℕ :=
  ((h.reverse.take W).map fun u => adjWeight s.graph u (held s f)).sum

/-- The number of the last access to the index in the frame. -/
def lastUse (h : List ℕ) (s : State) (f : ℕ) : ℕ := lastAccess h (held s f)

/-- The lowest empty frame; or, with no frame empty, of the frames used longest ago the one
with the least score, the most recently used of several. When a frame was used last is told
by `last`. -/
structure Chooses (n W : ℕ) (h : List ℕ) (s : State) (last : ℕ → ℕ) : Prop where
  free : (∃ f < n, s.frames f = -1) →
    ∃ v < n, chooseVictim s = some v ∧ s.frames v = -1 ∧ ∀ f < v, s.frames f ≠ -1
  full : (∀ f < n, s.frames f ≠ -1) →
    ∃ S, Oldest n (min n sampleSize) last S ∧
      ∃ v ∈ S, chooseVictim s = some v ∧ (∀ f ∈ S, score W h s v ≤ score W h s f) ∧
        ∀ f ∈ S, f ≠ v → score W h s f = score W h s v → last f < last v

lemma Oldest.congr {k : ℕ} {last last' : ℕ → ℕ} {S : Finset ℕ} (hS : Oldest n k last S)
    (e : ∀ f < n, last f = last' f) : Oldest n k last' S :=
  ⟨hS.lt, hS.card, fun f hf g hg hgS => by
    rw [← e f (hS.lt f hf), ← e g hg]
    exact hS.older f hf g hg hgS⟩

/-- The times matter only for frames that hold a page. -/
lemma Chooses.congr {last last' : ℕ → ℕ} (hc : Chooses n W h s last)
    (e : ∀ f < n, s.frames f ≠ -1 → last f = last' f) : Chooses n W h s last' := by
  refine ⟨hc.free, fun hall => ?_⟩
  have e' : ∀ f < n, last f = last' f := fun f hf => e f hf (hall f hf)
  obtain ⟨S, hS, v, hv, hc, hle, htie⟩ := hc.full hall
  refine ⟨S, hS.congr e', v, hv, hc, hle, fun f hf hfv hsc => ?_⟩
  rw [← e' f (hS.lt f hf), ← e' v (hS.lt v hv)]
  exact htie f hf hfv hsc

lemma Ready.score_eq (hr : Ready n W h s l) (f : ℕ) : scorePage s (held s f) = score W h s f := by
  rw [scorePage, hr.window.items, score]

/-- The list is ordered by last use, the latest first. -/
lemma Ready.pairwise (hr : Ready n W h s l) :
    l.Pairwise fun f g => lastUse h s g < lastUse h s f :=
  List.pairwise_map.mp ((pairwise_recency h).sublist hr.order)

lemma Ready.lastUse_inj (hr : Ready n W h s l) {g : ℕ} (hf : f ∈ l) (hg : g ∈ l)
    (e : lastUse h s f = lastUse h s g) : f = g := by
  have hnd : (l.map (lastUse h s)).Nodup :=
    List.pairwise_map.mpr (hr.pairwise.imp fun hlt e => by omega)
  exact List.inj_on_of_nodup_map hnd hf hg e

lemma Ready.size_lt_iff (hr : Ready n W h s l) :
    s.size < s.cap ↔ ∃ f < n, s.frames f = -1 := by
  have hsub : l ⊆ List.range n := fun f hf => List.mem_range.mpr ((hr.occupied f).mp hf).1
  have hle := (List.subperm_of_subset hr.list.nodup hsub).length_le
  rw [List.length_range] at hle
  rw [hr.size, hr.cap]
  constructor
  · intro hlt
    by_contra hall
    push Not at hall
    have hsub' : List.range n ⊆ l := fun f hf =>
      (hr.occupied f).mpr ⟨List.mem_range.mp hf, hall f (List.mem_range.mp hf)⟩
    have := (List.subperm_of_subset List.nodup_range hsub').length_le
    rw [List.length_range] at this
    omega
  · rintro ⟨f, hf, he⟩
    have hlt : l.length < n := by
      have hfl : f ∉ l := fun hm => ((hr.occupied f).mp hm).2 he
      have := (List.subperm_of_subset (List.nodup_cons.mpr ⟨hfl, hr.list.nodup⟩)
        (List.cons_subset.mpr ⟨List.mem_range.mpr hf, hsub⟩)).length_le
      simpa using this
    omega

/-- The frames sampled are those used longest ago. -/
lemma Ready.oldest (hr : Ready n W h s l) (hall : ∀ f < n, s.frames f ≠ -1) :
    Oldest n (min n sampleSize) (lastUse h s) (sample s).toFinset := by
  have hsample : sample s = l.reverse.take sampleSize := by
    rw [sample, hr.list.follow_prev]
  have hmem : ∀ f, f ∈ l ↔ f < n := fun f => by
    rw [hr.occupied]
    exact ⟨And.left, fun hf => ⟨hf, hall f hf⟩⟩
  have hlen : l.length = n := by
    have := Recency.length_eq_card (l := List.range n) hr.list.nodup fun f => by
      rw [hmem, List.mem_range]
    rw [this, List.toFinset_card_of_nodup List.nodup_range, List.length_range]
  have hnd : l.reverse.Nodup := List.nodup_reverse.mpr hr.list.nodup
  have hsplit := List.take_append_drop sampleSize l.reverse
  rw [hsample]
  refine ⟨fun f hf => ?_, ?_, fun f hf g hg hgS => ?_⟩
  · exact (hmem f).mp (List.mem_reverse.mp (List.mem_of_mem_take (List.mem_toFinset.mp hf)))
  · rw [List.toFinset_card_of_nodup (hnd.sublist (List.take_sublist _ _)), List.length_take,
      List.length_reverse, hlen, Nat.min_comm]
  · have hgd : g ∈ l.reverse.drop sampleSize := by
      have hm : g ∈ l.reverse := List.mem_reverse.mpr ((hmem g).mpr hg)
      rw [← hsplit, List.mem_append] at hm
      exact hm.resolve_left fun hm => hgS (List.mem_toFinset.mpr hm)
    have hp := List.pairwise_reverse.mpr hr.pairwise
    rw [← hsplit, List.pairwise_append] at hp
    exact hp.2.2 f (List.mem_toFinset.mp hf) g hgd

/-- **The choice**, in every state in which a victim is looked for. -/
theorem Ready.chooses (hr : Ready n W h s l) (hn : 1 ≤ n) (hW : W ≤ maxWindow) :
    Chooses n W h s (lastUse h s) := by
  have hrange : List.range s.cap.toNat = List.range n := by rw [hr.cap, Int.toNat_natCast]
  refine ⟨fun hfree => ?_, fun hall => ?_⟩
  · have hlt := hr.size_lt_iff.mpr hfree
    obtain ⟨f, hf, he⟩ := hfree
    cases hfind : (List.range n).find? fun f => s.frames f == -1 with
    | none =>
      have := List.find?_eq_none.mp hfind f (List.mem_range.mpr hf)
      simp [he] at this
    | some v =>
      obtain ⟨hv, hvn, hfirst⟩ := List.find?_range_eq_some.mp hfind
      refine ⟨v, List.mem_range.mp hvn, ?_, by simpa using hv, fun f hf => ?_⟩
      · simp only [chooseVictim, if_pos hlt, hrange, hfind]
      · simpa using hfirst f hf
  · have hlt : ¬s.size < s.cap := fun hlt => by
      obtain ⟨f, hf, he⟩ := hr.size_lt_iff.mp hlt
      exact hall f hf he
    have hold := hr.oldest hall
    have hne : sample s ≠ [] := by
      intro he
      have := hold.card
      rw [he] at this
      simp only [List.toFinset_nil, Finset.card_empty, sampleSize] at this
      omega
    obtain ⟨v, hv, he, hle⟩ := evictionVictim_least hne fun f _ => hr.score_lt hW _
    refine ⟨_, hold, v, List.mem_toFinset.mpr hv, ?_, fun f hf => ?_, fun f hf hfv hsc => ?_⟩
    · rw [chooseVictim, if_neg hlt, he]
    · have := hle f (List.mem_toFinset.mp hf)
      rw [key, key, Prod.Lex.toLex_le_toLex, hr.score_eq, hr.score_eq] at this
      exact this.elim le_of_lt fun h => h.1.le
    · have hfl := (hr.occupied f).mpr ⟨hold.lt f hf, hall f (hold.lt f hf)⟩
      have hvl := (hr.occupied v).mpr
        ⟨hold.lt v (List.mem_toFinset.mpr hv), hall v (hold.lt v (List.mem_toFinset.mpr hv))⟩
      have hkey := hle f (List.mem_toFinset.mp hf)
      rw [key, key, Prod.Lex.toLex_le_toLex, hr.score_eq, hr.score_eq, hsc,
        OrderDual.toDual_le_toDual, hr.time f hfl, hr.time v hvl] at hkey
      have htime : lastUse h s f ≤ lastUse h s v := by
        rcases hkey with hlt | ⟨-, hle⟩
        · exact absurd hlt (Nat.lt_irrefl _)
        · exact Int.ofNat_le.mp hle
      exact lt_of_le_of_ne htime fun e => hfv (hr.lastUse_inj hfl hvl e)

/-! ### Whole runs -/

/-- What a run keeps of what the search reads. -/
structure Inv (n W : ℕ) (h : List ℕ) (s : State) : Prop where
  frames : TgFrames.Inv n h s
  window : Holds W h s.win
  light : Light s.graph

lemma Inv.ready (hi : Inv n W h s) : ∃ l, Ready n W h s l := by
  obtain ⟨-, l, hr⟩ := hi.frames
  exact ⟨l, ready_of_rep hr hi.window hi.light⟩

lemma inv_init (s₀ : State) (hn' : n ≤ maxFrames) (W : ℤ) :
    ∃ s, tgInit s₀ n W = some s ∧ Inv n (windowOf W) [] s := by
  obtain ⟨s, he, hs, hr⟩ := rep_init s₀ hn' W
  refine ⟨s, he, ⟨hs, [], hr⟩, ?_, ?_⟩
  all_goals
    rw [tgInit_eq s₀ hn'] at he
    obtain rfl := Option.some.inj he
  · exact holds_nil _ 0
  · exact light_zero

lemma inv_step (hn : 1 ≤ n) (hi : Inv n W h s) (hp : page ≠ -1) :
    ∃ s' r, tgAccess s page = some (s', r) ∧ Inv n W (h ++ [pageIdx page]) s' := by
  obtain ⟨s', r, ha, hf, -⟩ := TgFrames.inv_step hn hi.frames hp
  obtain ⟨e1, e2, -⟩ := access_learns ha
  refine ⟨s', r, ha, hf, ?_, ?_⟩
  · rw [e2]; exact hi.window.slide _
  · rw [e1]; exact light_prepare hi.light (pageIdx page)

/-- **The victim of TempoGraph, by indices.** After every trace without the page -1, and when
the next access looks for a victim, the choice is the lowest empty frame, or else among the 64
frames used longest ago the one with the least score, the most recently used of several. The
policy knows a page by its index, so a frame was used last when the index of its page was
accessed last, for this page or for another. -/
theorem index_choice (s₀ : State) (n : ℕ) (hn : 1 ≤ n) (hn' : n ≤ maxFrames) (W : ℤ)
    (tr : List Page) (htr : (-1 : Page) ∉ tr) :
    ∃ s s' os, tgInit s₀ n W = some s ∧ run tgAccess s tr = some (s', os) ∧
      Chooses n (windowOf W) (tr.map pageIdx) s' (lastUse (tr.map pageIdx) s') ∧
      ∀ page, Chooses n (windowOf W) (tr.map pageIdx) (updateGraph (tick s') (pageIdx page))
        (lastUse (tr.map pageIdx) s') := by
  obtain ⟨s, he, hi⟩ := inv_init s₀ hn' W
  obtain ⟨s', os, hrun, hi'⟩ := run_inv
    (I := fun past s => Inv n (windowOf W) (past.map pageIdx) s) tr hi fun past page s hp hi => by
      have hne : page ≠ -1 := by
        rintro rfl
        exact htr (hp.subset (by simp))
      obtain ⟨s', r, ha, hi'⟩ := inv_step hn hi hne
      exact ⟨s', r, ha, by simpa using hi'⟩
  obtain ⟨l, hr⟩ := hi'.ready
  refine ⟨s, s', os, he, hrun, hr.chooses hn (windowOf_le W), fun page => ?_⟩
  rw [updateGraph_tick]
  exact (hr.prepare (pageIdx page)).chooses hn (windowOf_le W)

end Tempograph.TgVictim
