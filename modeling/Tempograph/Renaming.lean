import Mathlib.GroupTheory.Perm.ViaEmbedding
import Tempograph.ArcRuns
import Tempograph.CompulsoryMisses
import Tempograph.SieveReference
import Tempograph.TgRename

/-!
No policy looks at the numbers of the pages.

Replaying a trace and its image under a renaming of the pages gives the same answers,
whatever the static variables were and wherever the allocator puts the nodes. LRU and ARC are
known by what they do to lists of pages; for the others the renaming is followed through the
states.
-/

namespace Tempograph.Renaming

open Common Recency Runs Sim CompulsoryMisses

variable {M M' : Malloc} {n : ℕ} {f : Page → Page} {tr : List Page}

/-- The answers of a replay. -/
def answers (M : Malloc) (σ : Statics) (algo : Algo) (n_frames window : ℤ) (trace : List Page) :
    Option (List Result) := (replay M σ algo n_frames window trace).map Prod.snd

section Answers

variable {σ : Statics} {W : ℤ}

/-! The answers of a replay are the outputs of the policy. -/

lemma answers_lru (M : Malloc) (σ : Statics) (n : ℕ) (W : ℤ) (tr : List Page) :
    answers M σ .lru n W tr = outputs (Lru.lruAccess M) (Lru.lruInit σ.lru n) tr := by
  rw [answers, replay_lru, outputs, Option.map_map]
  rfl

lemma answers_arc (M : Malloc) (σ : Statics) (n : ℕ) (W : ℤ) (tr : List Page) :
    answers M σ .arc n W tr = outputs (Arc.arcAccess M) (Arc.arcInit σ.arc n) tr := by
  rw [answers, replay_arc, outputs, Option.map_map]
  rfl

lemma answers_lfu {s : Lfu.State} (h : Lfu.lfuInit σ.lfu n = some s) :
    answers M σ .lfu n W tr = outputs Lfu.lfuAccess s tr := by
  rw [answers, replay_lfu h, outputs, Option.map_map]
  rfl

lemma answers_tg {s : TempoGraph.State} (h : TempoGraph.tgInit σ.tg n W = some s) :
    answers M σ .tempograph n W tr = outputs TempoGraph.tgAccess s tr := by
  rw [answers, replay_tg h, outputs, Option.map_map]
  rfl

lemma answers_sieve {s : Sieve.State} (h : Sieve.sieveInit σ.sieve n = some s) :
    answers M σ .sieve n W tr = outputs Sieve.sieveAccess s tr := by
  rw [answers, replay_sieve h, outputs, Option.map_map]
  rfl

end Answers

/-! ### LRU and ARC -/

/-- Two runs over a trace and its image with the same answers. -/
lemma lru_rename (M M' : Malloc) (s t : Lru.State) (hn : 1 ≤ n) (hf : Function.Injective f)
    (tr : List Page) :
    ∃ s' t' os, run (Lru.lruAccess M) (Lru.lruInit s n) tr = some (s', os) ∧
      run (Lru.lruAccess M') (Lru.lruInit t n) (tr.map f) = some (t', os) := by
  obtain ⟨s', t', os, h1, h2, -⟩ := run_sim (f := Lru.lruAccess M)
    (g := fun t page => Lru.lruAccess M' t (f page))
    (R := fun past s t => LruExact.Inv n past s ∧ LruExact.Inv n (past.map f) t) tr
    ⟨LruExact.inv_init s n, LruExact.inv_init t n⟩ fun past page s t _ hR => by
      obtain ⟨s', r, h1, hi, hr⟩ := LruExact.inv_step M hn hR.1 page
      obtain ⟨t', r', h2, hi', hr'⟩ := LruExact.inv_step M' hn hR.2 (f page)
      rw [recency_map hf, ← List.map_take, List.mem_map_of_injective hf, ← hr] at hr'
      have hrr : r' = r := by cases r <;> cases r' <;> simp_all
      subst hrr
      rw [List.map_append]
      exact ⟨s', t', r', h1, h2, hi, hi'⟩
  rw [run_comap] at h2
  exact ⟨s', t', os, h1, h2⟩

lemma arc_rename (M M' : Malloc) (s t : Arc.State) (hn : 1 ≤ n) (hf : Function.Injective f)
    (tr : List Page) :
    ∃ s' t' os, run (Arc.arcAccess M) (Arc.arcInit s n) tr = some (s', os) ∧
      run (Arc.arcAccess M') (Arc.arcInit t n) (tr.map f) = some (t', os) := by
  obtain ⟨s', nd, h1, -⟩ := ArcRuns.run_after M s hn tr
  obtain ⟨t', nd', h2, -⟩ := ArcRuns.run_after M' t hn (tr.map f)
  have hres : results (ArcLists.Cache.access n) ArcLists.Cache.empty (tr.map f) =
      results (ArcLists.Cache.access n) ArcLists.Cache.empty tr :=
    results_map (φ := ArcLists.Cache.map f) (ArcLists.access_map hf n) ArcLists.Cache.empty tr
  rw [hres] at h2
  exact ⟨s', t', _, h1, h2⟩

/-! ### LFU -/

section Lfu

open Lfu LfuSteps

/-- Rename the pages in the slots. -/
def lfuMap (f : Page → Page) (s : State) : State :=
  { s with slots := fun i => { s.slots i with page := f (s.slots i).page } }

lemma lfu_find (hf : Function.Injective f) (s : State) (page : Page) :
    find (lfuMap f s) (f page) = find s page := by
  unfold find
  refine List.find?_congr fun i _ => ?_
  rw [Bool.eq_iff_iff, beq_iff_eq, beq_iff_eq]
  exact hf.eq_iff

lemma lfu_victim (hf : Function.Injective f) (hm : f (-1) = -1) (s : State) :
    victim (lfuMap f s) = victim s := by
  have hfind := lfu_find hf s (-1)
  rw [hm] at hfind
  have hleast : leastUsed (lfuMap f s) = leastUsed s := rfl
  unfold victim
  rw [hfind, hleast]
  rfl

lemma lfuMap_set (f : Page → Page) (s : State) (i : ℕ) (e : Slot) (size : ℤ) (clock : ℕ) :
    lfuMap f { s with slots := Function.update s.slots i e, size := size, lfuClock := clock } =
      { s with
        slots := Function.update (lfuMap f s).slots i { e with page := f e.page }
        size := size
        lfuClock := clock } := by
  unfold lfuMap
  simp only [State.mk.injEq, and_self, and_true]
  ext j
  simp only [Function.update_apply]
  split_ifs <;> rfl

/-- **One access** of the renamed state. -/
lemma lfu_access (hf : Function.Injective f) (hm : f (-1) = -1) (s : State) (page : Page) :
    lfuAccess (lfuMap f s) (f page) = (lfuAccess s page).map fun p => (lfuMap f p.1, p.2) := by
  have hfind := lfu_find hf { s with lfuClock := s.lfuClock + 1 } page
  have hvictim := lfu_victim hf hm { s with lfuClock := s.lfuClock + 1 }
  have hmap : { lfuMap f s with lfuClock := (lfuMap f s).lfuClock + 1 } =
      lfuMap f { s with lfuClock := s.lfuClock + 1 } := rfl
  unfold lfuAccess
  simp only [hmap, hfind, hvictim]
  cases find { s with lfuClock := s.lfuClock + 1 } page with
  | some i =>
    simp only [Option.map_some]
    rw [lfuMap_set f s i _ s.size]
    rfl
  | none =>
    rcases victim { s with lfuClock := s.lfuClock + 1 } with ⟨v, size⟩
    cases v with
    | none => rfl
    | some v =>
      simp only [Option.map_some]
      rw [lfuMap_set f s v]
      rfl

lemma lfuMap_init (hm : f (-1) = -1) (n : ℕ) : lfuMap f (initState n) = initState n := by
  simp only [lfuMap, initState, hm]

lemma lfu_rename (s₀ t₀ : State) (hn' : n ≤ maxFrames) (hf : Function.Injective f)
    (hm : f (-1) = -1) (tr : List Page) :
    ∃ s, lfuInit s₀ n = some s ∧ lfuInit t₀ n = some s ∧
      outputs lfuAccess s (tr.map f) = outputs lfuAccess s tr := by
  refine ⟨_, lfuInit_eq hn' s₀, lfuInit_eq hn' t₀, ?_⟩
  have hrun := run_map (lfu_access hf hm) (initState n) tr
  rw [lfuMap_init hm] at hrun
  rw [outputs, outputs, hrun, Option.map_map]
  rfl

/-- What keeps LFU from leaving its array: the counter covers the slots in use, and no count
is as large as the first candidate's. -/
structure Counted (n : ℕ) (past : List Page) (s : State) : Prop where
  cap : s.cap = n
  used : ((Slots.used (-1) n fun i => (s.slots i).page).card : ℤ) ≤ s.size
  freq : ∀ i, (s.slots i).freq ≤ past.length

lemma used_update (P : ℕ → Page) (v : ℕ) (page : Page) :
    (Slots.used (-1) n (Function.update P v page)).card ≤ (Slots.used (-1) n P).card + 1 := by
  refine (Finset.card_le_card fun i hi => ?_).trans (Finset.card_insert_le v _)
  obtain ⟨hin, hne⟩ := Slots.mem_used.mp hi
  rw [Finset.mem_insert, Slots.mem_used]
  by_cases hiv : i = v
  · exact Or.inl hiv
  · rw [Function.update_of_ne hiv] at hne
    exact Or.inr ⟨hin, hne⟩

/-- A fault has a victim, and its slot is counted. -/
lemma Counted.victim {s : State} {past : List Page} (h : Counted n past s) (hn : 1 ≤ n)
    (hlen : past.length < maxTrace) :
    ∃ v size, victim s = (some v, size) ∧ ∀ page, ((Slots.used (-1) n
      (Function.update (fun i => (s.slots i).page) v page)).card : ℤ) ≤ size := by
  have hused := h.used
  have hcap := h.cap
  unfold Lfu.victim
  split_ifs with hlt
  · -- the counter is below the capacity, so a slot is empty
    cases hf : find s (-1) with
    | none =>
      have hheld := Slots.held_of_card_used (n := n) (e := (-1 : Page))
        (P := fun i => (s.slots i).page) (by omega)
      exact absurd hheld (find_eq_none hcap hf)
    | some v =>
      refine ⟨v, _, rfl, fun page => ?_⟩
      have := used_update (n := n) (fun i => (s.slots i).page) v page
      omega
  · have h0 := h.freq 0
    obtain ⟨v, -, hv, -⟩ := leastUsed_least hn hcap
      (by simp only [maxTrace, intMax] at *; omega)
    refine ⟨v, _, by rw [hv], fun page => ?_⟩
    have hle : (Slots.used (-1) n (Function.update (fun i => (s.slots i).page) v page)).card ≤ n :=
      (Finset.card_le_card (Finset.filter_subset _ _)).trans_eq (Finset.card_range n)
    omega

lemma counted_step {s : State} {past : List Page} (hn : 1 ≤ n) (hlen : past.length < maxTrace)
    (h : Counted n past s) (page : Page) :
    ∃ s' r, lfuAccess s page = some (s', r) ∧ Counted n (past ++ [page]) s' := by
  have hlength : (past ++ [page]).length = past.length + 1 := by simp
  cases hf : find s page with
  | some i =>
    refine ⟨_, _, access_hit hf, h.cap, ?_, fun j => ?_⟩
    · have hpages : (fun j => ((hitState s i).slots j).page) = fun j => (s.slots j).page :=
        funext fun j => hitState_page s i j
      rw [hpages]
      exact h.used
    · rw [hlength]
      exact hitState_freq h.freq i j
  | none =>
    obtain ⟨v, size, hv, hused⟩ := h.victim hn hlen
    refine ⟨_, _, access_fault hf hv, h.cap, ?_, fun j => ?_⟩
    · have hpages : (fun j => ((faultState s v page size).slots j).page) =
          Function.update (fun j => (s.slots j).page) v page := by
        ext j
        rw [faultState_page, Function.update_apply]
      rw [hpages]
      exact hused page
    · rw [hlength]
      exact faultState_freq h.freq v page size j

lemma lfu_defined (s₀ : State) (hn : 1 ≤ n) (hn' : n ≤ maxFrames) {tr : List Page}
    (hlen : tr.length ≤ maxTrace) :
    ∃ s s' os, lfuInit s₀ n = some s ∧ run lfuAccess s tr = some (s', os) := by
  obtain ⟨s, hs, hi⟩ := lfu_init s₀ hn hn'
  have hused : ((Slots.used (-1) n fun i => (s.slots i).page).card : ℤ) ≤ s.size := by
    rw [hi.filled.count (by simp), hi.size]
    simp
  obtain ⟨s', os, hrun, -⟩ := run_inv (I := Counted n) tr ⟨hi.cap, hused, hi.freq⟩
    fun past page s hp h => by
      have := hp.length_le
      simp only [List.length_append, List.length_singleton] at this
      exact counted_step hn (by omega) h page
  exact ⟨s, s', os, hs, hrun⟩

end Lfu

/-! ### SIEVE -/

section Sieve

open Sieve

/-- The first `n` slots of `t` are those of `s` with the pages renamed. -/
structure SieveSame (f : Page → Page) (n : ℕ) (s t : State) : Prop where
  size : s.n = n
  size' : t.n = n
  hand_lt : s.hand < n
  hand : t.hand = s.hand
  pages : ∀ i < n, t.pages i = f (s.pages i)
  visited : ∀ i < n, t.visited i = s.visited i

variable {s t : State} {page : Page}

lemma SieveSame.find (h : SieveSame f n s t) (hf : Function.Injective f) (page : Page) :
    find t (f page) = find s page := by
  unfold Sieve.find
  rw [h.size, h.size']
  refine List.find?_congr fun i hi => ?_
  rw [h.pages i (List.mem_range.mp hi)]
  simp [hf.eq_iff]

/-- Writing the same slot of both and stepping on. -/
lemma SieveSame.write (h : SieveSame f n s t) (page : Page) :
    SieveSame f n (replace s page) (replace t (f page)) := by
  have hn : 0 < n := by have := h.hand_lt; omega
  refine ⟨h.size, h.size', ?_, ?_, fun i hi => ?_, fun i hi => ?_⟩
  · simp only [replace, h.size]
    exact Nat.mod_lt _ hn
  · simp only [replace, h.size, h.size', h.hand]
  · simp only [replace, h.hand, Function.update_apply]
    split_ifs
    · rfl
    · exact h.pages i hi
  · simp only [replace, h.hand, Function.update_apply]
    split_ifs
    · rfl
    · exact h.visited i hi

lemma SieveSame.pass (h : SieveSame f n s t) :
    SieveSame f n (Sieve.pass s) (Sieve.pass t) := by
  have hp := h.write (s.pages s.hand)
  have e1 : Sieve.pass s = replace s (s.pages s.hand) := by
    simp [Sieve.pass, replace]
  have e2 : Sieve.pass t = replace t (f (s.pages s.hand)) := by
    rw [← h.pages _ h.hand_lt, ← h.hand]
    simp [Sieve.pass, replace]
  rw [e1, e2]
  exact hp

/-- The hand stops at the same slot. -/
lemma SieveSame.advance (h : SieveSame f n s t) (fuel : ℕ) {s' : State}
    (ha : advance fuel s = some s') :
    ∃ t', advance fuel t = some t' ∧ SieveSame f n s' t' := by
  induction fuel generalizing s t with
  | zero => cases ha
  | succ fuel ih =>
    have hn : s.n ≠ 0 := by
      have := h.hand_lt
      rw [h.size]
      omega
    have hn' : t.n ≠ 0 := by rwa [h.size', ← h.size]
    simp only [Sieve.advance, h.hand, h.visited _ h.hand_lt, if_neg hn, if_neg hn'] at ha ⊢
    split_ifs at ha ⊢ with hv
    · exact ih h.pass ha
    · obtain rfl := Option.some.inj ha
      exact ⟨t, rfl, h⟩

/-- **One access** of both. -/
lemma SieveSame.access (h : SieveSame f n s t) (hf : Function.Injective f) (page : Page) :
    ∃ s' t' r, sieveAccess s page = some (s', r) ∧ sieveAccess t (f page) = some (t', r) ∧
      SieveSame f n s' t' := by
  have hfind := h.find hf page
  cases hi : Sieve.find s page with
  | some i =>
    rw [hi] at hfind
    refine ⟨visit s i, visit t i, .hit, by simp only [sieveAccess, hi],
      by simp only [sieveAccess, hfind],
      h.size, h.size', h.hand_lt, h.hand, h.pages, fun j hj => ?_⟩
    simp only [visit, Function.update_apply]
    split_ifs
    · rfl
    · exact h.visited j hj
  | none =>
    rw [hi] at hfind
    obtain ⟨s₁, ha, -, hn₁, -⟩ := SieveQueue.advance_defined (s := s) (h.size ▸ h.hand_lt)
    have hn : s₁.n ≠ 0 := by
      have := h.hand_lt
      rw [hn₁, h.size]
      omega
    obtain ⟨t₁, ha', h'⟩ := h.advance _ ha
    have hn' : t₁.n ≠ 0 := by rwa [h'.size', ← h'.size]
    rw [h.size, ← h.size'] at ha'
    exact ⟨_, _, .fault, by simp only [sieveAccess, hi, ha, if_neg hn],
      by simp only [sieveAccess, hfind, ha', if_neg hn'], h'.write page⟩

lemma sieve_init_same (s₀ t₀ : State) (hn : 1 ≤ n) (hn' : n ≤ maxFrames) (hm : f (-1) = -1) :
    ∃ s t, sieveInit s₀ n = some s ∧ sieveInit t₀ n = some t ∧ SieveSame f n s t :=
  ⟨_, _, SieveQueue.sieveInit_eq hn' s₀, SieveQueue.sieveInit_eq hn' t₀, rfl, rfl, hn, rfl,
    fun i hi => by simp [SieveQueue.initState, hi, hm],
    fun i hi => by simp [SieveQueue.initState, hi]⟩

lemma sieve_rename (s₀ t₀ : State) (hn : 1 ≤ n) (hn' : n ≤ maxFrames)
    (hf : Function.Injective f) (hm : f (-1) = -1) (tr : List Page) :
    ∃ s t s' t' os, sieveInit s₀ n = some s ∧ sieveInit t₀ n = some t ∧
      run sieveAccess s tr = some (s', os) ∧ run sieveAccess t (tr.map f) = some (t', os) ∧
      SieveSame f n s' t' := by
  obtain ⟨s, t, hs, ht, h0⟩ := sieve_init_same s₀ t₀ hn hn' hm
  obtain ⟨s', t', os, h1, h2, h3⟩ := run_sim (g := fun t page => sieveAccess t (f page))
    (R := fun _ => SieveSame f n) tr h0 fun _ page _ _ _ h => h.access hf page
  rw [run_comap] at h2
  exact ⟨s, t, s', t', os, hs, ht, h1, h2, h3⟩

end Sieve

/-! ### The page numbers below `MAX_UNIQUE` -/

instance : NeZero maxUnique := ⟨by decide⟩

/-- The page with the number `k`. -/
def pageOf (k : Fin maxUnique) : Page := SieveReference.pg k

lemma number_lt (k : Fin maxUnique) : (k : ℕ) < 2 ^ 31 := k.isLt.trans (by decide)

lemma pageOf_injective : Function.Injective pageOf := fun i j h =>
  Fin.ext (SieveReference.pg_inj (number_lt i) (number_lt j) h)

lemma pageOf_ne (k : Fin maxUnique) : pageOf k ≠ -1 := SieveReference.pg_ne (number_lt k)

lemma pageIdx_pageOf (k : Fin maxUnique) : TempoGraph.pageIdx (pageOf k) = k := by
  have hk : (k : ℕ) % 4294967296 = k := Nat.mod_eq_of_lt ((number_lt k).trans (by decide))
  simp only [TempoGraph.pageIdx, unsignedOf, pageOf, SieveReference.pg, Int32.toUInt32_ofNat',
    UInt32.toNat_ofNat', hk]
  exact Nat.mod_eq_of_lt k.isLt

/-- Rename these pages and no others. -/
noncomputable def permute (ρ : Equiv.Perm (Fin maxUnique)) : Equiv.Perm Page :=
  ρ.viaEmbedding ⟨pageOf, pageOf_injective⟩

lemma permute_pageOf (ρ : Equiv.Perm (Fin maxUnique)) (k : Fin maxUnique) :
    permute ρ (pageOf k) = pageOf (ρ k) :=
  Equiv.Perm.viaEmbedding_apply ρ ⟨pageOf, pageOf_injective⟩ k

lemma permute_mark (ρ : Equiv.Perm (Fin maxUnique)) : permute ρ (-1) = -1 := by
  apply Equiv.Perm.viaEmbedding_apply_of_notMem
  rintro ⟨k, hk⟩
  exact pageOf_ne k hk

/-- On the indices it is the permutation itself. -/
lemma renames (ρ : Equiv.Perm (Fin maxUnique)) :
    TgRename.Renames (permute ρ) (ρ.viaEmbedding Fin.valEmbedding)
      (· ∈ Set.range pageOf) where
  page_inj := (permute ρ).injective
  index_inj := Equiv.injective _
  mark := permute_mark ρ
  index_lt i := by
    by_cases hi : i < maxUnique
    · have h : ρ.viaEmbedding Fin.valEmbedding i = ρ ⟨i, hi⟩ :=
        Equiv.Perm.viaEmbedding_apply ρ Fin.valEmbedding ⟨i, hi⟩
      rw [h]
      exact iff_of_true (ρ _).isLt hi
    · rw [Equiv.Perm.viaEmbedding_apply_of_notMem]
      rintro ⟨k, rfl⟩
      exact hi k.isLt
  index := by
    rintro _ ⟨k, rfl⟩
    rw [permute_pageOf, pageIdx_pageOf, pageIdx_pageOf]
    exact (Equiv.Perm.viaEmbedding_apply ρ Fin.valEmbedding k).symm

variable {σ σ' : Statics} {W : ℤ}

/-- **Page names do not matter**: a trace of pages below `MAX_UNIQUE` and its image under a
permutation of these numbers have the same answers under every policy. -/
theorem names_invariant (M M' : Malloc) (σ σ' : Statics) (algo : Algo) (n : ℕ) (hn : 1 ≤ n)
    (hn' : n ≤ maxFrames) (W : ℤ) (ρ : Equiv.Perm (Fin maxUnique)) (tr : List (Fin maxUnique)) :
    answers M σ algo n W (tr.map pageOf) = answers M' σ' algo n W ((tr.map ρ).map pageOf) ∧
      (tr.length ≤ maxTrace → (answers M σ algo n W (tr.map pageOf)).isSome) := by
  have himage : (tr.map ρ).map pageOf = (tr.map pageOf).map (permute ρ) := by
    rw [List.map_map, List.map_map]
    exact List.map_congr_left fun k _ => (permute_pageOf ρ k).symm
  have hf := (permute ρ).injective
  have hm := permute_mark ρ
  rw [himage]
  cases algo with
  | lru =>
    obtain ⟨s, t, os, h1, h2⟩ := lru_rename M M' σ.lru σ'.lru hn hf (tr.map pageOf)
    rw [answers_lru, answers_lru, outputs_eq h1, outputs_eq h2]
    exact ⟨rfl, fun _ => rfl⟩
  | lfu =>
    obtain ⟨s, e1, e2, h⟩ := lfu_rename σ.lfu σ'.lfu hn' hf hm (tr.map pageOf)
    rw [answers_lfu e1, answers_lfu e2]
    refine ⟨h.symm, fun hlen => ?_⟩
    have hlen' : (tr.map pageOf).length ≤ maxTrace := by rwa [List.length_map]
    obtain ⟨t, s', os, e3, hrun⟩ := lfu_defined σ.lfu hn hn' hlen'
    obtain rfl := Option.some.inj (e1.symm.trans e3)
    rw [outputs_eq hrun]
    rfl
  | arc =>
    obtain ⟨s, t, os, h1, h2⟩ := arc_rename M M' σ.arc σ'.arc hn hf (tr.map pageOf)
    rw [answers_arc, answers_arc, outputs_eq h1, outputs_eq h2]
    exact ⟨rfl, fun _ => rfl⟩
  | tempograph =>
    obtain ⟨s, t, s', t', os, e1, e2, h1, h2⟩ := TgRename.tg_rename (renames ρ) σ.tg σ'.tg hn hn' W
      (tr.map pageOf) fun p hp => by
        obtain ⟨k, -, rfl⟩ := List.mem_map.mp hp
        exact ⟨⟨k, rfl⟩, pageOf_ne k⟩
    rw [answers_tg e1, answers_tg e2, outputs_eq h1, outputs_eq h2]
    exact ⟨rfl, fun _ => rfl⟩
  | sieve =>
    obtain ⟨s, t, s', t', os, e1, e2, h1, h2, -⟩ := sieve_rename σ.sieve σ'.sieve hn hn' hf hm
      (tr.map pageOf)
    rw [answers_sieve e1, answers_sieve e2, outputs_eq h1, outputs_eq h2]
    exact ⟨rfl, fun _ => rfl⟩

/-- Three pages in two frames, the names of the first two exchanged. -/
theorem names_invariant_two :
    answers Malloc.above start .tempograph 2 10 ([0, 1, 2, 0].map pageOf) =
      answers Malloc.above start .tempograph 2 10
        (([0, 1, 2, 0].map (Equiv.swap 0 1)).map pageOf) :=
  (names_invariant Malloc.above Malloc.above start start .tempograph 2 (by decide)
    (by decide) 10 (Equiv.swap 0 1) [0, 1, 2, 0]).1

end Tempograph.Renaming
