import Tempograph.LruExact
import Tempograph.TgFrames

/-!
`tempograph.c` with a sampled eviction does no worse than a smaller `lru.c`.

The 64 frames that an eviction may take leave the most recent indices alone, and a page
among the most recent pages has its index among the most recent indices.
-/

namespace Tempograph.TgVersusLru

open Common Recency Runs TempoGraph TgFrames

/-- Where every hit of one run is a hit of the other, the other has no more faults. -/
lemma count_fault_le {os os' : List Result} (hlen : os.length = os'.length)
    (h : ∀ k : ℕ, os'[k]? = some .hit → os[k]? = some .hit) :
    os.count .fault ≤ os'.count .fault := by
  induction os generalizing os' with
  | nil => simp
  | cons r os ih =>
    obtain ⟨r', os', rfl⟩ : ∃ r' t, os' = r' :: t := by
      cases os' with
      | nil => simp at hlen
      | cons r' t => exact ⟨r', t, rfl⟩
    have hrest := ih (by simpa using hlen) fun k => h (k + 1)
    have h0 := h 0
    cases r <;> cases r' <;> simp at h0 ⊢ <;> omega

/-- **TempoGraph is no worse than a smaller LRU.** With 65 frames or more, on a trace without
the page -1, whatever hits in `lru.c` with 64 frames less hits in `tempograph.c`. -/
theorem tg_no_worse (M : Malloc) (s₀ : State) (s₀' : Lru.State) (n : ℕ) (hn : 65 ≤ n)
    (hn' : n ≤ maxFrames) (W : ℤ) (tr : List Page) (htr : (-1 : Page) ∉ tr) :
    ∃ s os os', tgInit s₀ n W = some s ∧ outputs tgAccess s tr = some os ∧
      outputs (Lru.lruAccess M) (Lru.lruInit s₀' (n - sampleSize : ℕ)) tr = some os' ∧
      (∀ k : ℕ, os'[k]? = some .hit → os[k]? = some .hit) ∧
      os.count .fault ≤ os'.count .fault := by
  obtain ⟨s, t, os, he, hrun, -, hos⟩ := tg_run s₀ (n := n) (by omega) hn' W tr htr
  obtain ⟨t', os', hrun', -, hos'⟩ := LruExact.lru_run M s₀' (c := n - sampleSize)
    (by simp only [sampleSize]; omega) tr
  have hlen := run_length hrun
  have hlen' := run_length hrun'
  have hhit : ∀ k : ℕ, os'[k]? = some .hit → os[k]? = some .hit := by
    intro k hk
    obtain ⟨h1, h2⟩ := List.getElem?_eq_some_iff.mp hk
    have hk' : k < tr.length := by omega
    have hm := mem_take_recency_map pageIdx ((hos' k hk' h1).mp h2)
    have hk₁ : k < os.length := by omega
    rw [List.getElem?_eq_getElem hk₁]
    cases hr : os[k] with
    | hit => rfl
    | fault => exact absurd hm (hos k hk' hk₁ hr)
  exact ⟨s, os, os', he, outputs_eq hrun, outputs_eq hrun', hhit,
    count_fault_le (by omega) hhit⟩

/-- The theorem at 65 frames and a trace of three pages. -/
theorem tg_no_worse_three :
    65 ≤ 65 ∧ 65 ≤ maxFrames ∧ (-1 : Page) ∉ [3, 5, 3] ∧
      ∃ (s : State) (os os' : List Result), tgInit start 65 10 = some s ∧
        outputs tgAccess s [3, 5, 3] = some os ∧
        outputs (Lru.lruAccess Malloc.above) (Lru.lruInit Lru.start (65 - sampleSize : ℕ))
          [3, 5, 3] = some os' ∧ os.count .fault ≤ os'.count .fault := by
  obtain ⟨s, os, os', h1, h2, h3, -, h4⟩ := tg_no_worse Malloc.above start Lru.start 65 le_rfl
    (by decide) 10 [3, 5, 3] (by decide)
  exact ⟨le_rfl, by decide, by decide, s, os, os', h1, h2, h3, h4⟩

end Tempograph.TgVersusLru
