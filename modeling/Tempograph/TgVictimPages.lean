import Tempograph.TgAlias
import Tempograph.TgVictim

/-!
The victim of `tempograph.c`, by pages.

A frame is stamped whenever the index of its page is accessed. So the stamp of a frame is the
last access to its page as long as no access meets an alias of a resident page: then the
victim is the one that the accesses to the pages themselves ask for.
-/

namespace Tempograph.TgVictimPages

open Common Recency Runs TempoGraph TgSafe TgFrames TgAlias TgVictim

variable {n f : ℕ} {s s' : State} {page : Page} {r : Result} {past : List Page}

/-- The number of the last access to the page in the frame. -/
def pageUse (tr : List Page) (s : State) (f : ℕ) : ℕ := lastAccess tr (s.frames f)

/-- An access to the alias of a resident page makes this page the more recently used one. -/
theorem alias_spares_page :
    ¬ ∀ (n : ℕ) (W : ℤ) (tr : List Page), 1 ≤ n → n ≤ maxFrames → (-1 : Page) ∉ tr →
      ∃ s s' os, tgInit start n W = some s ∧ run tgAccess s tr = some (s', os) ∧
        Chooses n (windowOf W) (tr.map pageIdx) s' (pageUse tr s') := by
  intro h
  obtain ⟨s, s', os, hs, hrun, hc⟩ := h 2 2 [0, 1, 4096] (by decide) (by decide) (by decide)
  have hval : ((tgInit start 2 2).bind fun s => (run tgAccess s [0, 1, 4096]).map fun p =>
      (p.1.frames 0, p.1.frames 1, chooseVictim p.1)) = some (0, 1, some 0) := by decide
  have hscore : ((tgInit start 2 2).bind fun s => (run tgAccess s [0, 1, 4096]).map fun p =>
      (score 2 [0, 1, 0] p.1 0, score 2 [0, 1, 0] p.1 1)) = some (1, 1) := by decide
  rw [Nat.cast_ofNat] at hs
  rw [hs, Option.bind_some, hrun, Option.map_some, Option.some.injEq, Prod.mk.injEq,
    Prod.mk.injEq] at hval
  rw [hs, Option.bind_some, hrun, Option.map_some, Option.some.injEq, Prod.mk.injEq] at hscore
  obtain ⟨h0, h1, hv⟩ := hval
  have h0 : s'.frames 0 = 0 := h0
  have h1 : s'.frames 1 = 1 := h1
  obtain ⟨S, hS, v, -, hchoice, -, htie⟩ := hc.full fun f hf => by
    interval_cases f
    · rw [h0]; decide
    · rw [h1]; decide
  obtain rfl : v = 0 := Option.some.inj (hchoice.symm.trans hv)
  -- both frames are among the oldest, so page 1 is in the tie
  have hmem : 1 ∈ S := by
    have hsub : S ⊆ Finset.range 2 := fun f hf => Finset.mem_range.mpr (hS.lt f hf)
    rw [Finset.eq_of_subset_of_card_le hsub (by rw [hS.card]; decide)]
    decide
  have hlt := htie 1 hmem (by decide) (hscore.2.trans hscore.1.symm)
  rw [pageUse, pageUse, h0, h1] at hlt
  revert hlt
  decide

/-! ### One access -/

/-- An access stores its page or nothing. -/
lemma access_frames (h : tgAccess s page = some (s', r)) (f : ℕ) :
    s'.frames f = page ∨ s'.frames f = s.frames f := by
  rw [access_eq] at h
  split_ifs at h
  · obtain ⟨v, -, e⟩ := Option.map_eq_some_iff.mp h
    cases e
    exact Or.inr rfl
  · obtain ⟨v, -, e⟩ := Option.map_eq_some_iff.mp h
    cases e
    exact (em (f = v)).imp (fun e => by subst e; exact Function.update_self _ _ _)
      fun e => Function.update_of_ne e _ _

/-- The last access to the index of a resident page was one to the page. -/
def Dated (n : ℕ) (tr : List Page) (s : State) : Prop :=
  ∀ f < n, s.frames f ≠ -1 → lastUse (tr.map pageIdx) s f = pageUse tr s f

/-- **One access** that meets no alias. -/
lemma Dated.step (hd : Dated n past s) (hcap : s.cap = n) (ha : NoAlias s page)
    (h : tgAccess s page = some (s', r)) : Dated n (past ++ [page]) s' := by
  intro f hf hne
  have hkey : pageIdx (s'.frames f) = pageIdx page → s'.frames f = page := by
    intro e
    rcases access_frames h f with he | he
    · exact he
    · rw [he] at hne e ⊢
      exact ha f (by rw [hcap, Int.toNat_natCast]; exact hf) (Or.inl hne) e
  rw [lastUse, pageUse, held, List.map_append, List.map_singleton, lastAccess_snoc,
    lastAccess_snoc, List.length_map]
  by_cases e : s'.frames f = page
  · rw [if_pos (congrArg pageIdx e), if_pos e]
  · have he : s'.frames f = s.frames f := (access_frames h f).resolve_left e
    rw [if_neg (mt hkey e), if_neg e, he]
    exact hd f hf (he ▸ hne)

/-! ### Whole runs -/

/-- **The victim of TempoGraph.** In a run without the page -1 in which no access meets an
alias of its page among the resident frames, the choice is the lowest empty frame, or else
among the 64 resident pages whose last accesses are oldest the one with the least score, the
most recently accessed of several. So it is after the run and when the next access looks for a
victim. -/
theorem victim_choice (s₀ : State) (n : ℕ) (hn : 1 ≤ n) (hn' : n ≤ maxFrames) (W : ℤ)
    (tr : List Page) (htr : (-1 : Page) ∉ tr) :
    ∃ s, tgInit s₀ n W = some s ∧
      ((∀ past page t os, past ++ [page] <+: tr → run tgAccess s past = some (t, os) →
          NoAlias t page) →
        ∃ s' os, run tgAccess s tr = some (s', os) ∧
          Chooses n (windowOf W) (tr.map pageIdx) s' (pageUse tr s') ∧
          ∀ page, Chooses n (windowOf W) (tr.map pageIdx)
            (updateGraph (tick s') (pageIdx page)) (pageUse tr s')) := by
  obtain ⟨s, s', os, hs, hrun, hchoose, hnext⟩ := index_choice s₀ n hn hn' W tr htr
  obtain ⟨t₀, ht₀, hsafe⟩ := safe_init s₀ hn' W
  obtain rfl : t₀ = s := Option.some.inj (ht₀.symm.trans hs)
  refine ⟨t₀, hs, fun hclean => ⟨s', os, hrun, ?_⟩⟩
  have hempty : Dated n [] t₀ := fun _ _ _ => rfl
  obtain ⟨t, us, hrun', -, hdated, -⟩ := run_inv (f := tgAccess)
    (I := fun past t => Safe n t ∧ Dated n past t ∧ ∃ us, run tgAccess t₀ past = some (t, us)) tr
    ⟨hsafe, hempty, [], rfl⟩ fun past page t hp ⟨hsafe, hdated, us, hrun⟩ => by
      obtain ⟨t', r, ha, hsafe', -⟩ := safe_step hn hsafe page
      have hstep := hdated.step hsafe.cap (hclean past page t us hp hrun) ha
      exact ⟨t', r, ha, hsafe', hstep, _, run_snoc hrun ha⟩
  obtain ⟨rfl, -⟩ : s' = t ∧ os = us := by simpa using hrun.symm.trans hrun'
  refine ⟨hchoose.congr hdated, fun page => (hnext page).congr fun f hf hne => ?_⟩
  rw [updateGraph_tick] at hne
  exact hdated f hf hne

/-- The theorem at two frames and a trace that fills them and returns to the first page. -/
theorem victim_choice_two : 1 ≤ 2 ∧ 2 ≤ maxFrames ∧ (-1 : Page) ∉ [3, 5, 3] ∧
    ∃ s s' os, tgInit start 2 10 = some s ∧ run tgAccess s [3, 5, 3] = some (s', os) ∧
      Chooses 2 (windowOf 10) ([3, 5, 3].map pageIdx) s' (pageUse [3, 5, 3] s') := by
  have hm : (-1 : Page) ∉ [3, 5, 3] := by decide
  obtain ⟨s, hs, h⟩ := victim_choice start 2 (by decide) (by decide) 10 [3, 5, 3] hm
  have hval : ∀ k : Fin [3, 5, (3 : Page)].length,
      ((tgInit start 2 10).bind fun s => (run tgAccess s ([3, 5, 3].take k)).map fun p =>
        decide (NoAlias p.1 [3, 5, 3][k])) = some true := by
    decide
  obtain ⟨s', os, hrun, hc, -⟩ := h fun past page t os hp hrun => by
    obtain ⟨k, hk, rfl, rfl⟩ := exists_position hp
    have hv := hval ⟨k, hk⟩
    rw [show ((2 : ℕ) : ℤ) = 2 from rfl] at hs
    rw [hs, Option.bind_some, hrun] at hv
    simpa using hv
  exact ⟨by decide, by decide, hm, s, s', os, hs, hrun, hc⟩

end Tempograph.TgVictimPages
