import Mathlib.Data.List.Basic
import Mathlib.Tactic

/-!
Runs of a partial step function over a list of inputs, with the outputs collected.

A step that returns `none` stops the run: the run then has no result. The rules here take
an invariant that also sees the inputs read so far, in the order they were read.
-/

namespace Tempograph.Runs

variable {σ τ ι ω : Type*}

/-- Read the inputs one by one; the final state and one output for each input. -/
def run (step : σ → ι → Option (σ × ω)) : σ → List ι → Option (σ × List ω)
  | s, [] => some (s, [])
  | s, i :: is =>
    match step s i with
    | none => none
    | some (s', o) =>
      match run step s' is with
      | none => none
      | some (s'', os) => some (s'', o :: os)

variable {f : σ → ι → Option (σ × ω)} {g : τ → ι → Option (τ × ω)}

@[simp] lemma run_nil (s : σ) : run f s [] = some (s, []) := rfl

lemma run_cons {s s' s'' : σ} {i : ι} {is : List ι} {o : ω} {os : List ω}
    (h : f s i = some (s', o)) (h' : run f s' is = some (s'', os)) :
    run f s (i :: is) = some (s'', o :: os) := by
  simp [run, h, h']

/-- A run over a first input and the rest is one step and a run over the rest. -/
lemma run_cons_inv {s s'' : σ} {i : ι} {is : List ι} {os : List ω}
    (h : run f s (i :: is) = some (s'', os)) :
    ∃ s' o os', f s i = some (s', o) ∧ run f s' is = some (s'', os') ∧ os = o :: os' := by
  cases hs : f s i with
  | none => simp [run, hs] at h
  | some p =>
    obtain ⟨t, o⟩ := p
    cases hr : run f t is with
    | none => simp [run, hs, hr] at h
    | some q =>
      obtain ⟨u, us⟩ := q
      simp only [run, hs, hr, Option.some.injEq, Prod.mk.injEq] at h
      obtain ⟨rfl, rfl⟩ := h
      exact ⟨t, o, us, rfl, hr, rfl⟩

lemma run_append {s s' s'' : σ} {is js : List ι} {os os' : List ω}
    (h : run f s is = some (s', os)) (h' : run f s' js = some (s'', os')) :
    run f s (is ++ js) = some (s'', os ++ os') := by
  induction is generalizing s os with
  | nil =>
    obtain ⟨rfl, rfl⟩ : s = s' ∧ [] = os := by simpa using h
    simpa using h'
  | cons i is ih =>
    obtain ⟨t, o, us, hs, hr, rfl⟩ := run_cons_inv h
    exact run_cons hs (ih hr)

lemma run_snoc {s s' s'' : σ} {is : List ι} {i : ι} {os : List ω} {o : ω}
    (h : run f s is = some (s', os)) (h' : f s' i = some (s'', o)) :
    run f s (is ++ [i]) = some (s'', os ++ [o]) :=
  run_append h (run_cons h' rfl)

lemma run_length {s s' : σ} {is : List ι} {os : List ω}
    (h : run f s is = some (s', os)) : os.length = is.length := by
  induction is generalizing s os with
  | nil =>
    obtain ⟨-, rfl⟩ : s = s' ∧ [] = os := by simpa using h
    rfl
  | cons i is ih =>
    obtain ⟨t, o, us, -, hr, rfl⟩ := run_cons_inv h
    simp [ih hr]

/-- A run over inputs and more inputs is a run over each. -/
lemma run_append_inv {s s'' : σ} {is js : List ι} {os : List ω}
    (h : run f s (is ++ js) = some (s'', os)) :
    ∃ s' os₁ os₂, run f s is = some (s', os₁) ∧ run f s' js = some (s'', os₂) ∧
      os = os₁ ++ os₂ := by
  induction is generalizing s os with
  | nil => exact ⟨s, [], os, rfl, h, rfl⟩
  | cons i is ih =>
    obtain ⟨t, o, us, hs, hr, rfl⟩ := run_cons_inv h
    obtain ⟨s', os₁, os₂, h1, h2, rfl⟩ := ih hr
    exact ⟨s', o :: os₁, os₂, run_cons hs h1, h2, rfl⟩

/-- Steps that work on a part of the state run on that part. -/
lemma run_part {v : σ → τ} {w : σ → τ → σ} (hvw : ∀ s t, v (w s t) = t)
    (hww : ∀ s t t', w (w s t) t' = w s t') (hwv : ∀ s, w s (v s) = s)
    (hstep : ∀ s i, f s i = (g (v s) i).map fun p => (w s p.1, p.2)) (s : σ)
    (is : List ι) :
    run f s is = (run g (v s) is).map fun p => (w s p.1, p.2) := by
  induction is generalizing s with
  | nil => simp [hwv]
  | cons i is ih =>
    cases ht : g (v s) i with
    | none => simp [run, hstep, ht]
    | some p =>
      obtain ⟨t, o⟩ := p
      have hi := ih (w s t)
      rw [hvw] at hi
      cases hr : run g t is with
      | none => simp [run, hstep, ht, hi, hr]
      | some q => simp [run, hstep, ht, hi, hr, hww]

/-- A map of states and inputs that commutes with the steps commutes with the runs. -/
lemma run_map {κ : Type*} {g : τ → κ → Option (τ × ω)} {φ : σ → τ} {ψ : ι → κ}
    (h : ∀ s i, g (φ s) (ψ i) = (f s i).map fun p => (φ p.1, p.2)) (s : σ) (is : List ι) :
    run g (φ s) (is.map ψ) = (run f s is).map fun p => (φ p.1, p.2) := by
  induction is generalizing s with
  | nil => rfl
  | cons i is ih =>
    rw [List.map_cons, run, run, h]
    cases f s i with
    | none => rfl
    | some p =>
      obtain ⟨t, o⟩ := p
      simp only [Option.map_some, ih t]
      cases run f t is <;> rfl

/-- Steps that read their inputs through a map. -/
lemma run_comap {κ : Type*} {g : τ → κ → Option (τ × ω)} (ψ : ι → κ) (t : τ) (is : List ι) :
    run (fun t i => g t (ψ i)) t is = run g t (is.map ψ) := by
  have h := run_map (f := fun t i => g t (ψ i)) (g := g) (φ := id) (ψ := ψ)
    (fun s i => by cases h : g s (ψ i) <;> simp [h]) t is
  cases hr : run (fun t i => g t (ψ i)) t is with
  | none => simpa [hr] using h.symm
  | some p => simpa [hr] using h.symm

/-- The outputs of a run. -/
def outputs (f : σ → ι → Option (σ × ω)) (s : σ) (is : List ι) : Option (List ω) :=
  (run f s is).map Prod.snd

lemma outputs_eq {s s' : σ} {is : List ι} {os : List ω} (h : run f s is = some (s', os)) :
    outputs f s is = some os := by
  simp [outputs, h]

/-- The outputs of a step function that is defined everywhere. -/
def results (f : σ → ι → σ × ω) : σ → List ι → List ω
  | _, [] => []
  | s, i :: is => (f s i).2 :: results f (f s i).1 is

lemma results_map {κ : Type*} {f : σ → ι → σ × ω} {g : τ → κ → τ × ω} {φ : σ → τ} {ψ : ι → κ}
    (h : ∀ s i, g (φ s) (ψ i) = (φ (f s i).1, (f s i).2)) (s : σ) (is : List ι) :
    results g (φ s) (is.map ψ) = results f s is := by
  induction is generalizing s with
  | nil => rfl
  | cons i is ih => rw [List.map_cons, results, results, h, ih]

/-- Its final state. -/
def final (f : σ → ι → σ × ω) (s : σ) (is : List ι) : σ := is.foldl (fun s i => (f s i).1) s

lemma run_total (f : σ → ι → σ × ω) (s : σ) (is : List ι) :
    run (fun s i => some (f s i)) s is = some (final f s is, results f s is) := by
  induction is generalizing s with
  | nil => rfl
  | cons i is ih => exact run_cons rfl (ih _)

lemma final_append (f : σ → ι → σ × ω) (s : σ) (is js : List ι) :
    final f s (is ++ js) = final f (final f s is) js := List.foldl_append

lemma results_append (f : σ → ι → σ × ω) (s : σ) (is js : List ι) :
    results f s (is ++ js) = results f s is ++ results f (final f s is) js := by
  induction is generalizing s with
  | nil => rfl
  | cons i is ih => simp [results, final, ih]

/-- An input and those read before it, by its position. -/
lemma exists_position {past is : List ι} {i : ι} (h : past ++ [i] <+: is) :
    ∃ k, ∃ hk : k < is.length, past = is.take k ∧ i = is[k] := by
  obtain ⟨rest, rfl⟩ := h
  exact ⟨past.length, by simp, by simp, by simp⟩

/-- **The run rule.** An invariant of the inputs read so far and the state, kept by every
step that reads a prefix of the whole input, holds at the end; no step is undefined, and
what each step says of its output holds of the outputs collected. -/
theorem run_spec {I : List ι → σ → Prop} {O : List ι → ι → ω → Prop} {s₀ : σ}
    (is : List ι) (h0 : I [] s₀)
    (hstep : ∀ past i s, past ++ [i] <+: is → I past s →
      ∃ s' o, f s i = some (s', o) ∧ I (past ++ [i]) s' ∧ O past i o) :
    ∃ s os, run f s₀ is = some (s, os) ∧ I is s ∧
      ∀ k (hk : k < is.length) (hk' : k < os.length), O (is.take k) is[k] os[k] := by
  induction is using List.reverseRecOn with
  | nil => exact ⟨s₀, [], rfl, h0, by simp⟩
  | append_singleton is i ih =>
    obtain ⟨s, os, hrun, hinv, hout⟩ := ih fun past j s hp =>
      hstep past j s (hp.trans (List.prefix_append _ _))
    obtain ⟨s', o, hs, hinv', ho⟩ := hstep is i s (List.prefix_refl _) hinv
    refine ⟨s', os ++ [o], run_snoc hrun hs, hinv', fun k hk hk' => ?_⟩
    have hlen := run_length hrun
    rcases Nat.lt_or_ge k is.length with h1 | h1
    · have h2 : k < os.length := by omega
      simpa [List.take_append_of_le_length h1.le, List.getElem_append_left h1,
        List.getElem_append_left h2] using hout k h1 h2
    · have h2 : k = is.length := by simp at hk; omega
      subst h2
      simpa [List.getElem_append_right, hlen] using ho

/-- The run rule when only the invariant is wanted. -/
theorem run_inv {I : List ι → σ → Prop} {s₀ : σ} (is : List ι) (h0 : I [] s₀)
    (hstep : ∀ past i s, past ++ [i] <+: is → I past s →
      ∃ s' o, f s i = some (s', o) ∧ I (past ++ [i]) s') :
    ∃ s os, run f s₀ is = some (s, os) ∧ I is s := by
  obtain ⟨s, os, h, hinv, -⟩ := run_spec (O := fun _ _ _ => True) is h0
    fun past i s hp hi => by
      obtain ⟨s', o, h1, h2⟩ := hstep past i s hp hi
      exact ⟨s', o, h1, h2, trivial⟩
  exact ⟨s, os, h, hinv⟩

/-- The run rule for what every step that is defined keeps. -/
theorem run_keeps {I : σ → Prop} {s s' : σ} {is : List ι} {os : List ω}
    (h : run f s is = some (s', os)) (h0 : I s)
    (hstep : ∀ s i s' o, I s → f s i = some (s', o) → I s') : I s' := by
  induction is generalizing s os with
  | nil =>
    obtain ⟨rfl, -⟩ : s = s' ∧ [] = os := by simpa using h
    exact h0
  | cons i is ih =>
    obtain ⟨t, o, us, hs, hr, -⟩ := run_cons_inv h
    exact ih hr (hstep s i t o h0 hs)

/-- The run rule with an invariant that also sees the outputs so far. -/
theorem run_hist {I : List (ι × ω) → σ → Prop} {s₀ : σ} (is : List ι) (h0 : I [] s₀)
    (hstep : ∀ past i s, past.map Prod.fst ++ [i] <+: is → I past s →
      ∃ s' o, f s i = some (s', o) ∧ I (past ++ [(i, o)]) s') :
    ∃ s os, run f s₀ is = some (s, os) ∧ I (is.zip os) s := by
  induction is using List.reverseRecOn with
  | nil => exact ⟨s₀, [], rfl, h0⟩
  | append_singleton is i ih =>
    obtain ⟨s, os, hrun, hinv⟩ := ih fun past j s hp =>
      hstep past j s (hp.trans (List.prefix_append _ _))
    have hlen := run_length hrun
    have hfst : (is.zip os).map Prod.fst = is := List.map_fst_zip hlen.ge
    obtain ⟨s', o, hs, hinv'⟩ := hstep (is.zip os) i s (by rw [hfst]) hinv
    refine ⟨s', os ++ [o], run_snoc hrun hs, ?_⟩
    rwa [List.zip_append hlen.symm]

/-- **The simulation rule.** Two step functions whose steps keep a relation and agree on
their outputs have runs with the same outputs. -/
theorem run_sim {R : List ι → σ → τ → Prop} {s₀ : σ} {t₀ : τ} (is : List ι) (h0 : R [] s₀ t₀)
    (hstep : ∀ past i s t, past ++ [i] <+: is → R past s t →
      ∃ s' t' o, f s i = some (s', o) ∧ g t i = some (t', o) ∧ R (past ++ [i]) s' t') :
    ∃ s t os, run f s₀ is = some (s, os) ∧ run g t₀ is = some (t, os) ∧ R is s t := by
  induction is using List.reverseRecOn with
  | nil => exact ⟨s₀, t₀, [], rfl, rfl, h0⟩
  | append_singleton is i ih =>
    obtain ⟨s, t, os, hs, ht, hr⟩ := ih fun past j s t hp =>
      hstep past j s t (hp.trans (List.prefix_append _ _))
    obtain ⟨s', t', o, hs', ht', hr'⟩ := hstep is i s t (List.prefix_refl _) hr
    exact ⟨s', t', os ++ [o], run_snoc hs hs', run_snoc ht ht', hr'⟩

end Tempograph.Runs
