import Mathlib.Data.Prod.Lex
import Mathlib.Tactic

/-!
The least of a list of candidates in one pass.

The search keeps the least key met so far and the candidate that has it; a candidate takes
over only if its key is smaller. It starts with a key and no candidate.
-/

namespace Tempograph.ArgMin

variable {ι κ : Type*} [LinearOrder κ]

/-- Look at one candidate. -/
def better (key : ι → κ) (b : κ × Option ι) (i : ι) : κ × Option ι :=
  if key i < b.1 then (key i, some i) else b

def search (key : ι → κ) (start : κ) (l : List ι) : κ × Option ι :=
  l.foldl (better key) (start, none)

variable {key : ι → κ} {start : κ} {l : List ι}

/-- The search ends as it began, with no smaller key in the list, or at the least key. -/
lemma foldl_better (key : ι → κ) (l : List ι) (b : κ × Option ι) :
    (l.foldl (better key) b = b ∧ ∀ i ∈ l, b.1 ≤ key i) ∨
      ∃ i ∈ l, l.foldl (better key) b = (key i, some i) ∧ key i < b.1 ∧
        ∀ j ∈ l, key i ≤ key j := by
  induction l generalizing b with
  | nil => exact Or.inl ⟨rfl, by simp⟩
  | cons a l ih =>
    rw [List.foldl_cons]
    by_cases ha : key a < b.1
    · have hb : better key b a = (key a, some a) := if_pos ha
      rw [hb]
      right
      rcases ih (key a, some a) with ⟨h, hle⟩ | ⟨i, hi, h, hlt, hle⟩
      · exact ⟨a, List.mem_cons_self, h, ha, List.forall_mem_cons.mpr ⟨le_rfl, hle⟩⟩
      · exact ⟨i, List.mem_cons_of_mem _ hi, h, hlt.trans ha,
          List.forall_mem_cons.mpr ⟨hlt.le, hle⟩⟩
    · have hb : better key b a = b := if_neg ha
      rw [hb]
      have hba := not_lt.mp ha
      rcases ih b with ⟨h, hle⟩ | ⟨i, hi, h, hlt, hle⟩
      · exact Or.inl ⟨h, List.forall_mem_cons.mpr ⟨hba, hle⟩⟩
      · exact Or.inr ⟨i, List.mem_cons_of_mem _ hi, h, hlt,
          List.forall_mem_cons.mpr ⟨hlt.le.trans hba, hle⟩⟩

/-- **The search finds a candidate with the least key** if some key is below the start. -/
theorem search_spec (h : ∃ i ∈ l, key i < start) :
    ∃ i ∈ l, search key start l = (key i, some i) ∧ ∀ j ∈ l, key i ≤ key j := by
  rcases foldl_better key l (start, none) with ⟨-, hle⟩ | ⟨i, hi, he, -, hle⟩
  · obtain ⟨j, hj, hlt⟩ := h
    exact absurd hlt (not_lt.mpr (hle j hj))
  · exact ⟨i, hi, he, hle⟩

/-- The search depends on the keys of the candidates only. -/
lemma search_congr {key' : ι → κ} (h : ∀ i ∈ l, key i = key' i) :
    search key start l = search key' start l := by
  unfold search
  refine List.foldl_ext _ _ _ fun b i hi => ?_
  simp only [better, h i hi]

/-- Renaming the candidates renames the one that is found. -/
lemma search_map {ι' : Type*} (g : ι → ι') (key : ι' → κ) (start : κ) (l : List ι) :
    (search key start (l.map g)).2 = (search (fun i => key (g i)) start l).2.map g := by
  have hhom : ∀ b i, better key (b.1, b.2.map g) (g i) =
      ((better (fun i => key (g i)) b i).1, (better (fun i => key (g i)) b i).2.map g) := by
    intro b i
    unfold better
    split_ifs <;> rfl
  have hfold := @List.foldl_hom _ _ _ (fun b : κ × Option ι => (b.1, b.2.map g))
    (better fun i => key (g i)) (fun b i => better key b (g i)) l (start, none) hhom
  unfold search
  rw [List.foldl_map]
  exact congrArg Prod.snd hfold

/-- The search that starts with a candidate. -/
def least (key : ι → κ) (a : ι) (l : List ι) : ι :=
  l.foldl (fun b i => if key i < key b then i else b) a

/-- **The search from a candidate finds one with the least key**, itself included. -/
theorem least_spec (key : ι → κ) (a : ι) (l : List ι) :
    least key a l ∈ a :: l ∧ ∀ i ∈ a :: l, key (least key a l) ≤ key i := by
  induction l generalizing a with
  | nil => exact ⟨List.mem_cons_self, by simp [least]⟩
  | cons i l ih =>
    unfold least
    rw [List.foldl_cons, ← least]
    by_cases hi : key i < key a
    · rw [if_pos hi]
      obtain ⟨h1, h2⟩ := ih i
      refine ⟨List.mem_cons_of_mem _ h1, List.forall_mem_cons.mpr ⟨?_, h2⟩⟩
      exact (h2 i List.mem_cons_self).trans hi.le
    · rw [if_neg hi]
      obtain ⟨h1, h2⟩ := ih a
      have ha := h2 a List.mem_cons_self
      refine ⟨?_, List.forall_mem_cons.mpr ⟨ha, List.forall_mem_cons.mpr ⟨?_, ?_⟩⟩⟩
      · rcases List.mem_cons.mp h1 with h | h
        · rw [h]; exact List.mem_cons_self
        · exact List.mem_cons_of_mem _ (List.mem_cons_of_mem _ h)
      · exact ha.trans (not_lt.mp hi)
      · exact fun j hj => h2 j (List.mem_cons_of_mem _ hj)

end Tempograph.ArgMin
