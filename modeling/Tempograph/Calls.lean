import Tempograph.DemandPaging

/-!
Calls of a policy, in any order.

A policy has three entry points: initialise, access and reset. A program may call them as it
likes, as long as it does not access a policy that is not initialised. The run rule here says
what a policy needs so that all such programs get the answers of a replay.
-/

namespace Tempograph.Calls

open Common Runs Sim Renaming Paging DemandPaging

inductive Call
  | init (n_frames : ℕ)
  | access (page : Page)
  | reset
  deriving DecidableEq

/-- The frames, and the pages accessed since the policy was initialised. -/
abbrev Session := Option (ℕ × List Page)

def Session.step : Session → Call → Session
  | _, .init n => some (n, [])
  | some (n, tr), .access page => some (n, tr ++ [page])
  | none, .access _ => none
  | _, .reset => none

/-- The session that is open after the calls. -/
def session (calls : List Call) : Session := calls.foldl Session.step none

/-- There is at least one frame, and no access outside a session. -/
def Call.Allowed (session : Session) : Call → Prop
  | .init n => 1 ≤ n
  | .access _ => session ≠ none
  | .reset => True

instance (session : Session) : DecidablePred (Call.Allowed session)
  | .init n => inferInstanceAs (Decidable (1 ≤ n))
  | .access _ => inferInstanceAs (Decidable (session ≠ none))
  | .reset => inferInstanceAs (Decidable True)

def ValidFrom : Session → List Call → Prop
  | _, [] => True
  | session, call :: calls => call.Allowed session ∧ ValidFrom (session.step call) calls

def ValidFrom.decide : (session : Session) → (calls : List Call) →
    Decidable (ValidFrom session calls)
  | _, [] => inferInstanceAs (Decidable True)
  | session, call :: calls =>
    have := ValidFrom.decide (session.step call) calls
    inferInstanceAs (Decidable (_ ∧ _))

instance : DecidableRel ValidFrom := ValidFrom.decide

/-- Every call is allowed where it stands. -/
abbrev Valid (calls : List Call) : Prop := ValidFrom none calls

lemma ValidFrom.allowed {x : Session} {calls past : List Call} {call : Call}
    (h : ValidFrom x calls) (hp : past ++ [call] <+: calls) :
    call.Allowed (past.foldl Session.step x) := by
  induction past generalizing x calls with
  | nil =>
    obtain ⟨rest, rfl⟩ := hp
    exact h.1
  | cons c past ih =>
    obtain ⟨rest, rfl⟩ := hp
    exact ih h.2 ⟨rest, rfl⟩

/-- What the model of the policy answers in a pass of its own. -/
def answer (algo : Algo) (session : Session) : Call → Option Result
  | .access page =>
    match session with
    | none => none
    | some (n, tr) =>
      (answers Malloc.above start algo n defaultWindow (tr ++ [page])).bind List.getLast?
  | _ => none

@[simp] lemma session_snoc (calls : List Call) (call : Call) :
    session (calls ++ [call]) = (session calls).step call := List.foldl_append

variable {σ : Type*} {n : ℕ} {tr : List Page} {page : Page}

/-- The entry points of a policy that has the state `σ`. -/
structure Policy (σ : Type*) where
  init : σ → ℤ → Option σ
  access : σ → Page → Option (σ × Result)
  reset : σ → Option σ

def Policy.call (P : Policy σ) (s : σ) : Call → Option (σ × Option Result)
  | .init n => (P.init s n).map fun s => (s, none)
  | .access page => (P.access s page).map fun p => (p.1, some p.2)
  | .reset => (P.reset s).map fun s => (s, none)

/-- What holds of the state between the calls. -/
def Holds (Clean : σ → Prop) (Open : ℕ → List Page → σ → Prop) : Session → σ → Prop
  | none, s => Clean s
  | some (n, tr), s => 1 ≤ n ∧ Open n tr s

/-- **The rule of calls.** A policy that can always be initialised and reset, and that in a
session answers as its model, does so in every program. -/
theorem calls_run (P : Policy σ) (algo : Algo) {Clean : σ → Prop}
    {Open : ℕ → List Page → σ → Prop} {s₀ : σ} (h0 : Clean s₀)
    (hinit : ∀ x s n, Holds Clean Open x s → 1 ≤ n → ∃ s', P.init s (n : ℕ) = some s' ∧
      Open n [] s')
    (haccess : ∀ n tr s page, 1 ≤ n → Open n tr s → ∃ s' r, P.access s page = some (s', r) ∧
      Open n (tr ++ [page]) s' ∧ answer algo (some (n, tr)) (.access page) = some r)
    (hreset : ∀ x s, Holds Clean Open x s → ∃ s', P.reset s = some s' ∧ Clean s')
    {calls : List Call} (hv : Valid calls) :
    ∃ s os, run P.call s₀ calls = some (s, os) ∧ Holds Clean Open (session calls) s ∧
      ∀ k (hk : k < calls.length) (hk' : k < os.length),
        os[k] = answer algo (session (calls.take k)) calls[k] :=
  run_spec (I := fun past s => Holds Clean Open (session past) s)
    (O := fun past call r => r = answer algo (session past) call) calls h0
    fun past call s hp hi => by
      have hallowed : call.Allowed (session past) := hv.allowed hp
      rw [session_snoc]
      cases call with
      | init n =>
        obtain ⟨s', h1, h2⟩ := hinit _ s n hi hallowed
        exact ⟨s', none, by rw [Policy.call, h1]; rfl, ⟨hallowed, h2⟩, rfl⟩
      | access page =>
        obtain ⟨⟨n, tr⟩, hx⟩ := Option.ne_none_iff_exists'.mp hallowed
        rw [hx] at hi ⊢
        obtain ⟨s', r, h1, h2, h3⟩ := haccess n tr s page hi.1 hi.2
        exact ⟨s', some r, by rw [Policy.call, h1]; rfl, ⟨hi.1, h2⟩, h3.symm⟩
      | reset =>
        obtain ⟨s', h1, h2⟩ := hreset _ s hi
        refine ⟨s', none, by rw [Policy.call, h1]; rfl, ?_, rfl⟩
        cases session past <;> exact h2

/-- `malloc`, with the addresses `others` in use as well. -/
def beside (M : Malloc) (others : List ℕ) : Malloc where
  pick live := M.pick (live ++ others)
  fresh _ h := M.fresh _ (List.mem_append_left others h)

/-! ### The last answer of a replay -/

lemma getLast?_of_map {os : List Result} {bs : List Bool} {b : Bool}
    (h : os.map isHit = bs ++ [b]) : os.getLast? = some (if b then .hit else .fault) := by
  have hlast : (os.getLast?).map isHit = some b := by
    rw [← List.getLast?_map, h, List.getLast?_concat]
  obtain ⟨r, hr, e⟩ := Option.map_eq_some_iff.mp hlast
  rw [hr, ← e]
  cases r <;> rfl

lemma lru_answer (hn : 1 ≤ n) (tr : List Page) (page : Page) :
    answer .lru (some (n, tr)) (.access page) =
      some (if page ∈ (Recency.recency tr).take n then .hit else .fault) := by
  obtain ⟨os, ha, hos⟩ := lru_answers Malloc.above start hn defaultWindow (tr ++ [page])
  rw [lruHits_snoc] at hos
  simp only [answer, ha, Option.bind_some, getLast?_of_map hos, decide_eq_true_iff]

lemma arc_answer (hn : 1 ≤ n) (tr : List Page) (page : Page) :
    answer .arc (some (n, tr)) (.access page) =
      some (if ((ArcRuns.after n tr).access n page).2 then .hit else .fault) := by
  obtain ⟨os, ha, hos⟩ := arc_answers Malloc.above start hn defaultWindow (tr ++ [page])
  rw [results_append] at hos
  simp only [answer, ha, Option.bind_some, getLast?_of_map hos]
  rfl

end Tempograph.Calls
