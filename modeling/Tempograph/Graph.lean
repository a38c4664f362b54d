import Tempograph.ArgMin
import Tempograph.Common

/-!
The co-occurrence graph of TempoGraph (`tempograph.c`, adjacency list and decay).

A node has up to `maxEdgesPerNode` slots for outgoing edges, of which the first `edgeCnt`
are live. Targets and weights are 16-bit, the counters 8-bit.
-/

namespace Tempograph.Graph

open Common

def maxEdgesPerNode : ℕ := 64
def decayShift : ℕ := 6

structure Edge where
  dst : ℕ
  w : ℕ
  deriving DecidableEq, Repr

structure Adj where
  edges : ℕ → ℕ → Edge
  edgeCnt : ℕ → ℕ

/-- The static arrays when the program starts. -/
def Adj.zero : Adj := ⟨fun _ _ => ⟨0, 0⟩, fun _ => 0⟩

/-- Write slot `i` of node `u`. -/
def Adj.set (g : Adj) (u i : ℕ) (e : Edge) : Adj :=
  { g with edges := Function.update g.edges u (Function.update (g.edges u) i e) }

/-- The slot of the edge `u → v`. -/
def adjGet (g : Adj) (u v : ℕ) : Option ℕ :=
  (List.range (g.edgeCnt u)).find? fun i => (g.edges u i).dst == v % 65536

/-- The slot with the lowest weight, the first of them. -/
def weakest (g : Adj) (u : ℕ) : ℕ :=
  (List.range' 1 (maxEdgesPerNode - 1)).foldl
    (fun mi i => if (g.edges u i).w < (g.edges u mi).w then i else mi) 0

def adjInc (g : Adj) (u v : ℕ) : Adj :=
  match adjGet g u v with
  | some i =>
    let e := g.edges u i
    if e.w < 65535 then g.set u i { e with w := e.w + 1 } else g
  | none =>
    let n := g.edgeCnt u
    if n < maxEdgesPerNode then
      { g.set u n ⟨v % 65536, 1⟩ with edgeCnt := Function.update g.edgeCnt u ((n + 1) % 256) }
    else g.set u (weakest g u) ⟨v % 65536, 1⟩

def adjWeight (g : Adj) (u v : ℕ) : ℕ :=
  match adjGet g u v with
  | some i => (g.edges u i).w
  | none => 0

def decay (w : ℕ) : ℕ := (w - w >>> decayShift) % 65536

/-- The loop of `apply_decay` over one node, at slot `i` with `r` slots to go; the slots and
the number of live ones. -/
def decayRow (row : ℕ → Edge) (i : ℕ) : ℕ → (ℕ → Edge) × ℕ
  | 0 => (row, i)
  | r + 1 =>
    let w := decay (row i).w
    if w = 0 then decayRow (Function.update row i (row (i + r))) i r
    else decayRow (Function.update row i { row i with w := w }) (i + 1) r

def applyDecay (g : Adj) : Adj where
  edges u := if u < maxUnique then (decayRow (g.edges u) 0 (g.edgeCnt u)).1 else g.edges u
  edgeCnt u :=
    if u < maxUnique then (decayRow (g.edges u) 0 (g.edgeCnt u)).2 % 256 else g.edgeCnt u

/-! ### Well-formed graphs -/

/-- The live edges of a node have different targets and weights that are not zero. -/
structure RowOk (row : ℕ → Edge) (n : ℕ) : Prop where
  le : n ≤ maxEdgesPerNode
  inj : ∀ i < n, ∀ j < n, (row i).dst = (row j).dst → i = j
  dst : ∀ i < n, (row i).dst < 65536
  w_pos : ∀ i < n, 1 ≤ (row i).w
  w_le : ∀ i < n, (row i).w ≤ 65535

def Ok (g : Adj) : Prop := ∀ u, RowOk (g.edges u) (g.edgeCnt u)

variable {g : Adj} {u v x i : ℕ}

/-- The targets of the live edges of `u`. -/
def targets (g : Adj) (u : ℕ) : Finset ℕ :=
  (Finset.range (g.edgeCnt u)).image fun i => (g.edges u i).dst

lemma ok_zero : Ok Adj.zero := fun u => by constructor <;> simp [Adj.zero]

lemma targets_zero (u : ℕ) : targets Adj.zero u = ∅ := by simp [targets, Adj.zero]

lemma card_targets (h : Ok g) (u : ℕ) : (targets g u).card = g.edgeCnt u := by
  unfold targets
  rw [Finset.card_image_of_injOn, Finset.card_range]
  intro i hi j hj e
  exact (h u).inj i (by simpa using hi) j (by simpa using hj) e

lemma adjGet_eq_some (h : Ok g) (hv : v < 65536) :
    adjGet g u v = some i ↔ i < g.edgeCnt u ∧ (g.edges u i).dst = v := by
  unfold adjGet
  rw [Nat.mod_eq_of_lt hv]
  constructor
  · intro hf
    have h1 := List.mem_of_find?_eq_some hf
    have h2 := List.find?_some hf
    exact ⟨by simpa using h1, by simpa using h2⟩
  · rintro ⟨hi, rfl⟩
    cases hf : (List.range (g.edgeCnt u)).find? _ with
    | none =>
      have := List.find?_eq_none.mp hf i (by simpa using hi)
      simp at this
    | some j =>
      have h1 : j < g.edgeCnt u := by simpa using List.mem_of_find?_eq_some hf
      have h2 : (g.edges u j).dst = (g.edges u i).dst := by simpa using List.find?_some hf
      rw [(h u).inj j h1 i hi h2]

lemma adjGet_eq_none (hv : v < 65536) : adjGet g u v = none ↔ v ∉ targets g u := by
  simp [adjGet, targets, Nat.mod_eq_of_lt hv]

lemma adjWeight_of_slot (h : Ok g) (hv : v < 65536) (hi : i < g.edgeCnt u)
    (hd : (g.edges u i).dst = v) : adjWeight g u v = (g.edges u i).w := by
  simp only [adjWeight, (adjGet_eq_some h hv).mpr ⟨hi, hd⟩]

lemma adjWeight_of_not_mem (hv : v < 65536) (h : v ∉ targets g u) : adjWeight g u v = 0 := by
  simp only [adjWeight, (adjGet_eq_none hv).mpr h]

lemma mem_targets : v ∈ targets g u ↔ ∃ i < g.edgeCnt u, (g.edges u i).dst = v := by
  simp [targets]

/-- The weights of a node are those of its live edges. -/
lemma adjWeight_congr {g' : Adj} {u' : ℕ} (he : g'.edges u' = g.edges u)
    (hn : g'.edgeCnt u' = g.edgeCnt u) (v : ℕ) : adjWeight g' u' v = adjWeight g u v := by
  simp only [adjWeight, adjGet, he, hn]

/-! ### Counting an occurrence -/

/-- Writing a slot, a live one or the next free one, with a target no other slot has. -/
lemma RowOk.write {row : ℕ → Edge} {n : ℕ} (h : RowOk row n) {e : Edge} (hi : i ≤ n)
    (hlt : i < maxEdgesPerNode) (hd : e.dst < 65536) (hw : 1 ≤ e.w ∧ e.w ≤ 65535)
    (hne : ∀ j < n, j ≠ i → (row j).dst ≠ e.dst) :
    RowOk (Function.update row i e) (max n (i + 1)) := by
  have hlive : ∀ j < max n (i + 1), j ≠ i → j < n := fun j hj hji => by omega
  have hall : ∀ P : Edge → Prop, P e → (∀ j < n, P (row j)) →
      ∀ j < max n (i + 1), P (Function.update row i e j) := by
    intro P he hrow j hj
    by_cases hji : j = i
    · subst hji; rwa [Function.update_self]
    · rw [Function.update_of_ne hji]; exact hrow j (hlive j hj hji)
  have hle := h.le
  refine ⟨by omega, fun j hj k hk => ?_, hall (·.dst < 65536) hd h.dst, hall (1 ≤ ·.w) hw.1 h.w_pos,
    hall (·.w ≤ 65535) hw.2 h.w_le⟩
  by_cases h1 : j = i <;> by_cases h2 : k = i
  · exact fun _ => h1.trans h2.symm
  · simp only [h1, Function.update_self, Function.update_of_ne h2]
    exact fun e => absurd e.symm (hne k (hlive k hk h2) h2)
  · simp only [h2, Function.update_self, Function.update_of_ne h1]
    exact fun e => absurd e (hne j (hlive j hj h1) h1)
  · simp only [Function.update_of_ne h1, Function.update_of_ne h2]
    exact h.inj j (hlive j hj h1) k (hlive k hk h2)

/-- The graph with slot `i` of node `u` written and at least `i + 1` slots of it live. -/
def put (g : Adj) (u i : ℕ) (e : Edge) : Adj :=
  { g.set u i e with edgeCnt := Function.update g.edgeCnt u (max (g.edgeCnt u) (i + 1)) }

lemma put_ok (h : Ok g) {e : Edge} (hi : i ≤ g.edgeCnt u) (hlt : i < maxEdgesPerNode)
    (hd : e.dst < 65536) (hw : 1 ≤ e.w ∧ e.w ≤ 65535)
    (hne : ∀ j < g.edgeCnt u, j ≠ i → (g.edges u j).dst ≠ e.dst) : Ok (put g u i e) := by
  intro x
  by_cases hx : x = u
  · subst hx
    simpa [put, Adj.set] using (h x).write hi hlt hd hw hne
  · simpa [put, Adj.set, hx] using h x

lemma put_row (g : Adj) (u i : ℕ) (e : Edge) :
    (put g u i e).edges u = Function.update (g.edges u) i e ∧
      (put g u i e).edgeCnt u = max (g.edgeCnt u) (i + 1) := by
  simp [put, Adj.set]

/-- The edge that stood in the slot is lost, unless it had the same target. -/
lemma put_targets (h : Ok g) {e : Edge} (hi : i ≤ g.edgeCnt u) :
    targets (put g u i e) u = insert e.dst
      ((targets g u).filter fun y => i < g.edgeCnt u → y ≠ (g.edges u i).dst) := by
  obtain ⟨hrow, hcnt⟩ := put_row g u i e
  ext y
  rw [Finset.mem_insert, Finset.mem_filter, mem_targets, mem_targets, hrow, hcnt]
  constructor
  · rintro ⟨j, hj, hjd⟩
    by_cases hji : j = i
    · rw [hji, Function.update_self] at hjd
      exact Or.inl hjd.symm
    · rw [Function.update_of_ne hji] at hjd
      refine Or.inr ⟨⟨j, by omega, hjd⟩, fun hlt e => hji ?_⟩
      exact (h u).inj j (by omega) i hlt (hjd.trans e)
  · rintro (rfl | ⟨⟨j, hj, hjd⟩, hy⟩)
    · exact ⟨i, by omega, by rw [Function.update_self]⟩
    · have hji : j ≠ i := by rintro rfl; exact hy hj hjd.symm
      exact ⟨j, by omega, by rwa [Function.update_of_ne hji]⟩

lemma put_weight (h : Ok g) {e : Edge} (hi : i ≤ g.edgeCnt u) (hlt : i < maxEdgesPerNode)
    (hd : e.dst < 65536) (hw : 1 ≤ e.w ∧ e.w ≤ 65535)
    (hne : ∀ j < g.edgeCnt u, j ≠ i → (g.edges u j).dst ≠ e.dst) {y : ℕ} (hy : y < 65536) :
    adjWeight (put g u i e) u y = if y = e.dst then e.w
      else if i < g.edgeCnt u ∧ y = (g.edges u i).dst then 0 else adjWeight g u y := by
  have hok := put_ok h hi hlt hd hw hne
  have htar := put_targets h (e := e) hi
  obtain ⟨hrow, hcnt⟩ := put_row g u i e
  by_cases hy' : y = e.dst
  · rw [if_pos hy', adjWeight_of_slot hok hy (i := i) (by omega) (by simp [hrow, hy'])]
    simp [hrow]
  · rw [if_neg hy']
    by_cases hm : y ∈ targets g u ∧ (i < g.edgeCnt u → y ≠ (g.edges u i).dst)
    · obtain ⟨j, hj, hjd⟩ := mem_targets.mp hm.1
      have hji : j ≠ i := by rintro rfl; exact hm.2 hj hjd.symm
      rw [if_neg (by tauto), adjWeight_of_slot h hy hj hjd, adjWeight_of_slot hok hy (i := j)
        (by omega) (by rwa [hrow, Function.update_of_ne hji]), hrow, Function.update_of_ne hji]
    · rw [adjWeight_of_not_mem hy (by rw [htar]; simp [hy']; tauto)]
      split_ifs with hc
      · rfl
      · exact (adjWeight_of_not_mem hy (by tauto)).symm

/-- With the edge there or a free slot for it, an occurrence writes one slot. -/
lemma adjInc_eq_put (h : Ok g) (hv : v < 65536)
    (hroom : v ∈ targets g u ∨ g.edgeCnt u < maxEdgesPerNode) :
    ∃ i, adjInc g u v = put g u i ⟨v, min (adjWeight g u v + 1) 65535⟩ ∧ i ≤ g.edgeCnt u ∧
      i < maxEdgesPerNode ∧ (∀ j < g.edgeCnt u, j ≠ i → (g.edges u j).dst ≠ v) ∧
      (i < g.edgeCnt u → (g.edges u i).dst = v) := by
  by_cases hm : v ∈ targets g u
  · obtain ⟨i, hi, hd⟩ := mem_targets.mp hm
    have hle := (h u).le
    have hw := (h u).w_le i hi
    refine ⟨i, ?_, hi.le, by omega, fun j hj hji e => hji ((h u).inj j hj i hi (e.trans hd.symm)),
      fun _ => hd⟩
    have hcnt : Function.update g.edgeCnt u (max (g.edgeCnt u) (i + 1)) = g.edgeCnt := by
      rw [Nat.max_eq_left hi, Function.update_eq_self]
    rw [adjWeight_of_slot h hv hi hd]
    simp only [adjInc, (adjGet_eq_some h hv).mpr ⟨hi, hd⟩, put]
    split_ifs with hlt
    · rw [hcnt, Nat.min_eq_left (by omega)]
      simp [Adj.set, hd]
    · -- a saturated edge is written as it is
      have he : (⟨v, min ((g.edges u i).w + 1) 65535⟩ : Edge) = g.edges u i := by
        rw [Nat.min_eq_right (by omega), ← hd, show 65535 = (g.edges u i).w by omega]
      rw [hcnt, he]
      simp [Adj.set]
  · have hlt := hroom.resolve_left hm
    refine ⟨g.edgeCnt u, ?_, le_rfl, hlt, fun j hj _ e => hm (mem_targets.mpr ⟨j, hj, e⟩),
      fun hh => absurd hh (Nat.lt_irrefl _)⟩
    rw [adjWeight_of_not_mem hv hm]
    have hmod : (g.edgeCnt u + 1) % 256 = g.edgeCnt u + 1 :=
      Nat.mod_eq_of_lt (by simp only [maxEdgesPerNode] at hlt; omega)
    simp only [adjInc, (adjGet_eq_none hv).mpr hm, if_pos hlt, put, Nat.mod_eq_of_lt hv, hmod]
    simp

/-- No other node sees an occurrence of `v` after `u`. -/
lemma adjInc_row_of_ne (hx : x ≠ u) (v : ℕ) :
    (adjInc g u v).edges x = g.edges x ∧ (adjInc g u v).edgeCnt x = g.edgeCnt x := by
  unfold adjInc
  cases adjGet g u v with
  | some i =>
    dsimp only
    split_ifs <;> simp [Adj.set, hx]
  | none =>
    dsimp only
    split_ifs <;> simp [Adj.set, hx]

/-- **One occurrence** of `v` after `u`: the weight of the edge goes up by one, up to the
largest 16-bit number, and all other weights stay. -/
theorem adjInc_spec (h : Ok g) (hv : v < 65536)
    (hroom : v ∈ targets g u ∨ g.edgeCnt u < maxEdgesPerNode) :
    Ok (adjInc g u v) ∧
      (∀ x, targets (adjInc g u v) x = if x = u then insert v (targets g u) else targets g x) ∧
      ∀ x y, y < 65536 → adjWeight (adjInc g u v) x y =
        if x = u ∧ y = v then min (adjWeight g u v + 1) 65535 else adjWeight g x y := by
  have hother (x : ℕ) (hx : x ≠ u) := adjInc_row_of_ne (g := g) hx v
  obtain ⟨i, he, hi, hlt, hne, hold⟩ := adjInc_eq_put h hv hroom
  refine ⟨?_, fun x => ?_, fun x y hy => ?_⟩
  · rw [he]
    exact put_ok h hi hlt hv (by simp) hne
  · by_cases hx : x = u
    · subst hx
      rw [if_pos rfl, he, put_targets h hi]
      ext y
      have : i < g.edgeCnt x → (g.edges x i).dst = v := hold
      simp only [Finset.mem_insert, Finset.mem_filter]
      by_cases hy : y = v
      · simp [hy]
      · simp only [hy, false_or, and_iff_left_iff_imp]
        rintro - hlt' rfl
        exact hy (this hlt')
    · rw [if_neg hx, targets, targets, (hother x hx).1, (hother x hx).2]
  · by_cases hx : x = u
    · subst hx
      rw [he, put_weight h hi hlt hv (by simp) hne hy]
      by_cases hy' : y = v
      · simp [hy']
      · have : ¬(i < g.edgeCnt x ∧ y = (g.edges x i).dst) := by
          rintro ⟨hlt', rfl⟩
          exact hy' (hold hlt')
        simp only [hy', and_false, if_false, if_neg this]
    · rw [if_neg (by tauto)]
      exact adjWeight_congr (hother x hx).1 (hother x hx).2 y

/-- The slot to give up has the lowest weight of all. -/
lemma weakest_spec (g : Adj) (u : ℕ) : weakest g u < maxEdgesPerNode ∧
    ∀ i < maxEdgesPerNode, (g.edges u (weakest g u)).w ≤ (g.edges u i).w := by
  have hmem : ∀ i, i ∈ 0 :: List.range' 1 (maxEdgesPerNode - 1) ↔ i < maxEdgesPerNode := by
    intro i
    rw [List.mem_cons, List.mem_range'_1]
    simp only [maxEdgesPerNode]
    omega
  obtain ⟨h1, h2⟩ := ArgMin.least_spec (fun i => (g.edges u i).w) 0
    (List.range' 1 (maxEdgesPerNode - 1))
  exact ⟨(hmem _).mp h1, fun i hi => h2 i ((hmem i).mpr hi)⟩

/-- **An occurrence that overflows the node** costs it one edge, none weaker than another. -/
theorem adjInc_overflow (h : Ok g) (hv : v < 65536) (hm : v ∉ targets g u)
    (hfull : ¬g.edgeCnt u < maxEdgesPerNode) :
    Ok (adjInc g u v) ∧ ∃ d ∈ targets g u,
      (∀ y ∈ targets g u, adjWeight g u d ≤ adjWeight g u y) ∧
      targets (adjInc g u v) u = insert v ((targets g u).erase d) ∧
      ∀ y < 65536, adjWeight (adjInc g u v) u y =
        if y = v then 1 else if y = d then 0 else adjWeight g u y := by
  have hle := (h u).le
  obtain ⟨hlt, hleast⟩ := weakest_spec g u
  obtain ⟨i, hi⟩ : ∃ i, i = weakest g u := ⟨_, rfl⟩
  rw [← hi] at hlt hleast
  have hin : i < g.edgeCnt u := by omega
  have hcnt : max (g.edgeCnt u) (i + 1) = g.edgeCnt u := by omega
  have he : adjInc g u v = put g u i ⟨v, 1⟩ := by
    simp only [adjInc, (adjGet_eq_none hv).mpr hm, if_neg hfull, put, ← hi, hcnt,
      Function.update_eq_self, Nat.mod_eq_of_lt hv, Adj.set]
  have hne : ∀ j < g.edgeCnt u, j ≠ i → (g.edges u j).dst ≠ (⟨v, 1⟩ : Edge).dst :=
    fun j hj _ e => hm (mem_targets.mpr ⟨j, hj, e⟩)
  have hd : (g.edges u i).dst ∈ targets g u := mem_targets.mpr ⟨i, hin, rfl⟩
  rw [he]
  refine ⟨put_ok h hin.le hlt hv (by simp) hne, _, hd, fun y hy => ?_, ?_, fun y hy => ?_⟩
  · obtain ⟨j, hj, rfl⟩ := mem_targets.mp hy
    rw [adjWeight_of_slot h ((h u).dst i hin) hin rfl, adjWeight_of_slot h ((h u).dst j hj) hj rfl]
    exact hleast j (by omega)
  · rw [put_targets h hin.le]
    ext y
    simp only [Finset.mem_insert, Finset.mem_filter, Finset.mem_erase]
    tauto
  · rw [put_weight h hin.le hlt hv (by simp) hne hy]
    simp only [hin, true_and]

/-! ### Decay -/

lemma decay_eq {w : ℕ} (h : w ≤ 65535) : decay w = w - w / 64 := by
  unfold decay decayShift
  rw [Nat.shiftRight_eq_div_pow]
  omega

/-- No live weight decays to zero: the sweep keeps every slot and decays it in place. -/
lemma decayRow_eq (row : ℕ → Edge) (i r : ℕ)
    (h : ∀ j, i ≤ j → j < i + r → 1 ≤ (row j).w ∧ (row j).w ≤ 65535) :
    (decayRow row i r).2 = i + r ∧ ∀ j, (decayRow row i r).1 j =
      if i ≤ j ∧ j < i + r then { row j with w := decay (row j).w } else row j := by
  induction r generalizing row i with
  | zero => exact ⟨rfl, fun j => by rw [if_neg (by omega)]; rfl⟩
  | succ r ih =>
    have hi := h i le_rfl (by omega)
    have hne : decay (row i).w ≠ 0 := by rw [decay_eq hi.2]; omega
    simp only [decayRow, if_neg hne]
    obtain ⟨h1, h2⟩ := ih (Function.update row i { row i with w := decay (row i).w }) (i + 1)
      fun j hj hj' => by
        rw [Function.update_of_ne (by omega)]
        exact h j (by omega) (by omega)
    refine ⟨by rw [h1]; omega, fun j => ?_⟩
    rw [h2 j]
    by_cases hji : j = i
    · subst hji
      rw [if_neg (by omega), if_pos (by omega), Function.update_self]
    · rw [Function.update_of_ne hji]
      exact if_congr (by omega) rfl rfl

lemma applyDecay_rows (h : Ok g) :
    (applyDecay g).edgeCnt = g.edgeCnt ∧ ∀ u i, (applyDecay g).edges u i =
      if u < maxUnique ∧ i < g.edgeCnt u then
        { g.edges u i with w := decay (g.edges u i).w } else g.edges u i := by
  have hrow (u : ℕ) := decayRow_eq (g.edges u) 0 (g.edgeCnt u) fun j _ hj =>
    ⟨(h u).w_pos j (by omega), (h u).w_le j (by omega)⟩
  have hle (u : ℕ) : g.edgeCnt u ≤ 64 := (h u).le
  constructor
  · funext u
    simp only [applyDecay, (hrow u).1]
    have := hle u
    split_ifs <;> omega
  · intro u i
    unfold applyDecay
    by_cases hu : u < maxUnique
    · simp [hu, (hrow u).2 i]
    · simp [hu]

/-- **A decay sweep** over a well-formed graph takes a 64th off every weight, rounded down,
and keeps every edge. -/
theorem applyDecay_spec (h : Ok g) :
    Ok (applyDecay g) ∧ (∀ u, targets (applyDecay g) u = targets g u) ∧
      ∀ u v, u < maxUnique → v < 65536 →
        adjWeight (applyDecay g) u v = adjWeight g u v - adjWeight g u v / 64 := by
  obtain ⟨hcnt, hrow⟩ := applyDecay_rows h
  have hdst : ∀ u i, ((applyDecay g).edges u i).dst = (g.edges u i).dst := by
    intro u i; rw [hrow]; split_ifs <;> rfl
  have hw : ∀ u i, i < g.edgeCnt u → 1 ≤ ((applyDecay g).edges u i).w ∧
      ((applyDecay g).edges u i).w ≤ 65535 := by
    intro u i hi
    have h1 := (h u).w_pos i hi
    have h2 := (h u).w_le i hi
    rw [hrow]
    split_ifs
    · simp only [decay_eq h2]; omega
    · exact ⟨h1, h2⟩
  have hok : Ok (applyDecay g) := by
    intro u
    refine ⟨?_, ?_, ?_, ?_, ?_⟩ <;> simp only [hcnt, hdst]
    · exact (h u).le
    · exact (h u).inj
    · exact (h u).dst
    · exact fun i hi => (hw u i hi).1
    · exact fun i hi => (hw u i hi).2
  have htar : ∀ u, targets (applyDecay g) u = targets g u := fun u => by
    simp [targets, hcnt, hdst]
  refine ⟨hok, htar, fun u v hu hv => ?_⟩
  by_cases hm : v ∈ targets g u
  · obtain ⟨i, hi, hd⟩ := mem_targets.mp hm
    rw [adjWeight_of_slot hok hv (i := i) (by rwa [hcnt]) (by rw [hdst, hd]),
      adjWeight_of_slot h hv hi hd, hrow, if_pos ⟨hu, hi⟩, decay_eq ((h u).w_le i hi)]
  · rw [adjWeight_of_not_mem hv (by rwa [htar]), adjWeight_of_not_mem hv hm]

/-! ### Weights of 16 bits -/

/-- No slot holds more than the largest 16-bit number, whether it is live or not. -/
def Light (g : Adj) : Prop := ∀ u i, (g.edges u i).w ≤ 65535

lemma light_zero : Light Adj.zero := fun _ _ => Nat.zero_le _

lemma Light.set (h : Light g) (u i : ℕ) {e : Edge} (he : e.w ≤ 65535) : Light (g.set u i e) := by
  intro x j
  simp only [Adj.set, Function.update_apply]
  split_ifs with hx
  · rw [Function.update_apply]
    split_ifs
    · exact he
    · exact h u j
  · exact h x j

lemma Light.adjInc (h : Light g) (u v : ℕ) : Light (adjInc g u v) := by
  unfold Graph.adjInc
  cases adjGet g u v with
  | some i =>
    dsimp only
    split_ifs
    · exact h.set u i (by simp only; omega)
    · exact h
  | none =>
    dsimp only
    split_ifs
    · exact h.set u _ (by simp)
    · exact h.set u _ (by simp)

lemma decayRow_le {row : ℕ → Edge} (h : ∀ j, (row j).w ≤ 65535) (i r : ℕ) :
    ∀ j, ((decayRow row i r).1 j).w ≤ 65535 := by
  induction r generalizing row i with
  | zero => exact h
  | succ r ih =>
    have hdecay : decay (row i).w ≤ 65535 := by unfold decay; omega
    unfold decayRow
    dsimp only
    split_ifs
    · refine ih (fun j => ?_) i
      rw [Function.update_apply]
      split_ifs
      · exact h _
      · exact h j
    · refine ih (fun j => ?_) (i + 1)
      rw [Function.update_apply]
      split_ifs
      · exact hdecay
      · exact h j

lemma Light.applyDecay (h : Light g) : Light (applyDecay g) := by
  intro u j
  simp only [Graph.applyDecay]
  split_ifs
  · exact decayRow_le (h u) 0 _ j
  · exact h u j

lemma Light.adjWeight (h : Light g) (u v : ℕ) : adjWeight g u v ≤ 65535 := by
  unfold Graph.adjWeight
  cases adjGet g u v with
  | some i => exact h u i
  | none => exact Nat.zero_le _

end Tempograph.Graph
