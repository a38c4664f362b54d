import Tempograph.ArcRuns

/-!
What holds of the nodes, lists and hash map of `arc.c` after every trace, and why no access
fails.

An access takes the tail of a list, divides by the size of a ghost list and unlinks a ghost
that it met before an eviction. `ops` lists these operations with the state each is carried
out in; an access is undefined exactly if one of them is.
-/

namespace Tempograph.ArcSafe

open Common LinkedList Recency Runs Arc ArcLists ArcRefine ArcDirectory ArcRuns

variable {M : Malloc} {c : ℕ} {s : State} {nd : ListId → List ℕ} {page : Page} {n : ℕ}
  {l : ListId} {in_b2 : Bool}

/-! ### The operations of an access -/

/-- What an access does that a wrong state would make undefined, or would make break a
list. -/
inductive Op
  /-- `dlPopTail`, the result dereferenced. -/
  | pop (s : State) (l : ListId)
  | divide (divisor : ℤ)
  /-- `dlRemove` of a ghost. -/
  | unlink (s : State) (l : ListId) (n : ℕ)

/-- No null pointer is dereferenced and nothing is divided by zero. -/
def Op.Defined : Op → Prop
  | .pop s l => (s.lists l).ends.tail ≠ none
  | .divide divisor => divisor ≠ 0
  | .unlink _ _ _ => True

/-- The list taken from has a node, the divisor is not zero, the ghost is in its list. -/
def Op.Safe : Op → Prop
  | .pop s l => walk s l ≠ [] ∧ (s.lists l).ends.tail ≠ none
  | .divide divisor => divisor ≠ 0
  | .unlink s l n => n ∈ walk s l

lemma Op.Safe.defined {op : Op} (h : op.Safe) : op.Defined := by
  cases op with
  | pop s l => exact h.2
  | divide divisor => exact h
  | unlink s l n => trivial

/-- The list that `arcReplace` takes from. -/
def replaceFrom (s : State) (in_b2 : Bool) : ListId :=
  let t1_size := (s.lists .t1).size
  if t1_size > 0 ∧ (t1_size > s.p ∨ in_b2 = true ∧ t1_size = s.p) then .t1 else .t2

/-- The division of `delta`. -/
def deltaOps (own other : ℤ) : List Op := if own ≥ other then [] else [.divide own]

/-- The operations of `forget` and then `arcReplace`. -/
def forgetOps (s : State) (l : ListId) : List Op :=
  .pop s l ::
    match forget s l with
    | none => []
    | some s => [.pop s (replaceFrom s false)]

/-- The operations of `arcReplace` and then the removal of the ghost `n`. -/
def recallOps (s : State) (l : ListId) (n : ℕ) (in_b2 : Bool) : List Op :=
  .pop s (replaceFrom s in_b2) ::
    match arcReplace s in_b2 with
    | none => []
    | some s => [.unlink s l n]

def makeRoomOps (s : State) : List Op :=
  let t1_len := (s.lists .t1).size + (s.lists .b1).size
  let total := t1_len + (s.lists .t2).size + (s.lists .b2).size
  if t1_len = s.c then
    if (s.lists .t1).size < s.c then forgetOps s .b1 else [.pop s .t1]
  else if t1_len < s.c ∧ total ≥ s.c then
    if total ≥ 2 * s.c ∧ (s.lists .b2).size > 0 then forgetOps s .b2
    else [.pop s (replaceFrom s false)]
  else []

/-- The operations of an access, in order, each in the state it is carried out in. -/
def ops (s : State) (page : Page) : List Op :=
  match ahmGet s page with
  | some n =>
    match s.list n with
    | .t1 => []
    | .t2 => []
    | .b1 => deltaOps (s.lists .b1).size (s.lists .b2).size ++
      match delta (s.lists .b1).size (s.lists .b2).size with
      | none => []
      | some d => recallOps (setP s (if s.p + d < s.c then s.p + d else s.c)) .b1 n false
    | .b2 => deltaOps (s.lists .b2).size (s.lists .b1).size ++
      match delta (s.lists .b2).size (s.lists .b1).size with
      | none => []
      | some d => recallOps (setP s (if s.p - d > 0 then s.p - d else 0)) .b2 n true
  | none => makeRoomOps s

/-! ### An access is undefined if one of its operations is -/

/-- One of the operations is undefined. -/
def Fails (os : List Op) : Prop := ∃ op ∈ os, ¬op.Defined

variable {op : Op} {os os' : List Op}

@[simp] lemma fails_nil : ¬Fails [] := by simp [Fails]

@[simp] lemma fails_cons : Fails (op :: os) ↔ ¬op.Defined ∨ Fails os := by simp [Fails]

@[simp] lemma fails_append : Fails (os ++ os') ↔ Fails os ∨ Fails os' := by
  simp [Fails, or_and_right, exists_or]

lemma pop_eq_none : dlPopTail s l = none ↔ ¬(Op.pop s l).Defined := by
  unfold dlPopTail
  cases h : (s.lists l).ends.tail <;> simp [Op.Defined, h]

lemma demote_eq_none {g : ListId} : demote s l g = none ↔ ¬(Op.pop s l).Defined := by
  rw [← pop_eq_none]
  unfold demote
  cases dlPopTail s l <;> simp

lemma forget_eq_none : forget s l = none ↔ ¬(Op.pop s l).Defined := by
  rw [← pop_eq_none]
  unfold forget
  cases dlPopTail s l <;> simp

lemma replace_eq_none :
    arcReplace s in_b2 = none ↔ ¬(Op.pop s (replaceFrom s in_b2)).Defined := by
  unfold arcReplace replaceFrom
  dsimp only
  split_ifs <;> exact demote_eq_none

lemma delta_eq_none {own other : ℤ} : delta own other = none ↔ Fails (deltaOps own other) := by
  unfold delta deltaOps
  split_ifs <;> simp_all [Op.Defined]

/-- Eviction after a tail was forgotten. -/
lemma forgetOps_fails : (match forget s l with
    | none => none
    | some s => arcReplace s false) = none ↔ Fails (forgetOps s l) := by
  have hpop := forget_eq_none (s := s) (l := l)
  unfold forgetOps
  cases hf : forget s l with
  | none => simp [hpop.mp hf]
  | some s' =>
    have hdef : (Op.pop s l).Defined := by
      by_contra hn
      rw [hpop.mpr hn] at hf
      cases hf
    simp [hdef, replace_eq_none]

lemma makeRoom_eq_none : makeRoom s = none ↔ Fails (makeRoomOps s) := by
  unfold makeRoom makeRoomOps
  dsimp only
  split_ifs
  · exact forgetOps_fails
  · simp [forget_eq_none]
  · exact forgetOps_fails
  · simp [replace_eq_none]
  · simp

/-- Eviction before a ghost is promoted. -/
lemma recallOps_fails : arcReplace s in_b2 = none ↔ Fails (recallOps s l n in_b2) := by
  have hrep : arcReplace s in_b2 = none ↔ ¬(Op.pop s (replaceFrom s in_b2)).Defined :=
    replace_eq_none
  unfold recallOps
  cases hr : arcReplace s in_b2 with
  | none => simp [hrep.mp hr]
  | some s' =>
    have hdef : (Op.pop s (replaceFrom s in_b2)).Defined := by
      by_contra hn
      rw [hrep.mpr hn] at hr
      cases hr
    have hunlink : (Op.unlink s' l n).Defined := trivial
    simp [hdef, hunlink]

/-- A ghost hit: the target moves by `delta`, then the ghost is called back. -/
lemma ghostOps_fails {own other : ℤ} {f : ℤ → State} {g : State → State × Result} :
    (match delta own other with
      | none => none
      | some d =>
        match arcReplace (f d) in_b2 with
        | none => none
        | some s => some (g s)) = none ↔
      Fails (deltaOps own other ++
        match delta own other with
        | none => []
        | some d => recallOps (f d) l n in_b2) := by
  have hd : delta own other = none ↔ Fails (deltaOps own other) := delta_eq_none
  rw [fails_append, ← hd]
  cases delta own other with
  | none => simp
  | some d =>
    simp only [reduceCtorEq, false_or, ← recallOps_fails]
    cases arcReplace (f d) in_b2 <;> simp

/-- **An access is undefined exactly if one of its operations is.** -/
theorem access_eq_none (M : Malloc) (s : State) (page : Page) :
    arcAccess M s page = none ↔ Fails (ops s page) := by
  unfold arcAccess ops
  cases ahmGet s page with
  | none =>
    simp only [← makeRoom_eq_none]
    cases makeRoom s <;> simp
  | some n =>
    dsimp only
    cases s.list n with
    | t1 => simp
    | t2 => simp
    | b1 => exact ghostOps_fails
    | b2 => exact ghostOps_fails

/-! ### Every operation is safe -/

/-- The list has a node to take. -/
lemma pop_safe (h : Rep c s nd) (hne : nd l ≠ []) : (Op.pop s l).Safe := by
  obtain ⟨r, v, -, htail, -⟩ := tail_spec h hne
  refine ⟨?_, ?_⟩
  · rwa [walk_eq h]
  · rw [htail]
    exact Option.some_ne_none v

/-- An eviction takes from a list with a node. -/
lemma replace_safe (h : Rep c s nd) (hcan : CanReplace c (abs s nd) in_b2) :
    (Op.pop s (replaceFrom s in_b2)).Safe := by
  apply pop_safe h
  unfold replaceFrom
  simp only [← abs_fromT1 h]
  split_ifs with hf
  · exact fun e => CanReplace.t1_ne_nil hf (by simp [ArcRefine.abs, e])
  · exact fun e => hcan.t2_ne_nil hf (by simp [ArcRefine.abs, e])

/-- So does an eviction after a tail was forgotten. -/
lemma forget_safe (h : Rep c s nd) (hne : nd l ≠ [])
    (hcan : ∀ r v s', nd l = r ++ [v] → s'.page = s.page → s'.p = s.p →
      CanReplace c (abs s' (Function.update nd l r)) false) :
    ∀ op ∈ forgetOps s l, op.Safe := by
  obtain ⟨s', r, v, hf, hl, hr, hpage, hp⟩ := forget_spec h hne
  intro op hop
  rw [forgetOps, hf, List.mem_cons, List.mem_singleton] at hop
  rcases hop with rfl | rfl
  · exact pop_safe h hne
  · exact replace_safe hr (hcan r v s' hl hpage hp)

/-- A ghost stays in its list through the eviction. -/
lemma recall_safe (h : Rep c s nd) (hcan : CanReplace c (abs s nd) in_b2) (hn : n ∈ nd l)
    (hl : l = .b1 ∨ l = .b2) : ∀ op ∈ recallOps s l n in_b2, op.Safe := by
  obtain ⟨s', nd', he, hr, -, -, hsub1, hsub2⟩ := replace_spec h hcan
  intro op hop
  rw [recallOps, he, List.mem_cons, List.mem_singleton] at hop
  rcases hop with rfl | rfl
  · exact replace_safe h hcan
  · show n ∈ walk s' l
    rw [walk_eq hr]
    rcases hl with rfl | rfl
    · exact hsub1 hn
    · exact hsub2 hn

lemma deltaOps_safe {own other : ℤ} (h : own ≠ 0) : ∀ op ∈ deltaOps own other, op.Safe := by
  unfold deltaOps
  split_ifs
  · simp
  · simpa [Op.Safe] using h

lemma makeRoom_safe (hc : 1 ≤ c) (h : Rep c s nd) (hs : Sizes c (abs s nd)) :
    ∀ op ∈ makeRoomOps s, op.Safe := by
  obtain ⟨e1, e2, e3, e4⟩ := room_tests h
  unfold makeRoomOps
  simp only [e1, e2, e3, e4]
  split_ifs with h1 h2 h3 h4
  · obtain ⟨hb, hcan⟩ := hs.forget_b1 hc h1 h2
    apply forget_safe h (fun e => hb (by simp [ArcRefine.abs, e]))
    intro r v s' hl hpage hp
    rwa [abs_b1 hl hpage hp]
  · have hne : nd .t1 ≠ [] := fun e => by
      simp only [ArcRefine.abs, e, List.map_nil, List.length_nil] at h1 h2
      omega
    simpa using pop_safe h hne
  · obtain ⟨hb, hcan⟩ := hs.forget_b2 hc h3.1 h4.2
    apply forget_safe h (fun e => hb (by simp [ArcRefine.abs, e]))
    intro r v s' hl hpage hp
    rwa [abs_b2 hl hpage hp]
  · simpa using replace_safe h (hs.canReplace hc h3.1 h3.2)
  · simp

/-- Every operation of every access is safe. -/
lemma ops_safe (hc : 1 ≤ c) (h : Rep c s nd) (hs : Sizes c (abs s nd)) (page : Page) :
    ∀ op ∈ ops s page, op.Safe := by
  unfold ops
  cases hg : ahmGet s page with
  | none => exact makeRoom_safe hc h hs
  | some n =>
    obtain ⟨⟨i, hn⟩, rfl⟩ := (h.get page n).mp hg
    have hx : s.page n ∈ (nd i).map s.page := List.mem_map_of_mem hn
    have hpos : (s.lists i).size ≠ 0 := by
      have := List.length_pos_of_mem hn
      rw [h.size i]
      omega
    simp only [h.tag i n hn]
    cases i with
    | t1 => simp
    | t2 => simp
    | b1 =>
      obtain ⟨d, hd, ha⟩ := raised h hx
      obtain ⟨hcan, -⟩ := hs.raise hc hx
      rw [← ha] at hcan
      simp only [hd, List.mem_append]
      rintro op (hop | hop)
      · exact deltaOps_safe hpos op hop
      · exact recall_safe (h.setP _) hcan hn (Or.inl rfl) op hop
    | b2 =>
      obtain ⟨d, hd, ha⟩ := lowered h hx
      obtain ⟨hcan, -⟩ := hs.lower hc hx
      rw [← ha] at hcan
      simp only [hd, List.mem_append]
      rintro op (hop | hop)
      · exact deltaOps_safe hpos op hop
      · exact recall_safe (h.setP _) hcan hn (Or.inr rfl) op hop

/-- **No access takes from an empty list**, divides by zero or unlinks a ghost from a list
that it is not in: after every trace, whatever page is accessed next. -/
theorem never_empty (M : Malloc) (s₀ : State) (c : ℕ) (hc : 1 ≤ c) (tr : List Page) :
    ∃ s os, run (arcAccess M) (arcInit s₀ c) tr = some (s, os) ∧
      ∀ page, (∀ op ∈ ops s page, op.Safe) ∧ ∃ s' r, arcAccess M s page = some (s', r) := by
  obtain ⟨s, nd, hrun, hr, ha⟩ := run_after M s₀ hc tr
  have hs : Sizes c (abs s nd) := ha ▸ sizes_after hc tr
  refine ⟨s, _, hrun, fun page => ⟨ops_safe hc hr hs page, ?_⟩⟩
  cases he : arcAccess M s page with
  | none =>
    obtain ⟨op, hop, hn⟩ := (access_eq_none M s page).mp he
    exact absurd (ops_safe hc hr hs page op hop).defined hn
  | some p => exact ⟨p.1, p.2, rfl⟩

/-- The theorem at one frame and a trace after which `T2` is empty and `B2` is not. -/
theorem never_empty_one :
    1 ≤ 1 ∧ ∃ (s : State) (os : List Result),
      run (arcAccess Malloc.above) (arcInit start 1) [1, 1, 2] = some (s, os) ∧
        ∀ page, ∀ op ∈ ops s page, op.Safe := by
  obtain ⟨s, os, h, hsafe⟩ := never_empty Malloc.above start 1 le_rfl [1, 1, 2]
  exact ⟨le_rfl, s, os, h, fun page => (hsafe page).1⟩

/-! ### Nodes, lists and hash map -/

/-- The lists, the `list` fields, the links and the hash map agree. -/
structure Coherent (s : State) : Prop where
  /-- No page is in the lists twice. -/
  once : (pages s .t1 ++ pages s .b1 ++ (pages s .t2 ++ pages s .b2)).Nodup
  tag : ∀ i, ∀ n ∈ walk s i, s.list n = i
  size : ∀ i, (s.lists i).size = (walk s i).length
  /-- From the head the `next` links lead through the list and end. -/
  next : ∀ i m, (walk s i).length ≤ m → follow s.links.next m (s.lists i).ends.head = walk s i
  /-- From the tail the `prev` links lead back and end. -/
  prev : ∀ i m, (walk s i).length ≤ m →
    follow s.links.prev m (s.lists i).ends.tail = (walk s i).reverse
  get : ∀ q n, ahmGet s q = some n ↔ (∃ i, n ∈ walk s i) ∧ s.page n = q

lemma coherent (h : Rep c s nd) (hnd : (abs s nd).dir.Nodup) : Coherent s := by
  have hwalk := walk_eq h
  refine ⟨?_, fun i n hn => ?_, fun i => ?_, fun i m hm => ?_, fun i m hm => ?_, fun q n => ?_⟩
  · simp only [pages_eq h]
    exact hnd
  · exact h.tag i n (hwalk i ▸ hn)
  · rw [hwalk, h.size]
  · rw [hwalk] at hm ⊢
    rw [(h.list i).follow_next, List.take_of_length_le hm]
  · rw [hwalk] at hm ⊢
    rw [(h.list i).follow_prev, List.take_of_length_le (by simpa using hm)]
  · simp only [hwalk]
    exact h.get q n

/-- **The structure of `arc.c`** after every trace, and of the access that follows: it hits
exactly the pages of `T1` and `T2` and leaves its page at the head of one of them. -/
theorem structure_coherent (M : Malloc) (s₀ : State) (c : ℕ) (hc : 1 ≤ c) (tr : List Page) :
    ∃ s os, run (arcAccess M) (arcInit s₀ c) tr = some (s, os) ∧ Coherent s ∧
      ∀ q, ∃ s' r, arcAccess M s q = some (s', r) ∧
        (r = .hit ↔ q ∈ pages s .t1 ∨ q ∈ pages s .t2) ∧
        ((pages s' .t1).head? = some q ∨ (pages s' .t2).head? = some q) := by
  obtain ⟨s, nd, hrun, hr, ha⟩ := run_after M s₀ hc tr
  have hs : Sizes c (abs s nd) := ha ▸ sizes_after hc tr
  have hnd : (abs s nd).dir.Nodup := ha ▸ (follows_after hc tr).nodup
  refine ⟨s, _, hrun, coherent hr hnd, fun q => ?_⟩
  obtain ⟨s', nd', he, hr', ha'⟩ := access_spec M hc hr hs q
  refine ⟨s', _, he, ?_, ?_⟩
  · rw [pages_eq hr, pages_eq hr]
    have hhit := access_hit_iff (c := c) (a := abs s nd) (x := q)
    split_ifs with h
    · exact iff_of_true rfl (hhit.mp h)
    · exact iff_of_false (by simp) fun hm => h (hhit.mpr hm)
  · have hhead := access_head c (abs s nd) q
    rw [← ha'] at hhead
    rw [pages_eq hr', pages_eq hr']
    exact hhead

/-- The theorem at two frames and a trace with a hit and an eviction. -/
theorem structure_coherent_two :
    1 ≤ 2 ∧ ∃ (s : State) (os : List Result),
      run (arcAccess Malloc.above) (arcInit start 2) [1, 1, 2, 3, 2] = some (s, os) ∧
        Coherent s := by
  obtain ⟨s, os, h, hco, -⟩ := structure_coherent Malloc.above start 2 (by decide) [1, 1, 2, 3, 2]
  exact ⟨by decide, s, os, h, hco⟩

end Tempograph.ArcSafe
