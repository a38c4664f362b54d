import Tempograph.Calls
import Tempograph.HashMaps
import Tempograph.Pointers

/-!
`arc.c` down to its pointers.

As in `lru.c`, nodes and hash map entries come from one `malloc`; a node moves between the
four lists and is freed only when its page leaves the directory. The model of the policy is
what this program does as long as every record that it accesses is in use, and it always is.
-/

namespace Tempograph.ArcMemory

open Common ChainMap LinkedList Pointers HashMaps Runs Calls
open Arc (ListId DList)

structure State where
  page : ℕ → Page
  list : ℕ → ListId
  links : Links ℕ
  /-- The nodes allocated and not freed. -/
  live : List ℕ
  lists : ListId → DList
  /-- The buckets and the entries. -/
  ahmap : Memory
  c : ℤ
  p : ℤ

/-- The static variables when the program starts. -/
def start : State where
  page := fun _ => 0
  list := fun _ => .t1
  links := ⟨fun _ => none, fun _ => none⟩
  live := []
  lists := fun _ => ⟨Ends.empty, 0⟩
  ahmap := ⟨fun _ => ⟨0, 0, none⟩, fun _ => none, []⟩
  c := 0
  p := 0

def ahmGet (s : State) (key : Page) : Option (Option ℕ) := Pointers.get Arc.ahmHash s.ahmap key

/-- A new entry takes an address that no node and no entry uses. -/
def ahmPut (M : Malloc) (s : State) (key : Page) (val : ℕ) : Option State :=
  (Pointers.put Arc.ahmHash (fun entries => M.pick (s.live ++ entries)) s.ahmap key val).map
    fun m => { s with ahmap := m }

def ahmDel (s : State) (key : Page) : Option State :=
  (Pointers.del Arc.ahmHash s.ahmap key).map fun m => { s with ahmap := m }

def dlRemove (s : State) (l : ListId) (n : ℕ) : Option State :=
  (remove s.live s.links (s.lists l).ends n).map fun p =>
    { s with links := p.1, lists := Function.update s.lists l ⟨p.2, (s.lists l).size - 1⟩ }

def dlPushFront (s : State) (l : ListId) (n : ℕ) : Option State :=
  (pushFront s.live s.links (s.lists l).ends n).map fun p =>
    { s with links := p.1, lists := Function.update s.lists l ⟨p.2, (s.lists l).size + 1⟩ }

/-- The tail of the list and the state without it; no result is a null pointer. -/
def dlPopTail (s : State) (l : ListId) : Option (ℕ × State) :=
  match (s.lists l).ends.tail with
  | none => none
  | some n => (dlRemove s l n).map fun s => (n, s)

def setList (s : State) (n : ℕ) (l : ListId) : Option State :=
  deref s.live n { s with list := Function.update s.list n l }

/-- Move the tail of `l` to the front of the ghost list `g`. -/
def demote (M : Malloc) (s : State) (l g : ListId) : Option State := do
  let (victim, s) ← dlPopTail s l
  let s ← setList s victim g
  let s ← dlPushFront s g victim
  let page ← deref s.live victim (s.page victim)
  ahmPut M s page victim

def arcReplace (M : Malloc) (s : State) (in_b2 : Bool) : Option State :=
  let t1_size := (s.lists .t1).size
  if t1_size > 0 ∧ (t1_size > s.p ∨ in_b2 = true ∧ t1_size = s.p) then demote M s .t1 .b1
  else demote M s .t2 .b2

/-- Take the tail of `l` out of the directory. -/
def forget (s : State) (l : ListId) : Option State := do
  let (victim, s) ← dlPopTail s l
  let page ← deref s.live victim (s.page victim)
  let s ← ahmDel s page
  let live ← free s.live victim
  some { s with live := live }

/-- Move the node `n` of `l` to the front of `T2`. -/
def promote (s : State) (l : ListId) (n : ℕ) : Option State := do
  let s ← dlRemove s l n
  let s ← setList s n .t2
  dlPushFront s .t2 n

def setP (s : State) (p : ℤ) : State := { s with p := p }

/-- Case 4 up to the new node: give up a slot for a completely new page. -/
def makeRoom (M : Malloc) (s : State) : Option State :=
  let t1_len := (s.lists .t1).size + (s.lists .b1).size
  let total := t1_len + (s.lists .t2).size + (s.lists .b2).size
  if t1_len = s.c then
    if (s.lists .t1).size < s.c then do
      let s ← forget s .b1
      arcReplace M s false
    else forget s .t1
  else if t1_len < s.c ∧ total ≥ s.c then
    if total ≥ 2 * s.c ∧ (s.lists .b2).size > 0 then do
      let s ← forget s .b2
      arcReplace M s false
    else arcReplace M s false
  else some s

/-- Put a new node for `page` at the front of `T1`. -/
def load (M : Malloc) (s : State) (page : Page) : Option State := do
  let n := M.pick (s.live ++ s.ahmap.live)
  let s := { s with
    live := n :: s.live
    page := Function.update s.page n page
    list := Function.update s.list n .t1
    links := ⟨Function.update s.links.prev n none, Function.update s.links.next n none⟩ }
  let s ← dlPushFront s .t1 n
  ahmPut M s page n

def arcAccess (M : Malloc) (s : State) (page : Page) : Option (State × Result) := do
  match ← ahmGet s page with
  | some n =>
    match ← deref s.live n (s.list n) with
    | .t1 => (promote s .t1 n).map fun s => (s, .hit)
    | .t2 => (promote s .t2 n).map fun s => (s, .hit)
    | .b1 =>
      let d ← Arc.delta (s.lists .b1).size (s.lists .b2).size
      let s ← arcReplace M (setP s (if s.p + d < s.c then s.p + d else s.c)) false
      (promote s .b1 n).map fun s => (s, .fault)
    | .b2 =>
      let d ← Arc.delta (s.lists .b2).size (s.lists .b1).size
      let s ← arcReplace M (setP s (if s.p - d > 0 then s.p - d else 0)) true
      (promote s .b2 n).map fun s => (s, .fault)
  | none =>
    let s ← makeRoom M s
    (load M s page).map fun s => (s, .fault)

/-- Free the nodes of one list. -/
def freeList (s : State) (l : ListId) : Option State :=
  (freeAll s.links.next (s.live.length + 1) s.live (s.lists l).ends.head).map fun live =>
    { s with live := live, lists := Function.update s.lists l ⟨Ends.empty, 0⟩ }

def arcReset (s : State) : Option State := do
  let s ← [ListId.t1, .t2, .b1, .b2].foldlM freeList s
  let m ← freeChains s.ahmap Arc.ahmSize
  some { s with ahmap := m, c := 0, p := 0 }

def arcInit (s : State) (n_frames : ℤ) : Option State :=
  (arcReset s).map fun s => { s with c := n_frames, p := 0 }

/-! ### Against the model of the policy -/

variable {M : Malloc} {c n : ℕ} {s : State} {nd : ListId → List ℕ} {l g : ListId}
  {t : Table Page ℕ Arc.ahmHash} {chain : ℕ → List ℕ} {u u' : Arc.State} {page : Page}
  {tr : List Page}

/-- The state with the hash map as a whole. -/
def view (s : State) (t : Table Page ℕ Arc.ahmHash) : Arc.State :=
  ⟨s.page, s.list, s.links, s.live, s.lists, t, s.c, s.p⟩

/-- The nodes of all lists, by their counters. -/
def total (s : State) : ℤ :=
  (s.lists .t1).size + (s.lists .t2).size + (s.lists .b1).size + (s.lists .b2).size

/-- The records in use are the nodes of the lists and the entries of the hash map. -/
structure Owns (s : State) (t : Table Page ℕ Arc.ahmHash) (chain : ℕ → List ℕ) : Prop where
  ahmap : Owned s.ahmap t chain
  nodup : s.live.Nodup
  count : (s.live.length : ℤ) = total s
  apart : ∀ a ∈ s.live, a ∉ s.ahmap.live

/-- The state `s` is the state `u` of the model, in memory. -/
def Matches (c : ℕ) (s : State) (u : Arc.State) : Prop :=
  ∃ t chain nd, view s t = u ∧ ArcRefine.Rep c u nd ∧ Owns s t chain

/-- A node taken out, tagged and put in, without checks. -/
def removed (s : State) (l : ListId) (n : ℕ) : State :=
  { s with
    links := s.links.unlink n
    lists := Function.update s.lists l
      ⟨(s.lists l).ends.unlink s.links n, (s.lists l).size - 1⟩ }

def tagged (s : State) (n : ℕ) (l : ListId) : State :=
  { s with list := Function.update s.list n l }

def pushed (s : State) (l : ListId) (n : ℕ) : State :=
  { s with
    links := s.links.pushFront (s.lists l).ends n
    lists := Function.update s.lists l
      ⟨(s.lists l).ends.pushFront n, (s.lists l).size + 1⟩ }

lemma dlRemove_eq (h : IsList s.links (s.lists l).ends (nd l)) (hl : nd l ⊆ s.live)
    (hn : n ∈ nd l) : dlRemove s l n = some (removed s l n) := by
  rw [dlRemove, remove_eq h hl hn]
  rfl

lemma dlPushFront_eq (h : IsList s.links (s.lists l).ends (nd l)) (hl : nd l ⊆ s.live)
    (hn : n ∈ s.live) : dlPushFront s l n = some (pushed s l n) := by
  rw [dlPushFront, pushFront_eq h hl hn]
  rfl

/-- Moving a node from one list to another passes the checks. -/
lemma transfer_eq (h : ArcRefine.Rep c (view s t) nd) (hn : n ∈ nd l) (g : ListId) :
    dlRemove s l n = some (removed s l n) ∧
      setList (removed s l n) n g = some (tagged (removed s l n) n g) ∧
      dlPushFront (tagged (removed s l n) n g) g n =
        some (pushed (tagged (removed s l n) n g) g n) := by
  have hlive : n ∈ s.live := h.live l n hn
  have hrest := h.toChains.remove hn
  refine ⟨dlRemove_eq (h.list l) (h.live l) hn, deref_eq hlive _,
    dlPushFront_eq (hrest.list g) (fun a ha => ?_) hlive⟩
  by_cases e : g = l
  · subst e
    rw [Function.update_self] at ha
    exact h.live g a (List.mem_of_mem_erase ha)
  · rw [Function.update_of_ne e] at ha
    exact h.live g a ha

/-- The counters after a move. -/
lemma total_transfer (s : State) (l g : ListId) (n : ℕ) :
    total (pushed (tagged (removed s l n) n g) g n) = total s := by
  cases l <;> cases g <;> simp [total, pushed, tagged, removed] <;> ring

/-- A hash map that is written leaves the nodes alone. -/
lemma Owns.put (ho : Owns s t chain) (M : Malloc) (page : Page) (n : ℕ) :
    ∃ m chain', ahmPut M s page n = some { s with ahmap := m } ∧
      Owns { s with ahmap := m } (t.put page n) chain' := by
  obtain ⟨m, chain', hm, hom, hapart⟩ := ho.ahmap.put_apart M.fresh ho.apart page n
  exact ⟨m, chain', by rw [ahmPut]; exact congrArg _ hm, hom, ho.nodup, ho.count, hapart⟩

lemma tail_eq_none (h : ArcRefine.Rep c (view s t) nd) (e : nd l = []) :
    (s.lists l).ends.tail = none := by
  have htail := (h.list l).tail
  rwa [e] at htail

lemma demote_refines (M : Malloc) (hlg : l ≠ g) (h : Matches c s u)
    (he : Arc.demote u l g = some u') : ∃ s', demote M s l g = some s' ∧ Matches c s' u' := by
  obtain ⟨t, chain, nd, rfl, hr, ho⟩ := h
  have hne : nd l ≠ [] := fun e => by
    simp [Arc.demote, Arc.dlPopTail, view, tail_eq_none hr e] at he
  obtain ⟨r, v, hl, htail, -⟩ := ArcRefine.tail_spec hr hne
  have hv : v ∈ nd l := by simp [hl]
  have htail : (s.lists l).ends.tail = some v := htail
  obtain ⟨h1, h2, h3⟩ := transfer_eq hr hv g
  have ho' : Owns (pushed (tagged (removed s l v) v g) g v) t chain :=
    ⟨ho.ahmap, ho.nodup, ho.count.trans (total_transfer s l g v).symm, ho.apart⟩
  obtain ⟨m, chain', h4, ho''⟩ := ho'.put M (s.page v) v
  have hpage : deref (pushed (tagged (removed s l v) v g) g v).live v
      ((pushed (tagged (removed s l v) v g) g v).page v) = some (s.page v) :=
    deref_eq (hr.live l v hv) _
  obtain ⟨u'', r', v', he', hl', -, hr', -⟩ := ArcRefine.demote_spec hr hlg hne
  obtain rfl : u'' = u' := Option.some.inj (he'.symm.trans he)
  refine ⟨_, ?_, _, chain', _, ?_, hr', ho''⟩
  · simp only [demote, dlPopTail, htail, h1, Option.map_some, Option.bind_eq_bind,
      Option.bind_some, h2, h3, hpage, h4]
  · have htail' : (view s t).lists l = s.lists l := rfl
    simp only [Arc.demote, Arc.dlPopTail, htail', htail, Option.some.injEq] at he
    rw [← he]
    rfl

lemma replace_refines (M : Malloc) (h : Matches c s u) {in_b2 : Bool}
    (he : Arc.arcReplace u in_b2 = some u') :
    ∃ s', arcReplace M s in_b2 = some s' ∧ Matches c s' u' := by
  obtain ⟨t, chain, nd, rfl, hr, ho⟩ := id h
  unfold Arc.arcReplace at he
  unfold arcReplace
  have hlists : (view s t).lists = s.lists := rfl
  have hp : (view s t).p = s.p := rfl
  simp only [hlists, hp] at he
  simp only
  split_ifs at he ⊢
  · exact demote_refines M (by decide) h he
  · exact demote_refines M (by decide) h he

lemma forget_refines (h : Matches c s u) (he : Arc.forget u l = some u') :
    ∃ s', forget s l = some s' ∧ Matches c s' u' := by
  obtain ⟨t, chain, nd, rfl, hr, ho⟩ := h
  have hne : nd l ≠ [] := fun e => by
    simp [Arc.forget, Arc.dlPopTail, view, tail_eq_none hr e] at he
  obtain ⟨r, v, hl, htail, -⟩ := ArcRefine.tail_spec hr hne
  have hv : v ∈ nd l := by simp [hl]
  have hlive : v ∈ s.live := hr.live l v hv
  have htail : (s.lists l).ends.tail = some v := htail
  obtain ⟨h1, -, -⟩ := transfer_eq hr hv l
  obtain ⟨m, chain', hm, hom, hsub⟩ := ho.ahmap.del (s.page v)
  have hdel : ahmDel (removed s l v) (s.page v) = some { removed s l v with ahmap := m } :=
    congrArg _ hm
  have hpage : deref (removed s l v).live v ((removed s l v).page v) = some (s.page v) :=
    deref_eq hlive _
  have hfree : free (removed s l v).live v = some (s.live.erase v) := deref_eq hlive _
  obtain ⟨u'', r', v', he', -, hr', -⟩ := ArcRefine.forget_spec hr hne
  obtain rfl : u'' = u' := Option.some.inj (he'.symm.trans he)
  refine ⟨{ removed s l v with ahmap := m, live := s.live.erase v }, ?_, t.del (s.page v),
    chain', _, ?_, hr', hom, ho.nodup.erase v, ?_, fun a ha hma => ?_⟩
  · simp only [forget, dlPopTail, htail, h1, Option.map_some, Option.bind_eq_bind,
      Option.bind_some, hpage, hdel, hfree]
  · have htail' : (view s t).lists l = s.lists l := rfl
    simp only [Arc.forget, Arc.dlPopTail, htail', htail, Option.some.injEq] at he
    rw [← he]
    rfl
  · have hpos := List.length_pos_of_mem hlive
    have hcount := ho.count
    have htotal : total (removed s l v) = total s - 1 := by
      cases l <;> simp [total, removed] <;> ring
    show ((s.live.erase v).length : ℤ) = total (removed s l v)
    rw [List.length_erase_of_mem hlive, htotal]
    omega
  · exact ho.apart a (List.mem_of_mem_erase ha) (hsub hma)

/-- Making room passes the checks. -/
lemma makeRoom_refines (M : Malloc) (h : Matches c s u) (he : Arc.makeRoom u = some u') :
    ∃ s', makeRoom M s = some s' ∧ Matches c s' u' := by
  obtain ⟨t, chain, nd, rfl, hr, ho⟩ := id h
  unfold Arc.makeRoom at he
  unfold makeRoom
  have hlists : (view s t).lists = s.lists := rfl
  have hcap : (view s t).c = s.c := rfl
  simp only [hlists, hcap] at he
  simp only
  split_ifs at he ⊢
  · cases hf : Arc.forget (view s t) .b1 with
    | none => simp [hf] at he
    | some u₁ =>
      simp only [hf] at he
      obtain ⟨s₁, h1, hm⟩ := forget_refines h hf
      obtain ⟨s₂, h2, hm'⟩ := replace_refines M hm he
      exact ⟨s₂, by simp only [h1, Option.bind_eq_bind, Option.bind_some, h2], hm'⟩
  · exact forget_refines h he
  · cases hf : Arc.forget (view s t) .b2 with
    | none => simp [hf] at he
    | some u₁ =>
      simp only [hf] at he
      obtain ⟨s₁, h1, hm⟩ := forget_refines h hf
      obtain ⟨s₂, h2, hm'⟩ := replace_refines M hm he
      exact ⟨s₂, by simp only [h1, Option.bind_eq_bind, Option.bind_some, h2], hm'⟩
  · exact replace_refines M h he
  · cases he
    exact ⟨s, rfl, h⟩

/-- A new node and its entry get addresses of their own. -/
lemma load_refines (M : Malloc) (hr : ArcRefine.Rep c (view s t) nd) (ho : Owns s t chain)
    (page : Page) :
    ∃ s' t' chain', load M s page = some s' ∧
      view s' t' = Arc.load (beside M s.ahmap.live) (view s t) page ∧ Owns s' t' chain' := by
  obtain ⟨n, hn⟩ : ∃ n, n = M.pick (s.live ++ s.ahmap.live) := ⟨_, rfl⟩
  have hfresh : n ∉ s.live ∧ n ∉ s.ahmap.live := hn ▸ fresh_apart M.fresh s.live s.ahmap.live
  obtain ⟨s₁, hs₁⟩ : ∃ s₁ : State, s₁ = { s with
      live := n :: s.live
      page := Function.update s.page n page
      list := Function.update s.list n .t1
      links := ⟨Function.update s.links.prev n none, Function.update s.links.next n none⟩ } :=
    ⟨_, rfl⟩
  have hlist : IsList s₁.links (s₁.lists .t1).ends (nd .t1) := by
    rw [hs₁]
    exact alloc_list (hr.list .t1) fun hl => hfresh.1 (hr.live .t1 n hl)
  have hpush := dlPushFront_eq (s := s₁) (n := n) hlist
    (by rw [hs₁]; exact fun a ha => List.mem_cons_of_mem _ (hr.live .t1 a ha))
    (by rw [hs₁]; exact List.mem_cons_self)
  have ho' : Owns (pushed s₁ .t1 n) t chain := by
    rw [hs₁]
    refine ⟨ho.ahmap, List.nodup_cons.mpr ⟨hfresh.1, ho.nodup⟩, ?_, fun a ha hma => ?_⟩
    · have hcount := ho.count
      simp only [total, pushed, List.length_cons, Function.update_self, ne_eq, reduceCtorEq,
        not_false_eq_true, Function.update_of_ne, Nat.cast_add, Nat.cast_one] at hcount ⊢
      omega
    · rcases List.mem_cons.mp ha with rfl | ha
      · exact hfresh.2 hma
      · exact ho.apart a ha hma
  obtain ⟨m, chain', hput, ho''⟩ := ho'.put M page n
  refine ⟨_, _, chain', ?_, ?_, ho''⟩
  · simp only [load, ← hn, ← hs₁, hpush, Option.bind_eq_bind, Option.bind_some, hput]
  · subst hs₁ hn
    rfl

/-- Promoting a node passes the checks. -/
lemma promote_refines (h : ArcRefine.Rep c (view s t) nd) (ho : Owns s t chain)
    (hn : n ∈ nd l) :
    ∃ s', promote s l n = some s' ∧ view s' t = Arc.promote (view s t) l n ∧
      Owns s' t chain := by
  obtain ⟨h1, h2, h3⟩ := transfer_eq h hn .t2
  refine ⟨pushed (tagged (removed s l n) n .t2) .t2 n,
    by simp only [promote, h1, h2, h3, Option.bind_eq_bind, Option.bind_some], rfl, ho.ahmap,
     ho.nodup, ho.count.trans (total_transfer s l .t2 n).symm, ho.apart⟩

lemma Matches.setP (h : Matches c s u) (p : ℤ) : Matches c (setP s p) (Arc.setP u p) := by
  obtain ⟨t, chain, nd, rfl, hr, ho⟩ := h
  exact ⟨t, chain, nd, rfl, hr.setP p, ho.ahmap, ho.nodup, ho.count, ho.apart⟩

/-- A ghost hit: the eviction and the promotion pass the checks. -/
lemma ghost_refines (M : Malloc) (h : Matches c s u) {in_b2 : Bool} {nd₁ : ListId → List ℕ}
    (he : Arc.arcReplace u in_b2 = some u') (hr : ArcRefine.Rep c u' nd₁) (hn : n ∈ nd₁ l) :
    ∃ s₁ s' t' chain', arcReplace M s in_b2 = some s₁ ∧ promote s₁ l n = some s' ∧
      view s' t' = Arc.promote u' l n ∧ Owns s' t' chain' := by
  obtain ⟨s₁, h1, t₁, chain₁, nd', rfl, -, ho⟩ := replace_refines M h he
  obtain ⟨s', h2, hv, ho'⟩ := promote_refines hr ho hn
  exact ⟨s₁, s', t₁, chain₁, h1, h2, hv, ho'⟩

/-- **One access** passes all checks, and does what the policy does with some `malloc`. -/
theorem access_refines (M : Malloc) (hc : 1 ≤ c) (hr : ArcRefine.Rep c (view s t) nd)
    (hs : ArcLists.Sizes c (ArcRefine.abs (view s t) nd)) (ho : Owns s t chain) (page : Page) :
    ∃ s' r t' chain' M', arcAccess M s page = some (s', r) ∧
      Arc.arcAccess M' (view s t) page = some (view s' t', r) ∧ Owns s' t' chain' := by
  have hget : ahmGet s page = some (t.get page) := ho.ahmap.get_eq page
  have hmodel : Arc.ahmGet (view s t) page = t.get page := rfl
  have hmatch : Matches c s (view s t) := ⟨t, chain, nd, rfl, hr, ho⟩
  obtain ⟨u, -, hacc, -⟩ := ArcRefine.access_spec M hc hr hs page
  cases hg : t.get page with
  | some n =>
    obtain ⟨⟨i, hn⟩, rfl⟩ := (hr.get page n).mp (hmodel.trans hg)
    have hlive : n ∈ s.live := hr.live i n hn
    have htag : s.list n = i := hr.tag i n hn
    have htag' : (view s t).list n = i := htag
    rw [Arc.arcAccess, hmodel, hg] at hacc
    simp only [htag'] at hacc
    cases i with
    | t1 =>
      obtain ⟨s', h1, hv, ho'⟩ := promote_refines hr ho hn
      refine ⟨s', .hit, t, chain, M, ?_, ?_, ho'⟩
      · simp only [arcAccess, hget, hg, deref_eq hlive, htag, Option.bind_eq_bind,
          Option.bind_some, h1, Option.map_some]
      · simp only [Arc.arcAccess, hmodel, hg, htag', hv]
    | t2 =>
      obtain ⟨s', h1, hv, ho'⟩ := promote_refines hr ho hn
      refine ⟨s', .hit, t, chain, M, ?_, ?_, ho'⟩
      · simp only [arcAccess, hget, hg, deref_eq hlive, htag, Option.bind_eq_bind,
          Option.bind_some, h1, Option.map_some]
      · simp only [Arc.arcAccess, hmodel, hg, htag', hv]
    | b1 =>
      have hx : s.page n ∈ (ArcRefine.abs (view s t) nd).b1 := List.mem_map_of_mem hn
      obtain ⟨d, hd, ha⟩ := ArcRefine.raised hr hx
      obtain ⟨hcan, -⟩ := hs.raise hc hx
      rw [← ha] at hcan
      obtain ⟨u₁, nd₁, he, hr₁, -, -, hsub, -⟩ := ArcRefine.replace_spec (hr.setP _) hcan
      obtain ⟨s₁, s', t', chain', h1, h2, hv, ho'⟩ := ghost_refines M
        (hmatch.setP (if s.p + d < s.c then s.p + d else s.c)) he hr₁ (hsub hn)
      have hd' : Arc.delta (s.lists .b1).size (s.lists .b2).size = some d := hd
      refine ⟨s', .fault, t', chain', M, ?_, ?_, ho'⟩
      · simp only [arcAccess, hget, hg, deref_eq hlive, htag, Option.bind_eq_bind,
          Option.bind_some, hd', h1, h2, Option.map_some]
      · simp only [Arc.arcAccess, hmodel, hg, htag', hd, he, hv]
    | b2 =>
      have hx : s.page n ∈ (ArcRefine.abs (view s t) nd).b2 := List.mem_map_of_mem hn
      obtain ⟨d, hd, ha⟩ := ArcRefine.lowered hr hx
      obtain ⟨hcan, -⟩ := hs.lower hc hx
      rw [← ha] at hcan
      obtain ⟨u₁, nd₁, he, hr₁, -, -, -, hsub⟩ := ArcRefine.replace_spec (hr.setP _) hcan
      obtain ⟨s₁, s', t', chain', h1, h2, hv, ho'⟩ := ghost_refines M
        (hmatch.setP (if s.p - d > 0 then s.p - d else 0)) he hr₁ (hsub hn)
      have hd' : Arc.delta (s.lists .b2).size (s.lists .b1).size = some d := hd
      refine ⟨s', .fault, t', chain', M, ?_, ?_, ho'⟩
      · simp only [arcAccess, hget, hg, deref_eq hlive, htag, Option.bind_eq_bind,
          Option.bind_some, hd', h1, h2, Option.map_some]
      · simp only [Arc.arcAccess, hmodel, hg, htag', hd, he, hv]
  | none =>
    rw [Arc.arcAccess, hmodel, hg] at hacc
    simp only at hacc
    cases hroom : Arc.makeRoom (view s t) with
    | none => simp [hroom] at hacc
    | some u₁ =>
      obtain ⟨s₁, h1, t₁, chain₁, nd₁, rfl, hr₁, ho₁⟩ := makeRoom_refines M hmatch hroom
      obtain ⟨s', t', chain', h2, hv, ho'⟩ := load_refines M hr₁ ho₁ page
      refine ⟨s', .fault, t', chain', beside M s₁.ahmap.live, ?_, ?_, ho'⟩
      · simp only [arcAccess, hget, hg, h1, h2, Option.bind_eq_bind, Option.bind_some,
          Option.map_some]
      · simp only [Arc.arcAccess, hmodel, hg, hroom, hv]

/-! ### Every program -/

/-- Nothing is in use. -/
structure Clean (s : State) : Prop where
  live : s.live = []
  entries : s.ahmap.live = []
  buckets : ∀ b, s.ahmap.bucket b = none
  lists : ∀ i, s.lists i = ⟨Ends.empty, 0⟩

/-- In a session the state is that of the policy, and owns what is in use. -/
def Open (n : ℕ) (tr : List Page) (s : State) : Prop :=
  ∃ t chain nd, ArcRefine.Rep n (view s t) nd ∧
    ArcRefine.abs (view s t) nd = ArcRuns.after n tr ∧ Owns s t chain

/-- The nodes of the four lists. -/
def nodes (nd : ListId → List ℕ) : List ℕ := nd .t1 ++ nd .t2 ++ nd .b1 ++ nd .b2

lemma mem_nodes {a : ℕ} : a ∈ nodes nd ↔ ∃ i, a ∈ nd i := by
  simp only [nodes, List.mem_append]
  constructor
  · rintro (((h | h) | h) | h)
    exacts [⟨_, h⟩, ⟨_, h⟩, ⟨_, h⟩, ⟨_, h⟩]
  · rintro ⟨_ | _ | _ | _, h⟩ <;> simp [h]

lemma nodup_nodes (h : ArcRefine.Chains u nd) : (nodes nd).Nodup := by
  have hne {i j : ListId} (hij : i ≠ j) : ∀ a ∈ nd i, ∀ b ∈ nd j, a ≠ b := by
    rintro a ha b hb rfl
    exact hij (h.disjoint i j a ha hb)
  have hnd (i : ListId) := (h.list i).nodup
  simp only [nodes, List.nodup_append, List.mem_append, hnd, true_and]
  refine ⟨⟨hne (by decide), ?_⟩, ?_⟩
  · rintro a (ha | ha)
    exacts [hne (by decide) a ha, hne (by decide) a ha]
  · rintro a ((ha | ha) | ha)
    exacts [hne (by decide) a ha, hne (by decide) a ha, hne (by decide) a ha]

lemma Owns.length (ho : Owns s t chain) (h : ArcRefine.Rep c (view s t) nd) :
    s.live.length = (nodes nd).length := by
  have hcount := ho.count
  have hsize (i : ListId) : (s.lists i).size = (nd i).length := h.size i
  simp only [total, hsize] at hcount
  simp only [nodes, List.length_append]
  omega

/-- The nodes in use are those of the lists. -/
lemma Owns.perm (ho : Owns s t chain) (h : ArcRefine.Rep c (view s t) nd) :
    (nodes nd).Perm s.live :=
  (List.subperm_of_subset (nodup_nodes h.toChains) fun a ha => by
    obtain ⟨i, hi⟩ := mem_nodes.mp ha
    exact h.live i a hi).perm_of_length_le (ho.length h).le

/-- The state after the nodes of one list are freed. -/
def freed (s : State) (nd : ListId → List ℕ) (l : ListId) : State :=
  { s with
    live := s.live.diff (nd l), lists := Function.update s.lists l ⟨Ends.empty, 0⟩ }

lemma freeLists_spec {ls : List ListId} (hls : ls.Nodup)
    (hlist : ∀ i ∈ ls, IsList s.links (s.lists i).ends (nd i) ∧ nd i ⊆ s.live)
    (hdisj : ∀ i j, ∀ x ∈ nd i, x ∈ nd j → i = j) (hnd : s.live.Nodup) :
    ∃ s', ls.foldlM freeList s = some s' ∧ s'.ahmap = s.ahmap ∧
      (∀ i ∈ ls, s'.lists i = ⟨Ends.empty, 0⟩) ∧ (∀ i ∉ ls, s'.lists i = s.lists i) ∧
      ∀ a ∈ s'.live, a ∈ s.live ∧ ∀ i ∈ ls, a ∉ nd i := by
  induction ls generalizing s with
  | nil => exact ⟨s, rfl, rfl, by simp, fun _ _ => rfl, by simp⟩
  | cons l ls ih =>
    obtain ⟨hl, hls⟩ := List.nodup_cons.mp hls
    obtain ⟨h1, h2⟩ := hlist l List.mem_cons_self
    have hne {i : ListId} (hi : i ∈ ls) : i ≠ l := by
      rintro rfl
      exact hl hi
    have hfree : freeList s l = some (freed s nd l) := by
      rw [freeList, freeAll_list h1 h2]
      rfl
    have hother {i : ListId} (hi : i ≠ l) : (freed s nd l).lists i = s.lists i :=
      Function.update_of_ne hi _ _
    obtain ⟨s', he, hmap, hin, hout, hlive⟩ := ih (s := freed s nd l) hls
      (fun i hi => by
        obtain ⟨h3, h4⟩ := hlist i (List.mem_cons_of_mem _ hi)
        rw [hother (hne hi)]
        exact ⟨h3, fun a ha => hnd.mem_sdiff_iff.mpr ⟨h4 ha, fun hal =>
          hne hi (hdisj i l a ha hal)⟩⟩) hnd.diff
    refine ⟨s', by rw [List.foldlM_cons, hfree]; exact he, hmap, fun i hi => ?_, fun i hi => ?_,
      fun a ha => ?_⟩
    · rcases List.mem_cons.mp hi with rfl | hi
      · exact (hout i hl).trans (Function.update_self _ _ _)
      · exact hin i hi
    · rw [List.mem_cons, not_or] at hi
      rw [hout i hi.2, hother hi.1]
    · obtain ⟨h3, h4⟩ := hlive a ha
      obtain ⟨h5, h6⟩ := hnd.mem_sdiff_iff.mp h3
      exact ⟨h5, List.forall_mem_cons.mpr ⟨h6, h4⟩⟩

/-- A reset frees every record once. -/
lemma reset_spec {x : Session} (h : Calls.Holds Clean Open x s) :
    ∃ s', arcReset s = some s' ∧ Clean s' := by
  have hbefore : ∃ (t : Table Page ℕ Arc.ahmHash) (chain : ℕ → List ℕ) (nd : ListId → List ℕ),
      Owned s.ahmap t chain ∧
      (∀ i, IsList s.links (s.lists i).ends (nd i) ∧ nd i ⊆ s.live) ∧
      (∀ i j, ∀ x ∈ nd i, x ∈ nd j → i = j) ∧ s.live.Nodup ∧ ∀ a ∈ s.live, ∃ i, a ∈ nd i := by
    cases x with
    | none =>
      refine ⟨_, _, fun _ => [], owned_empty h.buckets h.entries, fun i => ?_, by simp,
        by simp [h.live], by simp [h.live]⟩
      rw [h.lists]
      exact ⟨isList_nil _, by simp⟩
    | some x =>
      obtain ⟨-, t, chain, nd, hr, -, ho⟩ := h
      exact ⟨t, chain, nd, ho.ahmap, fun i => ⟨hr.list i, hr.live i⟩, hr.disjoint, ho.nodup,
        fun a ha => mem_nodes.mp ((ho.perm hr).mem_iff.mpr ha)⟩
  obtain ⟨t, chain, nd, hmap, hlist, hdisj, hnd, howned⟩ := hbefore
  obtain ⟨s', he, hmap', hin, -, hlive⟩ := freeLists_spec
    (show [ListId.t1, .t2, .b1, .b2].Nodup by decide) (fun i _ => hlist i) hdisj hnd
  rw [← hmap'] at hmap
  have hsize (q : Page) : Arc.ahmHash q < Arc.ahmSize := Nat.mod_lt _ (by decide)
  obtain ⟨m, hm, hentries, hb⟩ := hmap.freeChains hsize
  have hall (i : ListId) : i ∈ [ListId.t1, .t2, .b1, .b2] := by cases i <;> decide
  refine ⟨{ s' with ahmap := m, c := 0, p := 0 }, ?_,
    List.eq_nil_iff_forall_not_mem.mpr fun a ha => ?_, hentries, hb, fun i => hin i (hall i)⟩
  · rw [arcReset, he, Option.bind_eq_bind, Option.bind_some, Option.bind_eq_bind, hm,
      Option.bind_some]
  · obtain ⟨h1, h2⟩ := hlive a ha
    obtain ⟨i, hi⟩ := howned a h1
    exact h2 i (hall i) hi

lemma init_spec {x : Session} (h : Calls.Holds Clean Open x s) (n : ℕ) :
    ∃ s', arcInit s n = some s' ∧ Open n [] s' := by
  obtain ⟨s', hs', hc⟩ := reset_spec h
  refine ⟨{ s' with c := n, p := 0 }, by rw [arcInit, hs']; rfl, Table.empty, fun _ => [],
    fun _ => [], ⟨⟨fun i => ?_, fun i => ?_, by simp⟩, by simp, by simp [Arc.ahmGet, view],
      by simp, rfl⟩, rfl, ⟨owned_empty hc.buckets hc.entries, ?_, ?_, ?_⟩⟩
  · show IsList s'.links (s'.lists i).ends []
    rw [hc.lists]
    exact isList_nil _
  · show (s'.lists i).size = 0
    rw [hc.lists]
  · simp [hc.live]
  · simp [hc.live, total, hc.lists]
  · simp [hc.live]

lemma access_open (M : Malloc) (hn : 1 ≤ n) (h : Open n tr s) (page : Page) :
    ∃ s' r, arcAccess M s page = some (s', r) ∧ Open n (tr ++ [page]) s' ∧
      answer .arc (some (n, tr)) (.access page) = some r := by
  obtain ⟨t, chain, nd, hr, habs, ho⟩ := h
  have hs : ArcLists.Sizes n (ArcRefine.abs (view s t) nd) := habs ▸ ArcRuns.sizes_after hn tr
  obtain ⟨s', r, t', chain', M', ha, hm, ho'⟩ := access_refines M hn hr hs ho page
  obtain ⟨u, nd', hu, hr', ha'⟩ := ArcRefine.access_spec M' hn hr hs page
  obtain ⟨rfl, rfl⟩ := Prod.mk.inj (Option.some.inj (hm.symm.trans hu))
  refine ⟨s', _, ha, ⟨t', chain', nd', hr', ?_, ho'⟩, ?_⟩
  · rw [ha', habs, ArcRuns.after_snoc]
  · rw [arc_answer hn, habs]

/-- What is in use in a session. -/
lemma Open.memory (hn : 1 ≤ n) (h : Open n tr s) :
    min n tr.toFinset.card ≤ s.live.length ∧ s.live.length ≤ min (2 * n) tr.toFinset.card ∧
      s.ahmap.live.length = s.live.length ∧ ∀ a ∈ s.live, a ∉ s.ahmap.live := by
  obtain ⟨t, chain, nd, hr, habs, ho⟩ := h
  have hf := ArcRuns.follows_after hn tr
  have hdir : ((nodes nd).map s.page).Perm (ArcRuns.after n tr).dir := by
    rw [← habs]
    simp only [nodes, List.map_append, ArcLists.Cache.dir, ArcRefine.abs, List.append_assoc]
    exact List.Perm.append_left _ (List.perm_append_comm_assoc _ _ _)
  have hlen : s.live.length = (ArcRuns.after n tr).dir.length := by
    rw [ho.length hr, ← List.length_map (f := s.page), hdir.length_eq]
  have hentries : s.ahmap.live.length = ((nodes nd).map s.page).length := by
    refine ho.ahmap.length (hdir.nodup_iff.mpr hf.nodup) fun q => ?_
    rw [Option.ne_none_iff_exists', List.mem_map]
    refine exists_congr fun a => ?_
    rw [mem_nodes]
    exact (hr.get q a).symm
  refine ⟨?_, le_min ?_ ?_, by rw [hentries, hdir.length_eq, hlen], ho.apart⟩
  · have hsub : (Recency.recency tr).take n ⊆ (ArcRuns.after n tr).dir := hf.covers
    have hnd := (Recency.nodup_recency tr).sublist (List.take_sublist n _)
    have := (List.subperm_of_subset hnd hsub).length_le
    rwa [List.length_take, Recency.length_recency, ← hlen] at this
  · rw [hlen, ArcLists.dir_length]
    exact (ArcRuns.sizes_after hn tr).total
  · rw [hlen, ← List.toFinset_card_of_nodup hf.nodup]
    exact Finset.card_le_card fun q hq =>
      List.mem_toFinset.mpr (ArcRuns.mem_of_mem_after hn (List.mem_toFinset.mp hq))

def policy (M : Malloc) : Policy State := ⟨arcInit, arcAccess M, arcReset⟩

/-- **`arc.c` is memory safe.** Every program that initialises it before it accesses it runs
to its end: no access through a freed address, no address freed twice. It answers as the
model of the policy. In a session with `n` frames there are at most `2 * n` nodes in use, as
many entries, and none is both; outside a session there is nothing in use. -/
theorem arc_memory_safe (M : Malloc) (calls : List Call) (hv : Valid calls) :
    ∃ s os, run (policy M).call start calls = some (s, os) ∧
      (∀ k (hk : k < calls.length) (hk' : k < os.length),
        os[k] = answer .arc (session (calls.take k)) calls[k]) ∧
      match session calls with
      | none => s.live = [] ∧ s.ahmap.live = []
      | some (n, tr) => min n tr.toFinset.card ≤ s.live.length ∧
          s.live.length ≤ min (2 * n) tr.toFinset.card ∧
          s.ahmap.live.length = s.live.length ∧ ∀ a ∈ s.live, a ∉ s.ahmap.live := by
  obtain ⟨s, os, hrun, hholds, hos⟩ := @calls_run _ (policy M) .arc Clean Open start
    ⟨rfl, rfl, fun _ => rfl, fun _ => rfl⟩ (fun x s n h _ => init_spec h n)
    (fun n tr s page hn h => access_open M hn h page) (fun x s h => reset_spec h) _ hv
  refine ⟨s, os, hrun, hos, ?_⟩
  cases hx : session calls with
  | none =>
    rw [hx] at hholds
    exact ⟨hholds.live, hholds.entries⟩
  | some x =>
    rw [hx] at hholds
    exact hholds.2.memory hholds.1

/-- The theorem at two passes, the second one left open after a page became a ghost. -/
theorem arc_memory_safe_two :
    Valid [.init 2, .access 7, .reset, .init 1, .access 7, .access 7, .access 9] ∧
      ∃ s os, run (policy Malloc.above).call start
          [.init 2, .access 7, .reset, .init 1, .access 7, .access 7, .access 9] = some (s, os) ∧
        1 ≤ s.live.length ∧ s.live.length ≤ 2 ∧ s.ahmap.live.length = s.live.length := by
  have hv : Valid [.init 2, .access 7, .reset, .init 1, .access 7, .access 7, .access 9] := by
    decide
  obtain ⟨s, os, hrun, -, h1, h2, h3, -⟩ := arc_memory_safe Malloc.above _ hv
  exact ⟨hv, s, os, hrun, h1, h2, h3⟩

end Tempograph.ArcMemory
