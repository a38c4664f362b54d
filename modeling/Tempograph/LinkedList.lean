import Mathlib.Data.List.Basic
import Mathlib.Logic.Function.Basic
import Mathlib.Tactic

/-!
Doubly linked lists.

Nodes live in a pool that gives each of them two links, and several lists may share one
pool. A list is held by its two ends. A null link is `none`. The operations are the two
that intrusive lists are built from: linking a node in at the head and unlinking a node
wherever it stands.
-/

namespace Tempograph.LinkedList

variable {ν α : Type*}

/-- The links of the nodes of a pool. -/
structure Links (ν : Type*) where
  prev : ν → Option ν
  next : ν → Option ν

/-- The ends of a list. -/
structure Ends (ν : Type*) where
  head : Option ν
  tail : Option ν

/-- The ends of a list with no node. -/
def Ends.empty : Ends ν := ⟨none, none⟩

/-- The nodes met from `i` on, at most `m` of them. -/
def follow (f : ν → Option ν) : ℕ → Option ν → List ν
  | 0, _ => []
  | _ + 1, none => []
  | m + 1, some x => x :: follow f m (f x)

section Operations

variable [DecidableEq ν]

/-- Write through a link, if it is not null. -/
def write (f : ν → α) (i : Option ν) (v : α) : ν → α :=
  match i with
  | some j => Function.update f j v
  | none => f

/-- Unlink `n`: its neighbours are linked to each other, its own links are cleared. -/
def Links.unlink (k : Links ν) (n : ν) : Links ν where
  prev := Function.update (write k.prev (k.next n) (k.prev n)) n none
  next := Function.update (write k.next (k.prev n) (k.next n)) n none

def Ends.unlink (d : Ends ν) (k : Links ν) (n : ν) : Ends ν where
  head := if (k.prev n).isSome then d.head else k.next n
  tail := if (k.next n).isSome then d.tail else k.prev n

/-- Link `n` in before the head of a list. -/
def Links.pushFront (k : Links ν) (d : Ends ν) (n : ν) : Links ν where
  prev := write (Function.update k.prev n none) d.head (some n)
  next := Function.update k.next n d.head

def Ends.pushFront (d : Ends ν) (n : ν) : Ends ν where
  head := some n
  tail := if d.tail.isSome then d.tail else some n

lemma write_apply (f : ν → α) (i : Option ν) (v : α) (x : ν) :
    write f i v x = if i = some x then v else f x := by
  cases i with
  | none => simp [write]
  | some j => simp [write, Function.update_apply, eq_comm]

lemma unlink_prev (k : Links ν) (n x : ν) : (k.unlink n).prev x =
    if x = n then none else if k.next n = some x then k.prev n else k.prev x := by
  simp [Links.unlink, Function.update_apply, write_apply]

lemma unlink_next (k : Links ν) (n x : ν) : (k.unlink n).next x =
    if x = n then none else if k.prev n = some x then k.next n else k.next x := by
  simp [Links.unlink, Function.update_apply, write_apply]

lemma pushFront_prev (k : Links ν) (d : Ends ν) (n x : ν) : (k.pushFront d n).prev x =
    if d.head = some x then some n else if x = n then none else k.prev x := by
  simp [Links.pushFront, Function.update_apply, write_apply]

lemma pushFront_next (k : Links ν) (d : Ends ν) (n x : ν) : (k.pushFront d n).next x =
    if x = n then d.head else k.next x := by
  simp [Links.pushFront, Function.update_apply]

end Operations

/-- The links and ends hold the nodes of `l`, in order, each once. -/
structure IsList (k : Links ν) (d : Ends ν) (l : List ν) : Prop where
  head : d.head = l.head?
  tail : d.tail = l.getLast?
  nodup : l.Nodup
  links : ∀ a x b, l = a ++ x :: b → k.prev x = a.getLast? ∧ k.next x = b.head?

variable {k k' : Links ν} {d : Ends ν} {l : List ν}

lemma isList_nil (k : Links ν) : IsList k Ends.empty [] :=
  ⟨rfl, rfl, List.nodup_nil, by simp⟩

/-- A list is unaffected by what happens to the links of other nodes. -/
lemma IsList.frame (h : IsList k d l)
    (hk : ∀ x ∈ l, k'.prev x = k.prev x ∧ k'.next x = k.next x) : IsList k' d l where
  head := h.head
  tail := h.tail
  nodup := h.nodup
  links a x b e := by
    obtain ⟨hp, hn⟩ := hk x (by simp [e])
    rw [hp, hn]
    exact h.links a x b e

/-! ### Walks -/

lemma follow_next_suffix (h : IsList k d l) (a b : List ν) (e : l = a ++ b) (m : ℕ) :
    follow k.next m b.head? = b.take m := by
  induction b generalizing a m with
  | nil => cases m <;> simp [follow]
  | cons x b ih =>
    cases m with
    | zero => rfl
    | succ m =>
      simp only [List.head?_cons, follow, List.take_succ_cons]
      rw [(h.links a x b e).2, ih (a ++ [x]) (by simp [e]) m]

lemma follow_prev_prefix (h : IsList k d l) (a b : List ν) (e : l = a ++ b) (m : ℕ) :
    follow k.prev m a.getLast? = a.reverse.take m := by
  induction a using List.reverseRecOn generalizing b m with
  | nil => cases m <;> simp [follow]
  | append_singleton a x ih =>
    cases m with
    | zero => rfl
    | succ m =>
      simp only [List.getLast?_concat, follow, List.reverse_append, List.reverse_cons,
        List.reverse_nil, List.nil_append, List.singleton_append, List.take_succ_cons]
      rw [(h.links a x b (by simp [e])).1, ih (x :: b) (by simp [e]) m]

/-- **The walk from the head meets the nodes in order.** -/
theorem IsList.follow_next (h : IsList k d l) (m : ℕ) : follow k.next m d.head = l.take m := by
  rw [h.head]; exact follow_next_suffix h [] l rfl m

/-- A walk that may meet all nodes of a pool meets those of the list. -/
lemma IsList.follow_all (h : IsList k d l) {pool : List ν} (hl : l ⊆ pool) :
    follow k.next pool.length d.head = l := by
  rw [h.follow_next, List.take_of_length_le (List.subperm_of_subset h.nodup hl).length_le]

/-- **The walk from the tail meets them in reverse.** -/
theorem IsList.follow_prev (h : IsList k d l) (m : ℕ) :
    follow k.prev m d.tail = l.reverse.take m := by
  rw [h.tail]; exact follow_prev_prefix h l [] (by simp) m

/-- A node met on a walk of `m` nodes from the tail has fewer than `m` behind it. -/
lemma IsList.split_of_mem_follow (h : IsList k d l) {m : ℕ} {x : ν}
    (hx : x ∈ follow k.prev m d.tail) : ∃ a b, l = a ++ x :: b ∧ b.length < m := by
  rw [h.follow_prev] at hx
  obtain ⟨a, b, rfl⟩ := List.append_of_mem (List.mem_reverse.mp (List.mem_of_mem_take hx))
  refine ⟨a, b, rfl, ?_⟩
  by_contra hge
  have hnd := (List.nodup_append.mp h.nodup).2.1
  rw [List.reverse_append, List.reverse_cons, List.append_assoc,
    List.take_append_of_le_length (by simpa using hge)] at hx
  exact (List.nodup_cons.mp hnd).1 (List.mem_reverse.mp (List.mem_of_mem_take hx))

/-! ### The operations -/

variable [DecidableEq ν] {n : ν}

/-- Linking a new node in puts it first. -/
theorem IsList.pushFront (h : IsList k d l) (hn : n ∉ l) :
    IsList (k.pushFront d n) (d.pushFront n) (n :: l) where
  head := rfl
  tail := by
    simp only [Ends.pushFront, h.tail]
    cases l with
    | nil => rfl
    | cons a r => simp [List.getLast?_cons]
  nodup := List.nodup_cons.mpr ⟨hn, h.nodup⟩
  links a x b e := by
    rw [pushFront_prev, pushFront_next, h.head]
    cases a with
    | nil =>
      obtain ⟨rfl, rfl⟩ : n = x ∧ l = b := by simpa using e
      have : l.head? ≠ some n := fun hh => hn (List.mem_of_mem_head? (by simp [hh]))
      simp [this]
    | cons y a =>
      obtain ⟨rfl, hl⟩ : n = y ∧ l = a ++ x :: b := by simpa using e
      obtain ⟨hp, hx⟩ := h.links a x b hl
      have hxn : x ≠ n := by rintro rfl; exact hn (by simp [hl])
      cases a with
      | nil => simp [hl, hxn, hx]
      | cons z a =>
        have hnd := h.nodup
        rw [hl, List.cons_append, List.nodup_cons] at hnd
        have hzx : z ≠ x := by rintro rfl; exact hnd.1 (by simp)
        simp [hl, hxn, hx, hp, hzx, List.getLast?_cons]

lemma split_erase {a b : List ν} (h : (a ++ n :: b).Nodup) : (a ++ n :: b).erase n = a ++ b := by
  have hn : n ∉ a := fun ha => by
    have := List.disjoint_of_nodup_append h ha
    simp at this
  rw [List.erase_append_right _ hn, List.erase_cons_head]

/-- Unlinking a node takes it out, wherever it stands. -/
theorem IsList.unlink (h : IsList k d l) (hn : n ∈ l) :
    IsList (k.unlink n) (d.unlink k n) (l.erase n) := by
  obtain ⟨a, b, rfl⟩ := List.append_of_mem hn
  obtain ⟨hp, hx⟩ := h.links a n b rfl
  have hnd := h.nodup
  rw [split_erase hnd]
  rw [List.nodup_append] at hnd
  obtain ⟨ha, hb, hab⟩ := hnd
  obtain ⟨hnb, hb⟩ := List.nodup_cons.mp hb
  have hna : n ∉ a := fun hm => hab n hm n (by simp) rfl
  have hne : ∀ x ∈ a ++ b, x ≠ n := by
    rintro x hm rfl
    rcases List.mem_append.mp hm with hm | hm
    · exact hna hm
    · exact hnb hm
  refine ⟨?_, ?_, ?_, fun a' x b' e => ?_⟩
  · have := h.head
    cases a with
    | nil => simp [Ends.unlink, hp, hx]
    | cons y a => simp [Ends.unlink, hp, this, List.getLast?_cons]
  · have := h.tail
    cases b with
    | nil => simp [Ends.unlink, hp, hx]
    | cons y b => simp [Ends.unlink, hx, this, List.getLast?_append, List.getLast?_cons]
  · exact List.nodup_append.mpr ⟨ha, hb, fun x hxa y hyb =>
      hab x hxa y (List.mem_cons_of_mem _ hyb)⟩
  · rw [unlink_prev, unlink_next, if_neg (hne x (by simp [e])), if_neg (hne x (by simp [e]))]
    rw [hp, hx]
    rcases List.append_eq_append_iff.mp e with ⟨c, rfl, rfl⟩ | ⟨c, rfl, hc⟩
    · -- `x` stands behind `n`
      obtain ⟨hp', hx'⟩ := h.links (a ++ n :: c) x b' (by simp)
      rw [hp', hx']
      have hxa : a.getLast? ≠ some x := fun hl =>
        hab x (List.mem_of_getLast? hl) x (by simp) rfl
      rw [if_neg hxa]
      refine ⟨?_, rfl⟩
      cases c with
      | nil => simp
      | cons z c =>
        have : z ≠ x := by rintro rfl; simp at hb
        simp [this, List.getLast?_append, List.getLast?_cons]
    · cases c with
      | nil =>
        -- `x` is the node behind `n`
        obtain rfl : b = x :: b' := by simpa using hc.symm
        obtain ⟨hp', hx'⟩ := h.links (a' ++ [n]) x b' (by simp)
        have hxa : a'.getLast? ≠ some x := fun hl =>
          hab x (by simpa using List.mem_of_getLast? hl) x (by simp) rfl
        simp [hxa, hx']
      | cons z c =>
        -- `x` stands before `n`
        obtain ⟨rfl, rfl⟩ : x = z ∧ b' = c ++ b := by simpa using hc
        obtain ⟨hp', hx'⟩ := h.links a' x (c ++ n :: b) (by simp)
        have hxb : b.head? ≠ some x := fun hl =>
          hab x (by simp) x (by simp [List.mem_of_mem_head? (by simp [hl] : x ∈ b.head?)]) rfl
        rw [hp', hx', if_neg hxb]
        refine ⟨rfl, ?_⟩
        cases c with
        | nil => simp
        | cons y c =>
          have hyc : (y :: c).getLast? ≠ some x := fun hl =>
            (List.nodup_cons.mp (List.nodup_append.mp ha).2.1).1 (List.mem_of_getLast? hl)
          simp [hyc]

/-- Unlinking touches no links but those of the list. -/
lemma IsList.unlink_links (h : IsList k d l) (hn : n ∈ l) {x : ν} (hx : x ∉ l) :
    (k.unlink n).prev x = k.prev x ∧ (k.unlink n).next x = k.next x := by
  obtain ⟨a, b, rfl⟩ := List.append_of_mem hn
  obtain ⟨hp, hnx⟩ := h.links a n b rfl
  have h1 : x ≠ n := by rintro rfl; exact hx hn
  have h2 : b.head? ≠ some x := fun hl =>
    hx (by simp [List.mem_of_mem_head? (by simp [hl] : x ∈ b.head?)])
  have h3 : a.getLast? ≠ some x := fun hl => hx (by simp [List.mem_of_getLast? hl])
  simp [unlink_prev, unlink_next, hp, hnx, h1, h2, h3]

/-- Linking a node in touches no links but its own and those of the list. -/
lemma IsList.pushFront_links (h : IsList k d l) {x : ν} (hx : x ∉ l) (hxn : x ≠ n) :
    (k.pushFront d n).prev x = k.prev x ∧ (k.pushFront d n).next x = k.next x := by
  have : l.head? ≠ some x := fun hl => hx (List.mem_of_mem_head? (by simp [hl]))
  simp [pushFront_prev, pushFront_next, h.head, this, hxn]

end Tempograph.LinkedList
