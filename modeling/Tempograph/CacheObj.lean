import Tempograph.LinkedList
import Tempograph.Recency

/-!
The queue of cached objects in libCacheSim (`cacheObj.c`).

The functions work on a head and a tail that the caller owns and take care of both ends
themselves. On a well-formed queue they are the operations of an intrusive list.
-/

namespace Tempograph.CacheObj

open LinkedList Recency

variable {ν : Type*} [DecidableEq ν] {k : Links ν} {d : Ends ν} {l : List ν} {x : ν}

def removeObjFromList (k : Links ν) (d : Ends ν) (x : ν) : Links ν × Ends ν :=
  let (k, d) := if d.head = some x then
    ({ k with prev := write k.prev (k.next x) none }, { d with head := k.next x }) else (k, d)
  let (k, d) := if d.tail = some x then
    ({ k with next := write k.next (k.prev x) none }, { d with tail := k.prev x }) else (k, d)
  let k := { k with next := write k.next (k.prev x) (k.next x) }
  let k := { k with prev := write k.prev (k.next x) (k.prev x) }
  (⟨Function.update k.prev x none, Function.update k.next x none⟩, d)

/-- Link `x` in before the head `h`, when its neighbours no longer know it. -/
def relink (k : Links ν) (d : Ends ν) (h x : ν) : Links ν × Ends ν :=
  (⟨Function.update (Function.update k.prev h (some x)) x none,
    Function.update k.next x (some h)⟩, { d with head := some x })

/-- No result if a null link is followed. -/
def moveObjToHead (k : Links ν) (d : Ends ν) (x : ν) : Option (Links ν × Ends ν) :=
  if d.head = d.tail then some (k, d)
  else if d.head = some x then some (k, d)
  else match d.head, k.prev x with
    | some h, some p =>
      let k := { k with next := Function.update k.next p (k.next x) }
      if d.tail = some x then some (relink k { d with tail := some p } h x)
      else match k.next x with
        | some n => some (relink { k with prev := Function.update k.prev n (some p) } d h x)
        | none => none
    | _, _ => none

def prependObjToHead (k : Links ν) (d : Ends ν) (x : ν) : Links ν × Ends ν :=
  (⟨write (Function.update k.prev x none) d.head (some x), Function.update k.next x d.head⟩,
    ⟨some x, if d.tail = none then some x else d.tail⟩)

/-! ### On a well-formed queue -/

omit [DecidableEq ν] in
/-- What a node of the queue and the ends know of each other. -/
lemma around (h : IsList k d l) (hx : x ∈ l) :
    (d.head = some x ↔ k.prev x = none) ∧ (d.tail = some x ↔ k.next x = none) ∧
      k.prev x ≠ some x ∧ k.next x ≠ some x := by
  obtain ⟨a, b, rfl⟩ := List.append_of_mem hx
  obtain ⟨hp, hn⟩ := h.links a x b rfl
  have hnd := h.nodup
  rw [List.nodup_append] at hnd
  obtain ⟨-, hb, hab⟩ := hnd
  have hxa : x ∉ a := fun hm => hab x hm x (by simp) rfl
  have hxb := (List.nodup_cons.mp hb).1
  rw [h.head, h.tail, hp, hn]
  refine ⟨?_, ?_, fun e => hxa (List.mem_of_getLast? e),
    fun e => hxb (List.mem_of_mem_head? (by simp [e]))⟩
  · cases a with
    | nil => simp
    | cons y a =>
      have hyx : y ≠ x := by rintro rfl; simp at hxa
      simp [hyx, List.getLast?_cons]
  · cases hl : b.getLast? with
    | none =>
      obtain rfl := List.getLast?_eq_none_iff.mp hl
      simp
    | some y =>
      have hyx : y ≠ x := by rintro rfl; exact hxb (List.mem_of_getLast? hl)
      have hne : b ≠ [] := by rintro rfl; simp at hl
      simp [List.getLast?_append, List.getLast?_cons, hl, hyx, hne]

theorem removeObjFromList_eq (h : IsList k d l) (hx : x ∈ l) :
    removeObjFromList k d x = (k.unlink x, d.unlink k x) := by
  obtain ⟨hhead, htail, hpx, hnx⟩ := around h hx
  cases hp : k.prev x with
  | none =>
    cases hn : k.next x with
    | none => simp [removeObjFromList, Links.unlink, Ends.unlink, hp, hn, hhead, htail, write]
    | some n =>
      have hne : x ≠ n := by rintro rfl; exact hnx hn
      simp [removeObjFromList, Links.unlink, Ends.unlink, hp, hn, hhead, htail, write, hne]
  | some p =>
    cases hn : k.next x with
    | none =>
      have hne : x ≠ p := by rintro rfl; exact hpx hp
      simp [removeObjFromList, Links.unlink, Ends.unlink, hp, hn, hhead, htail, write, hne]
    | some n =>
      have hne : x ≠ p := by rintro rfl; exact hpx hp
      simp [removeObjFromList, Links.unlink, Ends.unlink, hp, hn, hhead, htail, write, hne]

lemma prependObjToHead_eq (k : Links ν) (d : Ends ν) (x : ν) :
    prependObjToHead k d x = (k.pushFront d x, d.pushFront x) := by
  unfold prependObjToHead Links.pushFront Ends.pushFront
  cases d.tail <;> rfl

/-- A node behind the head is unlinked and linked in before it. -/
lemma moveObjToHead_eq (h : IsList k d l) (hx : x ∈ l) (hne : d.head ≠ d.tail)
    (hhead : d.head ≠ some x) : moveObjToHead k d x =
      some ((k.unlink x).pushFront (d.unlink k x) x, (d.unlink k x).pushFront x) := by
  obtain ⟨h1, h2, hpx, hnx⟩ := around h hx
  obtain ⟨p, hp⟩ := Option.ne_none_iff_exists'.mp fun e => hhead (h1.mpr e)
  obtain ⟨y, hy⟩ : ∃ y, d.head = some y := by
    rw [h.head]
    cases l with
    | nil => simp at hx
    | cons y l => exact ⟨y, rfl⟩
  have hpne : x ≠ p := by rintro rfl; exact hpx hp
  have hyx : y ≠ x := by rintro rfl; exact hhead hy
  rw [hy] at hne
  cases hn : k.next x with
  | none =>
    have htail := h2.mpr hn
    simp [moveObjToHead, htail, hyx, hy, hp, relink, Links.pushFront, Ends.pushFront,
      Links.unlink, Ends.unlink, hn, write]
    exact Function.update_comm hyx _ _ _
  | some n =>
    have htail : d.tail ≠ some x := fun e => by simp [h2.mp e] at hn
    have hnne : x ≠ n := by rintro rfl; exact hnx hn
    have hsome : d.tail ≠ none := fun e => by
      have := h.tail
      rw [e] at this
      simp [List.getLast?_eq_none_iff.mp this.symm] at hx
    simp [moveObjToHead, htail, hne, hyx, hy, hp, relink, Links.pushFront, Ends.pushFront,
      Links.unlink, Ends.unlink, hn, write, hpne, hsome]
    exact Function.update_comm hyx _ _ _

/-! ### The queue as a list -/

theorem removeObjFromList_spec (h : IsList k d l) (hx : x ∈ l) :
    IsList (removeObjFromList k d x).1 (removeObjFromList k d x).2 (l.erase x) := by
  rw [removeObjFromList_eq h hx]
  exact h.unlink hx

theorem prependObjToHead_spec (h : IsList k d l) (hx : x ∉ l) :
    IsList (prependObjToHead k d x).1 (prependObjToHead k d x).2 (x :: l) := by
  rw [prependObjToHead_eq]
  exact h.pushFront hx

/-- **Moving to the head** never follows a null link, and keeps the order of the others. -/
theorem moveObjToHead_spec (h : IsList k d l) (hx : x ∈ l) :
    ∃ k' d', moveObjToHead k d x = some (k', d') ∧ IsList k' d' (touch x l) := by
  by_cases hsame : d.head = d.tail ∨ d.head = some x
  · refine ⟨k, d, ?_, ?_⟩
    · unfold moveObjToHead
      by_cases h1 : d.head = d.tail
      · rw [if_pos h1]
      · rw [if_neg h1, if_pos (hsame.resolve_left h1)]
    · -- one node, or the first of them
      obtain ⟨r, rfl⟩ : ∃ r, l = x :: r := by
        have hhead := h.head
        have htail := h.tail
        cases l with
        | nil => simp at hx
        | cons y r =>
          rcases hsame with e | e
          · rw [hhead, htail, List.head?_cons, List.getLast?_cons] at e
            cases hr : r.getLast? with
            | none =>
              obtain rfl := List.getLast?_eq_none_iff.mp hr
              exact ⟨[], by rw [List.mem_singleton.mp hx]⟩
            | some z =>
              obtain rfl : y = z := by simpa [hr] using e
              exact absurd (List.mem_of_getLast? hr) (List.nodup_cons.mp h.nodup).1
          · exact ⟨r, by rw [show y = x by simpa [hhead] using e]⟩
      simpa [touch] using h
  · obtain ⟨h1, h2⟩ := not_or.mp hsame
    exact ⟨_, _, moveObjToHead_eq h hx h1 h2, (h.unlink hx).pushFront h.nodup.not_mem_erase⟩

end Tempograph.CacheObj
