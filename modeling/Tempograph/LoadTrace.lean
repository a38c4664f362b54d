import Tempograph.Common

/-!
The trace file, as `load_trace` (`main.c`) reads it: by `fgets`, in pieces of at most 255
bytes that end at a newline. A piece that begins with # or with a newline is skipped, any
other is one access, to the page that `atoi` reads.

The result of `atoi` for a number that an `int` cannot hold is undefined; it is the parameter
`overflow` here. The message to `stderr` is left out.
-/

namespace Tempograph.LoadTrace

open Common

/-- `sizeof(line)`. -/
def lineSize : ℕ := 256

def newline : UInt8 := 10

def hash : UInt8 := 35

/-- At most `k` bytes of a file, no further than the first newline, and the rest. -/
def piece : ℕ → List UInt8 → List UInt8 × List UInt8
  | 0, file => ([], file)
  | _ + 1, [] => ([], [])
  | k + 1, b :: file =>
    if b = newline then ([b], file)
    else (b :: (piece k file).1, (piece k file).2)

/-- No result is a null pointer, at the end of the file. -/
def fgets (size : ℕ) (file : List UInt8) : Option (List UInt8 × List UInt8) :=
  if file = [] then none else some (piece (size - 1) file)

def isSpace (b : UInt8) : Bool := b = 32 ∨ 9 ≤ b ∧ b ≤ 13

def isDigit (b : UInt8) : Bool := 48 ≤ b ∧ b ≤ 57

/-- The number written by the digits that a text begins with. -/
def digits (s : List UInt8) : ℕ :=
  (s.takeWhile isDigit).foldl (fun v b => 10 * v + (b.toNat - 48)) 0

/-- The number that a text begins with, after white space and a sign. -/
def number (s : List UInt8) : ℤ :=
  match s.dropWhile isSpace with
  | [] => 0
  | b :: s => if b = 45 then -digits s else if b = 43 then digits s else digits (b :: s)

/-- The range of an `int`. -/
def Fits (z : ℤ) : Prop := -2 ^ 31 ≤ z ∧ z < 2 ^ 31

instance (z : ℤ) : Decidable (Fits z) := inferInstanceAs (Decidable (_ ∧ _))

variable (overflow : List UInt8 → Page)

def atoi (s : List UInt8) : Page :=
  if Fits (number s) then Int32.ofInt (number s) else overflow s

/-- The loop, after the accesses `trace`, for at most `fuel` pieces. -/
def load : ℕ → List UInt8 → List Page → List Page
  | 0, _, trace => trace
  | fuel + 1, file, trace =>
    match fgets lineSize file with
    | none => trace
    | some (line, file) =>
      if trace.length < maxTrace then
        if line.head? = some hash ∨ line.head? = some newline then load fuel file trace
        else load fuel file (trace ++ [atoi overflow line])
      else trace

/-- The trace after loading; its length is the result. A piece has at least one byte, so there
are no more pieces than bytes. A file that cannot be opened has no accesses. -/
def loadTrace (file : Option (List UInt8)) : List Page :=
  match file with
  | none => []
  | some file => load overflow (file.length + 1) file []

/-! ### Files of short lines -/

variable {overflow}

lemma piece_line {k : ℕ} {l : List UInt8} (rest : List UInt8) (hl : newline ∉ l)
    (hk : l.length < k) : piece k (l ++ newline :: rest) = (l ++ [newline], rest) := by
  induction l generalizing k with
  | nil =>
    obtain ⟨k, rfl⟩ : ∃ m, k = m + 1 := ⟨k - 1, by simp at hk; omega⟩
    simp [piece]
  | cons b l ih =>
    obtain ⟨k, rfl⟩ : ∃ m, k = m + 1 := ⟨k - 1, by simp at hk; omega⟩
    rw [List.mem_cons, not_or] at hl
    have hb : b ≠ newline := fun e => hl.1 e.symm
    rw [List.cons_append, piece, if_neg hb, ih hl.2 (by simpa using hk)]
    rfl

/-- A line that is one piece and one access. -/
structure Plain (l : List UInt8) : Prop where
  newline : newline ∉ l
  short : l.length + 1 < lineSize
  ne_nil : l ≠ []
  comment : l.head? ≠ some hash

/-- The lines of a file, each with its newline. -/
def unlines (ls : List (List UInt8)) : List UInt8 := ls.flatMap (· ++ [newline])

lemma load_unlines {ls : List (List UInt8)} (hls : ∀ l ∈ ls, Plain l) {fuel : ℕ}
    (hfuel : ls.length < fuel) {trace : List Page}
    (hlen : trace.length + ls.length ≤ maxTrace) :
    load overflow fuel (unlines ls) trace =
      trace ++ ls.map fun l => atoi overflow (l ++ [newline]) := by
  induction ls generalizing fuel trace with
  | nil =>
    obtain ⟨fuel, rfl⟩ : ∃ m, fuel = m + 1 := ⟨fuel - 1, by simp at hfuel; omega⟩
    simp [load, unlines, fgets]
  | cons l ls ih =>
    obtain ⟨fuel, rfl⟩ : ∃ m, fuel = m + 1 := ⟨fuel - 1, by omega⟩
    rw [List.length_cons] at hfuel hlen
    have hl := hls l List.mem_cons_self
    have hfile : unlines (l :: ls) = l ++ newline :: unlines ls := by simp [unlines]
    have hfgets : fgets lineSize (unlines (l :: ls)) = some (l ++ [newline], unlines ls) := by
      have hshort := hl.short
      rw [fgets, if_neg (by simp [hfile]), hfile, piece_line _ hl.newline (by omega)]
    have hhead : ¬((l ++ [newline]).head? = some hash ∨ (l ++ [newline]).head? = some newline) := by
      obtain ⟨b, l, rfl⟩ := List.exists_cons_of_ne_nil hl.ne_nil
      have h1 := hl.comment
      have h2 := hl.newline
      rw [List.mem_cons, not_or] at h2
      rw [List.cons_append, List.head?_cons, not_or]
      exact ⟨h1, fun e => h2.1 (Option.some.inj e).symm⟩
    rw [load, hfgets]
    simp only [if_pos (show trace.length < maxTrace by omega), if_neg hhead]
    rw [ih (fun l' h' => hls l' (List.mem_cons_of_mem _ h')) (by omega) (by simp; omega),
      List.map_cons, List.append_assoc, List.singleton_append]

/-- **A file of short lines is read line by line.** -/
theorem loadTrace_unlines {ls : List (List UInt8)} (hls : ∀ l ∈ ls, Plain l)
    (hlen : ls.length ≤ maxTrace) :
    loadTrace overflow (some (unlines ls)) = ls.map fun l => atoi overflow (l ++ [newline]) := by
  have hbytes : ls.length ≤ (unlines ls).length := by
    rw [unlines, List.length_flatMap]
    calc ls.length = (ls.map fun _ => 1).sum := by simp
      _ ≤ _ := List.sum_le_sum fun l _ => by simp
  exact load_unlines hls (by omega) (by simpa using hlen)

end Tempograph.LoadTrace
