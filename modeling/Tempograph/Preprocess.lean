import Mathlib.Data.List.DropRight
import Mathlib.Data.Int.Init
import Tempograph.LoadTrace

/-!
Address traces turned into page traces (`preprocess_trace.py`), and what `load_trace` makes of
them.

The input is the list of its characters, and the output is one page number a line, all ASCII.
Warnings and the other messages to the console are left out. Python's integers have no bound
and those of `load_trace` are 32-bit, so the two agree as long as the page numbers fit.
-/

namespace Tempograph.Preprocess

open Common LoadTrace

/-! ### The text functions of Python -/

/-- What `int` takes from the interpreter: the zeros of the scripts with decimal digits, and
how many decimal digits a number may have, 0 for any number. -/
structure Python where
  zeros : List ℕ
  maxDigits : ℕ

/-- CPython 3.11. -/
def cpython : Python where
  zeros := [0x660, 0x6F0, 0x7C0, 0x966, 0x9E6, 0xA66, 0xAE6, 0xB66, 0xBE6, 0xC66, 0xCE6, 0xD66,
    0xDE6, 0xE50, 0xED0, 0xF20, 0x1040, 0x1090, 0x17E0, 0x1810, 0x1946, 0x19D0, 0x1A80, 0x1A90,
    0x1B50, 0x1BB0, 0x1C40, 0x1C50, 0xA620, 0xA8D0, 0xA900, 0xA9D0, 0xA9F0, 0xAA50, 0xABF0, 0xFF10,
    0x104A0, 0x10D30, 0x11066, 0x110F0, 0x11136, 0x111D0, 0x112F0, 0x11450, 0x114D0, 0x11650,
    0x116C0, 0x11730, 0x118E0, 0x11950, 0x11C50, 0x11D50, 0x11DA0, 0x16A60, 0x16AC0, 0x16B50,
    0x1D7CE, 0x1D7D8, 0x1D7E2, 0x1D7EC, 0x1D7F6, 0x1E140, 0x1E2F0, 0x1E950, 0x1FBF0]
  maxDigits := 4300

def spaces : List ℕ :=
  [0x9, 0xA, 0xB, 0xC, 0xD, 0x1C, 0x1D, 0x1E, 0x1F, 0x20, 0x85, 0xA0, 0x1680, 0x2000, 0x2001, 0x2002,
    0x2003, 0x2004, 0x2005, 0x2006, 0x2007, 0x2008, 0x2009, 0x200A, 0x2028, 0x2029, 0x202F, 0x205F,
    0x3000]

def isSpace (c : Char) : Bool := spaces.contains c.toNat

def strip (s : List Char) : List Char := (s.dropWhile isSpace).rdropWhile isSpace

/-- A file in text mode has newlines for its other line ends. -/
def newlines : List Char → List Char
  | '\r' :: '\n' :: s => '\n' :: newlines s
  | c :: s => (if c = '\r' then '\n' else c) :: newlines s
  | [] => []

/-- The lines, and an empty one behind the last newline, which no line of the loop is. -/
def lines (text : List Char) : List (List Char) := (newlines text).splitOn '\n'

/-- Decimal digits of other scripts count as those of ASCII. -/
def Python.toAscii (py : Python) (c : Char) : Char :=
  if c.toNat < 127 then c
  else
    match py.zeros.find? fun z => z ≤ c.toNat ∧ c.toNat ≤ z + 9 with
    | some z => (c.toNat - z).digitChar
    | none => '?'

def digitValue (c : Char) : Option ℕ :=
  if '0' ≤ c ∧ c ≤ '9' then some (c.toNat - 48)
  else if 'a' ≤ c ∧ c ≤ 'z' then some (c.toNat - 87)
  else if 'A' ≤ c ∧ c ≤ 'Z' then some (c.toNat - 55)
  else none

def digit (base : ℕ) (c : Char) : Option ℕ := (digitValue c).filter (· < base)

/-- At least one digit, and underscores only between two of them. -/
def digitList (base : ℕ) : List Char → Option (List ℕ)
  | [] => none
  | [c] => (digit base c).map ([·])
  | c :: '_' :: s => (digit base c).bind fun d => (digitList base s).map (d :: ·)
  | c :: c' :: s => (digit base c).bind fun d => (digitList base (c' :: s)).map (d :: ·)

/-- The prefix of a number to the base 16. -/
def dropPrefix : List Char → List Char
  | '0' :: 'x' :: '_' :: s => s
  | '0' :: 'X' :: '_' :: s => s
  | '0' :: 'x' :: s => s
  | '0' :: 'X' :: s => s
  | s => s

def Python.allows (py : Python) (digits : ℕ) : Prop := py.maxDigits = 0 ∨ digits ≤ py.maxDigits

instance (py : Python) (digits : ℕ) : Decidable (py.allows digits) :=
  inferInstanceAs (Decidable (_ ∨ _))

/-- The digits of a number without its sign; only decimal ones are limited in number. -/
def unsignedInt (py : Python) (base : ℕ) (s : List Char) : Option ℕ :=
  match digitList base (if base = 16 then dropPrefix s else s) with
  | none => none
  | some ds =>
    if base = 10 ∧ ¬py.allows ds.length then none
    else some (ds.foldl (fun v d => base * v + d) 0)

/-- `int` of a stripped text. No result is a `ValueError`. -/
def pyInt (py : Python) (base : ℕ) (s : List Char) : Option ℤ :=
  match s.map py.toAscii with
  | '+' :: s => (unsignedInt py base s).map Int.ofNat
  | '-' :: s => (unsignedInt py base s).map fun v => -Int.ofNat v
  | s => (unsignedInt py base s).map Int.ofNat

/-- The decimal digits of a number, behind its sign. -/
def pyStr (z : ℤ) : List Char :=
  if z < 0 then '-' :: Nat.toDigits 10 z.natAbs else Nat.toDigits 10 z.natAbs

/-! ### The loop over the lines -/

/-- The address in the second field of a line; a line that is blank, a comment or has fewer
fields has none. -/
def address (py : Python) (line : List Char) : Option ℤ :=
  let line := strip line
  if line = [] ∨ line.head? = some '#' then none
  else
    match line.splitOn ',' with
    | _ :: field :: _ =>
      let addr_str := strip field
      if ['0', 'x'].isPrefixOf addr_str then pyInt py 16 addr_str else pyInt py 10 addr_str
    | _ => none

/-- What a line comes to. Only a `ValueError` is caught, so division by zero ends the run. -/
inductive Outcome
  | skip
  | write (page_id : ℤ)
  | raise
  deriving DecidableEq

def processLine (py : Python) (page_size : ℤ) (line : List Char) : Outcome :=
  match address py line with
  | none => .skip
  | some address =>
    if page_size = 0 then .raise
    else
      let page_id := address.fdiv page_size
      -- to write a number with too many digits is a `ValueError` as well
      if py.allows (Nat.toDigits 10 page_id.natAbs).length then .write page_id else .skip

/-- What is written for the lines. -/
def processLines (py : Python) (page_size : ℤ) : List (List Char) → Option (List Char)
  | [] => some []
  | line :: lines =>
    match processLine py page_size line with
    | .skip => processLines py page_size lines
    | .write page_id =>
      (processLines py page_size lines).map fun file => pyStr page_id ++ '\n' :: file
    | .raise => none

/-- The output file; no result is an error that is not caught. -/
def preprocessTrace (py : Python) (page_size : ℤ) (text : List Char) : Option (List Char) :=
  processLines py page_size (lines text)

/-- The bytes of a text in ASCII. -/
def encode (text : List Char) : List UInt8 := text.map Char.toUInt8

/-- The page number written for a line. -/
def pageId (py : Python) (page_size : ℤ) (line : List Char) : Option ℤ :=
  match processLine py page_size line with
  | .write page_id => some page_id
  | _ => none

/-- The page numbers written, in order. -/
def pageIds (py : Python) (page_size : ℤ) (text : List Char) : List ℤ :=
  (lines text).filterMap (pageId py page_size)

variable {py : Python} {page_size : ℤ} {overflow : List UInt8 → Page}

/-- A positive page size raises nothing, and the file is the page numbers, one a line. -/
lemma preprocessTrace_eq (hs : 1 ≤ page_size) (text : List Char) :
    preprocessTrace py page_size text =
      some ((pageIds py page_size text).flatMap fun z => pyStr z ++ ['\n']) := by
  unfold preprocessTrace pageIds
  induction lines text with
  | nil => rfl
  | cons line lines ih =>
    rw [processLines, ih, List.filterMap_cons]
    cases hl : processLine py page_size line with
    | skip => simp only [pageId, hl]
    | write z => simp [pageId, hl]
    | raise =>
      exfalso
      unfold processLine at hl
      cases ha : address py line with
      | none => simp [ha] at hl
      | some a =>
        simp only [ha, if_neg (show page_size ≠ 0 by omega)] at hl
        split_ifs at hl

/-! ### Numbers written and read -/

lemma toNat_toUInt8 {c : Char} (hc : c.isDigit) :
    c.toUInt8.toNat = c.toNat ∧ 48 ≤ c.toNat ∧ c.toNat ≤ 57 := by
  have h : 48 ≤ c.toNat ∧ c.toNat ≤ 57 := Char.isDigit_iff_toNat.mp hc
  have h1 : c.toUInt8.toNat = c.toNat % 2 ^ 8 := UInt32.toNat_toUInt8 c.val
  omega

lemma isDigit_of_mem {c : Char} {n : ℕ} (hc : c ∈ Nat.toDigits 10 n) : c.isDigit :=
  Nat.isDigit_of_mem_toDigits (by decide) (by decide) hc

lemma isDigit_toUInt8 {c : Char} (hc : c.isDigit) : LoadTrace.isDigit c.toUInt8 = true := by
  obtain ⟨h1, h2, h3⟩ := toNat_toUInt8 hc
  simp only [LoadTrace.isDigit, decide_eq_true_eq, UInt8.le_iff_toNat_le, h1]
  exact ⟨h2, h3⟩

/-- The digits of a number are read back, up to what follows them. -/
lemma digits_encode (n : ℕ) {t : List UInt8} (hstop : t.takeWhile LoadTrace.isDigit = []) :
    digits (encode (Nat.toDigits 10 n) ++ t) = n := by
  have hall : ∀ b ∈ encode (Nat.toDigits 10 n), LoadTrace.isDigit b = true := fun b hb => by
    obtain ⟨c, hc, rfl⟩ := List.mem_map.mp hb
    exact isDigit_toUInt8 (isDigit_of_mem hc)
  rw [digits, List.takeWhile_append_of_pos hall, hstop, List.append_nil, encode, List.foldl_map]
  calc (Nat.toDigits 10 n).foldl (fun v c => 10 * v + (c.toUInt8.toNat - 48)) 0
      = (Nat.toDigits 10 n).foldl (fun v c => 10 * v + (c.toNat - '0'.toNat)) 0 :=
        List.foldl_ext _ _ _ fun v c hc => by
          rw [(toNat_toUInt8 (isDigit_of_mem hc)).1]
          rfl
    _ = n := by rw [← Nat.ofDigitChars_eq_foldl, Nat.ofDigitChars_ten_toDigits]

/-- A digit is no white space and no sign. -/
lemma digit_plain {b : UInt8} (hb : 48 ≤ b.toNat) :
    ¬LoadTrace.isSpace b = true ∧ b ≠ 45 ∧ b ≠ 43 := by
  have h45 : (45 : UInt8).toNat = 45 := rfl
  have h43 : (43 : UInt8).toNat = 43 := rfl
  have h32 : (32 : UInt8).toNat = 32 := rfl
  have h13 : (13 : UInt8).toNat = 13 := rfl
  simp only [LoadTrace.isSpace, decide_eq_true_eq, UInt8.le_iff_toNat_le, ne_eq, ← UInt8.toNat_inj]
  omega

/-- **A number that `str` writes is the number that `atoi` reads.** -/
lemma number_pyStr (z : ℤ) {t : List UInt8} (hstop : t.takeWhile LoadTrace.isDigit = []) :
    number (encode (pyStr z) ++ t) = z := by
  have hd := digits_encode z.natAbs hstop
  unfold pyStr
  split_ifs with hz
  · have hsign : encode ('-' :: Nat.toDigits 10 z.natAbs) ++ t =
        45 :: (encode (Nat.toDigits 10 z.natAbs) ++ t) := rfl
    have hspace : LoadTrace.isSpace 45 = false := rfl
    rw [number, hsign, List.dropWhile_cons_of_neg (by simp [hspace])]
    simp only [if_true, hd]
    omega
  · obtain ⟨c, s, hcs⟩ := List.exists_cons_of_ne_nil (Nat.toDigits_ne_nil (b := 10) (n := z.natAbs))
    have hc := toNat_toUInt8 (isDigit_of_mem (hcs ▸ List.mem_cons_self))
    have hhead : encode (Nat.toDigits 10 z.natAbs) ++ t = c.toUInt8 :: (encode s ++ t) := by
      rw [hcs]
      rfl
    obtain ⟨hspace, h1, h2⟩ := digit_plain (b := c.toUInt8) (by omega)
    rw [hhead] at hd ⊢
    rw [number, List.dropWhile_cons_of_neg hspace]
    simp only [if_neg h1, if_neg h2, hd]
    omega

lemma mem_encode_pyStr {z : ℤ} {b : UInt8} (hb : b ∈ encode (pyStr z)) :
    b.toNat = 45 ∨ 48 ≤ b.toNat ∧ b.toNat ≤ 57 := by
  obtain ⟨c, hc, rfl⟩ := List.mem_map.mp hb
  have hdigit : c ∈ Nat.toDigits 10 z.natAbs → 48 ≤ c.toUInt8.toNat ∧ c.toUInt8.toNat ≤ 57 :=
    fun hc => by
      have h := toNat_toUInt8 (isDigit_of_mem hc)
      omega
  unfold pyStr at hc
  split_ifs at hc
  · rcases List.mem_cons.mp hc with rfl | hc
    · exact Or.inl rfl
    · exact Or.inr (hdigit hc)
  · exact Or.inr (hdigit hc)

/-- The line of a number that fits is one piece and one access. -/
lemma plain_pyStr {z : ℤ} (hz : Fits z) : Plain (encode (pyStr z)) := by
  have hlen : (Nat.toDigits 10 z.natAbs).length ≤ 10 := by
    rw [Nat.length_toDigits_le_iff (by decide) (by decide)]
    obtain ⟨h1, h2⟩ := hz
    omega
  refine ⟨fun hb => ?_, ?_, ?_, fun hb => ?_⟩
  · have hn : newline.toNat = 10 := rfl
    have := mem_encode_pyStr hb
    omega
  · simp only [encode, List.length_map, pyStr, lineSize]
    split_ifs
    · rw [List.length_cons]
      omega
    · omega
  · rw [encode, ne_eq, List.map_eq_nil_iff, pyStr]
    split_ifs
    · exact not_false
    · exact Nat.toDigits_ne_nil
  · have hh : hash.toNat = 35 := rfl
    have := mem_encode_pyStr (List.mem_of_head? hb)
    omega

/-- Page numbers that fit are loaded as they are. -/
lemma load_ids {ids : List ℤ} (hids : ∀ z ∈ ids, Fits z) (hlen : ids.length ≤ maxTrace) :
    loadTrace overflow (some (encode (ids.flatMap fun z => pyStr z ++ ['\n']))) =
      ids.map Int32.ofInt := by
  have hfile : encode (ids.flatMap fun z => pyStr z ++ ['\n']) =
      unlines (ids.map fun z => encode (pyStr z)) := by
    simp only [encode, unlines, List.map_flatMap, List.flatMap_map, List.map_append]
    rfl
  have hplain : ∀ l ∈ ids.map fun z => encode (pyStr z), Plain l := fun l hl => by
    obtain ⟨z, hz, rfl⟩ := List.mem_map.mp hl
    exact plain_pyStr (hids z hz)
  rw [hfile, loadTrace_unlines hplain (by rwa [List.length_map]), List.map_map]
  apply List.map_congr_left
  intro z hz
  have hstop : [newline].takeWhile LoadTrace.isDigit = [] := rfl
  simp only [Function.comp_apply, atoi, number_pyStr z hstop, if_pos (hids z hz)]

/-! ### Writer and reader -/

/-- The trace is the page numbers, and different ones stay different. -/
structure Faithful (ids : List ℤ) (tr : List Page) : Prop where
  read : tr.map Int32.toInt = ids
  apart : ∀ (i j : ℕ) (p q : Page), tr[i]? = some p → tr[j]? = some q → ids[i]? ≠ ids[j]? → p ≠ q

/-- Every address that is turned into a page number has one that an `int` holds. -/
def AddressesFit (py : Python) (page_size : ℤ) (text : List Char) : Prop :=
  ∀ line ∈ lines text, (pageId py page_size line).isSome → ∀ a ∈ address py line,
    -2 ^ 31 * page_size ≤ a ∧ a < 2 ^ 31 * page_size

lemma pageId_eq_some (hs : 1 ≤ page_size) {line : List Char} {z : ℤ}
    (h : pageId py page_size line = some z) :
    ∃ a, address py line = some a ∧ z = a.fdiv page_size := by
  unfold pageId processLine at h
  cases ha : address py line with
  | none => simp [ha] at h
  | some a =>
    simp only [ha, if_neg (show page_size ≠ 0 by omega)] at h
    split_ifs at h
    exact ⟨a, rfl, (Option.some.inj h).symm⟩

lemma fits_fdiv (hs : 1 ≤ page_size) (a : ℤ) :
    Fits (a.fdiv page_size) ↔ -2 ^ 31 * page_size ≤ a ∧ a < 2 ^ 31 * page_size := by
  have hpos : 0 < page_size := by omega
  rw [Int.fdiv_eq_ediv_of_nonneg _ hpos.le, Fits, Int.le_ediv_iff_mul_le hpos,
    Int.ediv_lt_iff_lt_mul hpos]

lemma addressesFit_iff (hs : 1 ≤ page_size) (text : List Char) :
    AddressesFit py page_size text ↔ ∀ z ∈ pageIds py page_size text, Fits z := by
  constructor
  · intro h z hz
    obtain ⟨line, hl, hz⟩ := List.mem_filterMap.mp hz
    obtain ⟨a, ha, rfl⟩ := pageId_eq_some hs hz
    exact (fits_fdiv hs a).mpr (h line hl (by simp [hz]) a ha)
  · intro h line hl hw a ha
    obtain ⟨z, hz⟩ := Option.isSome_iff_exists.mp hw
    obtain ⟨a', ha', rfl⟩ := pageId_eq_some hs hz
    obtain rfl : a' = a := Option.some.inj (ha'.symm.trans ha)
    exact (fits_fdiv hs a').mp (h _ (List.mem_filterMap.mpr ⟨line, hl, hz⟩))

/-- `atoi` where it takes a number modulo 2^32. -/
def wrap (s : List UInt8) : Page := Int32.ofInt (number s)

/-- Accesses to the addresses 0 and 2^44. -/
def farApart : List Char := "0,0x0,8\n1,0x100000000000,8\n".toList

/-- In pages of 4096 bytes they are the pages 0 and 2^32, and both are loaded as page 0. -/
theorem not_faithful : ¬ ∀ (overflow : List UInt8 → Page) (py : Python) (page_size : ℤ)
    (text : List Char), 1 ≤ page_size → (pageIds py page_size text).length ≤ maxTrace →
    ∃ file, preprocessTrace py page_size text = some file ∧
      Faithful (pageIds py page_size text) (loadTrace overflow (some (encode file))) := by
  intro h
  have hids : pageIds cpython 4096 farApart = [0, 2 ^ 32] := by decide
  have hload : (preprocessTrace cpython 4096 farApart).map
      (fun file => loadTrace wrap (some (encode file))) = some [0, 0] := by decide
  obtain ⟨file, hfile, hf⟩ := h wrap cpython 4096 farApart (by decide) (by rw [hids]; decide)
  rw [hfile, Option.map_some, Option.some.injEq] at hload
  rw [hids, hload] at hf
  exact hf.apart 0 1 0 0 rfl rfl (by decide) rfl

/-- **Preprocessing and loading agree exactly on the addresses that fit.** -/
theorem load_preprocessed_iff (overflow : List UInt8 → Page) (py : Python) (page_size : ℤ)
    (hs : 1 ≤ page_size) (text : List Char)
    (hlen : (pageIds py page_size text).length ≤ maxTrace) :
    ∃ file, preprocessTrace py page_size text = some file ∧
      (Faithful (pageIds py page_size text) (loadTrace overflow (some (encode file))) ↔
        AddressesFit py page_size text) := by
  refine ⟨_, preprocessTrace_eq hs text, ?_⟩
  rw [addressesFit_iff hs]
  constructor
  · intro h z hz
    rw [← h.read] at hz
    obtain ⟨page, -, rfl⟩ := List.mem_map.mp hz
    exact ⟨Int32.le_toInt page, Int32.toInt_lt page⟩
  · intro h
    have hread : (loadTrace overflow (some (encode ((pageIds py page_size text).flatMap
        fun z => pyStr z ++ ['\n'])))).map Int32.toInt = pageIds py page_size text := by
      rw [load_ids h hlen, List.map_map]
      refine (List.map_congr_left fun z hz => ?_).trans (List.map_id _)
      exact Int32.toInt_ofInt_of_le (h z hz).1 (h z hz).2
    refine ⟨hread, fun i j p q hp hq hne => ?_⟩
    rintro rfl
    rw [← hread, List.getElem?_map, List.getElem?_map, hp, hq] at hne
    exact hne rfl

/-- The theorem at two accesses to one page, and its condition there. -/
theorem load_preprocessed_two : (1 : ℤ) ≤ 4096 ∧
    (pageIds cpython 4096 "0,0x1000,8\n1,4097,8\n".toList).length ≤ maxTrace ∧
    ∃ file, preprocessTrace cpython 4096 "0,0x1000,8\n1,4097,8\n".toList = some file ∧
      Faithful [1, 1] (loadTrace wrap (some (encode file))) := by
  have hids : pageIds cpython 4096 "0,0x1000,8\n1,4097,8\n".toList = [1, 1] := by decide
  have hlen : (pageIds cpython 4096 "0,0x1000,8\n1,4097,8\n".toList).length ≤ maxTrace := by
    rw [hids]
    decide
  obtain ⟨file, hfile, hiff⟩ := load_preprocessed_iff wrap cpython 4096 (by decide)
    "0,0x1000,8\n1,4097,8\n".toList hlen
  refine ⟨by decide, hlen, file, hfile, hids ▸ hiff.mpr ?_⟩
  rw [addressesFit_iff (by decide), hids]
  simp [Fits]

end Tempograph.Preprocess
