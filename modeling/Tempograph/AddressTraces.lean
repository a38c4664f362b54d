import Tempograph.Experiments
import Tempograph.PageSizes

/-!
`preprocess_trace.py` as a program: its arguments, the files it reads and writes, and what the
simulator makes of what it has written.

Which files names stand for, which of them can be opened and what text their bytes are is up
to the system. The input is opened before the output, but read only after the output has been
emptied. Warnings and messages are left out: that they can be printed is taken for granted, as
that the disk takes what is written.
-/

namespace Tempograph.AddressTraces

open LoadTrace hiding isSpace
open Common Preprocess Runs Sim Isolation Renaming CommandLine Report Experiments PageSizes

/-- The contents of the files. -/
abbrev Files := ℕ → List UInt8

/-- What the program asks the system. -/
structure System where
  pathExists : List Char → Bool
  /-- The file that is opened under a name, if it can be; two names may stand for one file. -/
  openRead : List Char → Option ℕ
  openWrite : List Char → Option ℕ
  /-- The lines that are read until bytes come up that are no text, and whether none do. -/
  decode : List UInt8 → List Char × Bool
  decode_nil : decode [] = ([], true)

/-- How the program ends. -/
inductive Exit
  | done
  | usage
  | invalidPageSize
  | missingInput
  /-- An error that is not caught. -/
  | raise
  deriving DecidableEq

variable {sys : System} {py : Python} {page_size s : ℤ} {text input output : List Char}
  {files : Files} {argv ls : List (List Char)} {line : List Char} {f i o : ℕ} {ended : Bool}

/-- What is written before the loop ends, and whether it came to the last line. -/
def written (py : Python) (page_size : ℤ) : List (List Char) → List Char × Bool
  | [] => ([], true)
  | line :: lines =>
    match processLine py page_size line with
    | .skip => written py page_size lines
    | .write page_id =>
      (pyStr page_id ++ '\n' :: (written py page_size lines).1, (written py page_size lines).2)
    | .raise => ([], false)

/-- The function `preprocess_trace` on its files. Bytes that are no text end it like an error
of the loop, behind the lines that were read before. -/
def convert (sys : System) (py : Python) (input_path output_path : List Char) (page_size : ℤ)
    (files : Files) : Files × Exit :=
  if sys.pathExists input_path then
    match sys.openRead input_path, sys.openWrite output_path with
    | some infile, some outfile =>
      let opened := Function.update files outfile []
      let text := sys.decode (opened infile)
      let out := written py page_size (lines text.1)
      (Function.update opened outfile (encode out.1), if out.2 && text.2 then .done else .raise)
    | _, _ => (files, .raise)
  else (files, .missingInput)

def dashPageSize : List Char := ['-', '-', 'p', 'a', 'g', 'e', '-', 's', 'i', 'z', 'e']

/-- The page size, if it is a number; only the third argument can announce one. -/
def pageSize (py : Python) (argv : List (List Char)) : Option ℤ :=
  if argv[3]? = some dashPageSize then argv[4]?.bind fun arg => pyInt py 10 (strip arg)
  else some 4096

def main (sys : System) (py : Python) (argv : List (List Char)) (files : Files) : Files × Exit :=
  match argv[1]?, argv[2]? with
  | some input_trace, some output_file =>
    match pageSize py argv with
    | none => (files, .invalidPageSize)
    | some page_size => convert sys py input_trace output_file page_size files
  | _, _ => (files, .usage)

/-! ### What is written -/

/-- The loop as it was before: an error leaves nothing of what it wrote. -/
lemma processLines_eq (ls : List (List Char)) : processLines py page_size ls =
    if (written py page_size ls).2 then some (written py page_size ls).1 else none := by
  induction ls with
  | nil => rfl
  | cons line ls ih =>
    cases h : processLine py page_size line with
    | skip => simp only [processLines, written, h, ih]
    | write page_id =>
      simp only [processLines, written, h, ih]
      split_ifs <;> rfl
    | raise => simp [processLines, written, h]

lemma processLine_zero (line : List Char) :
    processLine py 0 line = if (address py line).isSome then .raise else .skip := by
  unfold processLine
  cases address py line <;> rfl

lemma processLine_ne_raise (hs : page_size ≠ 0) : processLine py page_size line ≠ .raise := by
  unfold processLine
  cases address py line with
  | none => simp
  | some a =>
    simp only [if_neg hs]
    split_ifs <;> simp

/-- The page size 0 ends the loop at the first address, before anything is written. -/
lemma written_zero (ls : List (List Char)) :
    (written py 0 ls).1 = [] ∧
      ((written py 0 ls).2 = false ↔ ∃ line ∈ ls, (address py line).isSome) := by
  induction ls with
  | nil => simp [written]
  | cons line ls ih =>
    cases h : (address py line).isSome with
    | false => simp [written, processLine_zero, h, ih]
    | true => simp [written, processLine_zero, h]

/-- No other page size ends it. -/
lemma written_ends (hs : page_size ≠ 0) (ls : List (List Char)) :
    (written py page_size ls).2 = true := by
  induction ls with
  | nil => rfl
  | cons line ls ih =>
    cases h : processLine py page_size line with
    | skip => simp only [written, h, ih]
    | write page_id => simp only [written, h, ih]
    | raise => exact absurd h (processLine_ne_raise hs)

/-! ### The files -/

lemma convert_unopened (hthere : sys.pathExists input = true)
    (h : sys.openRead input = none ∨ sys.openWrite output = none) :
    convert sys py input output s files = (files, .raise) := by
  unfold convert
  rw [if_pos hthere]
  rcases h with h | h
  · rw [h]
  · rw [h]
    cases sys.openRead input <;> rfl

lemma convert_opened (hthere : sys.pathExists input = true) (hi : sys.openRead input = some i)
    (ho : sys.openWrite output = some o)
    (htext : sys.decode (Function.update files o [] i) = (text, ended)) :
    convert sys py input output s files =
      (Function.update files o (encode (written py s (lines text)).1),
        if (written py s (lines text)).2 && ended then .done else .raise) := by
  simp only [convert, if_pos hthere, hi, ho, htext, Function.update_idem]

lemma convert_other (h : sys.openWrite output ≠ some f) :
    (convert sys py input output s files).1 f = files f := by
  unfold convert
  split
  · split
    · rename_i o _ ho
      have hne : f ≠ o := fun e => h (e ▸ ho)
      simp only [Function.update_of_ne hne]
    · rfl
  · rfl

lemma convert_keeps : (convert sys py input output s files).1 = files ∨
    (convert sys py input output s files).2 = .done ∨
      (convert sys py input output s files).2 = .raise := by
  unfold convert
  split
  · split
    · refine Or.inr ?_
      dsimp only
      split_ifs
      · exact Or.inl rfl
      · exact Or.inr rfl
    · exact Or.inl rfl
  · exact Or.inl rfl

/-- An input that is the output is empty when it is read. -/
lemma convert_same (hthere : sys.pathExists input = true) (hi : sys.openRead input = some o)
    (ho : sys.openWrite output = some o) :
    convert sys py input output s files = (Function.update files o [], .done) := by
  have htext : sys.decode (Function.update files o [] o) = ([], true) := by
    rw [Function.update_self, sys.decode_nil]
  have hwritten : written py s (lines []) = ([], true) := by
    simp [lines, newlines, written, processLine, address, strip]
  rw [convert_opened hthere hi ho htext, hwritten]
  rfl

lemma convert_apart (hthere : sys.pathExists input = true) (hi : sys.openRead input = some i)
    (ho : sys.openWrite output = some o) (h : i ≠ o) (htext : sys.decode (files i) = (text, ended)) :
    convert sys py input output s files =
      (Function.update files o (encode (written py s (lines text)).1),
        if (written py s (lines text)).2 && ended then .done else .raise) :=
  convert_opened hthere hi ho (by rwa [Function.update_of_ne h])

/-- **What the program does to the files.** Only the file opened for the output is ever changed,
and only if the program goes on past its arguments and both files can be opened. From another
file the page numbers are written; the page size 0 fails at the first address and leaves an
empty file, and bytes that are no text fail behind the lines read until then. From the output
itself, under whatever name, nothing is written, and the addresses are lost without an error. -/
theorem main_files (sys : System) (py : Python) (argv : List (List Char)) (files : Files) :
    (∀ f, (∀ output, argv[2]? = some output → sys.openWrite output ≠ some f) →
        (main sys py argv files).1 f = files f) ∧
      ((main sys py argv files).2 ≠ .done → (main sys py argv files).2 ≠ .raise →
        (main sys py argv files).1 = files) ∧
      ∀ input output s, argv[1]? = some input → argv[2]? = some output →
        pageSize py argv = some s → sys.pathExists input = true →
        (sys.openRead input = none ∨ sys.openWrite output = none →
          main sys py argv files = (files, .raise)) ∧
        ∀ i o, sys.openRead input = some i → sys.openWrite output = some o →
          (i = o → main sys py argv files = (Function.update files o [], .done)) ∧
          (i ≠ o → ∀ text ended, sys.decode (files i) = (text, ended) →
            ((main sys py argv files).2 = .raise ↔
              ended = false ∨ s = 0 ∧ ∃ line ∈ lines text, (address py line).isSome) ∧
            (s = 0 → (main sys py argv files).1 o = []) ∧
            (s ≠ 0 → (main sys py argv files).2 = (if ended then .done else .raise) ∧
              ∃ file, preprocessTrace py s text = some file ∧
                (main sys py argv files).1 o = encode file)) := by
  refine ⟨fun f hf => ?_, ?_, fun input output s h1 h2 hs hthere => ?_⟩
  · unfold main
    split
    · rename_i input output h1 h2
      split
      · rfl
      · exact convert_other (hf output h2)
    · rfl
  · unfold main
    split
    · split
      · exact fun _ _ => rfl
      · exact fun h h' => convert_keeps.resolve_right fun he => he.elim h h'
    · exact fun _ _ => rfl
  · have hmain : main sys py argv files = convert sys py input output s files := by
      simp only [main, h1, h2, hs]
    rw [hmain]
    refine ⟨convert_unopened hthere, fun i o hi ho => ⟨fun e => ?_, fun hne text ended htext => ?_⟩⟩
    · subst e
      exact convert_same hthere hi ho
    · rw [convert_apart hthere hi ho hne htext]
      simp only [Function.update_self]
      refine ⟨?_, fun e => ?_, fun hs => ?_⟩
      · by_cases hs : s = 0
        · subst hs
          rw [← (written_zero (lines text)).2]
          cases (written py 0 (lines text)).2 <;> cases ended <;> simp
        · rw [written_ends hs]
          cases ended <;> simp [hs]
      · subst e
        rw [(written_zero _).1]
        rfl
      · have hends := @written_ends py _ hs (lines text)
        refine ⟨by rw [hends, Bool.true_and], _, ?_, rfl⟩
        rw [preprocessTrace, processLines_eq, if_pos hends]

/-! ### The simulator on what was written -/

/-- The rows of all policies. -/
def rows (M : Malloc) (tr : List Page) (n : ℕ) (W : ℤ) (clock : Pass → ℚ) : List Char :=
  algos.flatMap fun algo =>
    printResult (algoName algo) n (report M tr algo n W) (clock ⟨algo, n, W⟩)

lemma stdout_request {overflow : List UInt8 → Int32} {M : Malloc}
    {files : Arg → Option (List UInt8)} {path : Arg} {tr : List Page} {n_frames window : Int32}
    {n : ℕ} (clock : Pass → ℚ) (hn : 1 ≤ n) (hn' : n ≤ maxFrames) (hframes : n_frames.toInt = n)
    (hpath : path.head? ≠ some minus) (hload : loadTrace overflow (files path) = tr)
    (hne : tr ≠ []) (hlen : tr.length ≤ maxTrace) :
    stdout overflow M files clock (CommandLine.request n_frames window path) =
      .ok (some (header ++ rows M tr n window.toInt clock)) := by
  obtain ⟨σ, hrun⟩ := run_reports M start algos hn hn' window.toInt hlen
  have hpasses : passes ⟨n_frames, window, none, some path⟩ =
      algos.map fun algo => ⟨algo, n, window.toInt⟩ := by
    rw [← hframes]
    rfl
  unfold stdout
  rw [accept_request hpath (by rwa [hload])]
  simp only [hload, hpasses, outputs_eq hrun]
  rfl

def script : List Char := "preprocess_trace.py".toList

/-- The arguments for pages of `s` bytes. -/
def request (s : ℤ) (input output : List Char) : List (List Char) :=
  [script, input, output, dashPageSize, pyStr s]

lemma main_request (hpy : py.allows (Nat.toDigits 10 s.natAbs).length) (files : Files) :
    main sys py (request s input output) files = convert sys py input output s files := by
  have hsize : pageSize py (request s input output) = some s := by
    simp [pageSize, request, GenTrace.strip_pyStr, GenTrace.pyInt_pyStr hpy]
  have h1 : (request s input output)[1]? = some input := rfl
  have h2 : (request s input output)[2]? = some output := rfl
  simp only [main, hsize, h1, h2]

/-- The input and the output are two files that can be opened, and the input is a text. -/
structure Ready (sys : System) (files : Files) (input output text : List Char) (o : ℕ) : Prop where
  there : sys.pathExists input = true
  write : sys.openWrite output = some o
  read : ∃ i, sys.openRead input = some i ∧ i ≠ o ∧ sys.decode (files i) = (text, true)

/-- **From the addresses to the report.** Addresses on pages that fit are converted without an
error, and the simulator prints for each policy its faults on the pages of the addresses, as
many as there are accesses. -/
theorem converted_run (overflow : List UInt8 → Int32) (M : Malloc) (sys : System) (py : Python)
    (clock : Pass → ℚ) (files : Files) (input output text : List Char) (o : ℕ)
    (hready : Ready sys files input output text o) (s : ℤ) (hs : 1 ≤ s)
    (hpy : py.allows (Nat.toDigits 10 s.natAbs).length) (h : Addressable py s text)
    (hpos : 1 ≤ (pageIds py s text).length) (hlen : (pageIds py s text).length ≤ maxTrace)
    (n_frames window : Int32) (n : ℕ) (hn : 1 ≤ n) (hn' : n ≤ maxFrames)
    (hframes : n_frames.toInt = n) (path : Arg) (hpath : path.head? ≠ some minus)
    (bytes : Arg → Option (List UInt8))
    (hbytes : bytes path = some ((main sys py (request s input output) files).1 o)) :
    (main sys py (request s input output) files).2 = .done ∧
      stdout overflow M bytes clock (CommandLine.request n_frames window path) =
        .ok (some (header ++
          rows M ((pageIds py s text).map Int32.ofInt) n window.toInt clock)) := by
  obtain ⟨i, hi, hne, htext⟩ := hready.read
  have hends := @written_ends py s (by omega) (lines text)
  rw [main_request hpy, convert_apart hready.there hi hready.write hne htext] at hbytes ⊢
  rw [hends]
  refine ⟨rfl, stdout_request clock hn hn' hframes hpath ?_ ?_ ?_⟩
  · obtain ⟨file, hfile, hload⟩ := @load_addressable overflow _ _ _ hs h hlen
    rw [preprocessTrace, processLines_eq, if_pos hends] at hfile
    rw [hbytes]
    simp only [Function.update_self]
    rw [Option.some.inj hfile, hload]
  · exact fun e => by simp [List.map_eq_nil_iff.mp e] at hpos
  · rwa [List.length_map]

/-- Two files, of which the first can be read and the second written; bytes are characters. -/
def twoFiles : System where
  pathExists name := name = ['a']
  openRead name := if name = ['a'] then some 0 else none
  openWrite name := if name = ['b'] then some 1 else none
  decode bytes := (bytes.map fun b => Char.ofNat b.toNat, true)
  decode_nil := rfl

/-- The first file is an input of two accesses. -/
def oneText : Files := Function.update (fun _ => []) 0 (encode neighbours)

lemma ready_oneText : Ready twoFiles oneText ['a'] ['b'] neighbours 1 :=
  ⟨rfl, rfl, 0, rfl, by decide, by decide⟩

/-- What the simulator is given: the output of the conversion. -/
def converted : List UInt8 := (main twoFiles cpython (request 4096 ['a'] ['b']) oneText).1 1

/-- The theorem at these accesses and two frames. -/
theorem converted_run_two : Ready twoFiles oneText ['a'] ['b'] neighbours 1 ∧ (1 : ℤ) ≤ 4096 ∧
    cpython.allows (Nat.toDigits 10 (4096 : ℤ).natAbs).length ∧
    Addressable cpython 4096 neighbours ∧ (pageIds cpython 4096 neighbours).length = 2 ∧
    (2 : Int32).toInt = (2 : ℕ) ∧ [(98 : UInt8)].head? ≠ some minus ∧
    stdout wrap Malloc.above (fun _ => some converted) (fun _ => 0)
        (CommandLine.request 2 10 [98]) =
      .ok (some (header ++ rows Malloc.above [1, 0] 2 10 fun _ => 0)) := by
  have hlen : (pageIds cpython 4096 neighbours).length = 2 := by
    rw [pageIds_neighbours]
    rfl
  have hdigits : cpython.allows (Nat.toDigits 10 (4096 : ℤ).natAbs).length := by decide
  obtain ⟨-, h⟩ := converted_run wrap Malloc.above twoFiles cpython (fun _ => 0) oneText ['a'] ['b']
    neighbours 1 ready_oneText 4096 (by decide) hdigits addressable_neighbours
    (by rw [hlen]; decide) (by rw [hlen]; decide) 2 10 2 (by decide) (by decide) (by decide) [98]
    (by decide) (fun _ => some converted) rfl
  rw [pageIds_neighbours] at h
  exact ⟨ready_oneText, by decide, hdigits, addressable_neighbours, hlen, by decide, by decide, h⟩

end Tempograph.AddressTraces
