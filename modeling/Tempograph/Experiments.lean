import Tempograph.Csv
import Tempograph.GenTrace
import Tempograph.Report
import Tempograph.TraceFormat

/-!
The experiments, from the trace files to the numbers that are plotted.

`fix_csv.py` runs the program once for each trace file, frame count and algorithm, and puts
the row of each run into one table behind the name of the trace. `plot_results.py` reads the
table and looks its numbers up. A rate stays the text that was printed here. The table of the
window sizes and the messages are left out.
-/

namespace Tempograph.Experiments

open LoadTrace hiding isSpace
open GenTrace (Solid strip_solid)
open Common Preprocess Runs Sim Isolation Renaming CommandLine DemandPaging Report

variable {overflow : List UInt8 → Int32} {M : Malloc} {files : Arg → Option (List UInt8)}
  {algo : Algo} {n f : ℕ} {W : ℤ} {tr : List Page} {py : Python}

/-! ### The runs -/

/-- A file in the directory `traces`, by its name and the bytes of its name. -/
structure TraceFile where
  name : List Char
  bytes : List UInt8

def TraceFile.path (file : TraceFile) : Arg :=
  encode ['t', 'r', 'a', 'c', 'e', 's', '/'] ++ file.bytes

/-- The name without its extension, `.txt` or `.csv`. -/
def TraceFile.traceType (file : TraceFile) : List Char := file.name.take (file.name.length - 4)

def frames : List ℕ := [16, 32, 64, 128, 256]

def algos : List Algo := [.lru, .lfu, .arc, .tempograph, .sieve]

/-- The name of an algorithm as an argument. -/
def algoArg : Algo → Arg
  | .lru => encode ['l', 'r', 'u']
  | .lfu => encode ['l', 'f', 'u']
  | .arc => encode ['a', 'r', 'c']
  | .tempograph => encode ['t', 'e', 'm', 'p', 'o', 'g', 'r', 'a', 'p', 'h']
  | .sieve => encode ['s', 'i', 'e', 'v', 'e']

/-- The arguments of one run. -/
def command (algo : Algo) (f : ℕ) (path : Arg) : List Arg :=
  [option 'a', algoArg algo, option 'f', encode (pyStr f)] ++
    (if algo = .tempograph then
      [option 'w', encode ['1', '0'], option 'd', encode ['0', '.', '9', '8']] else []) ++
    [path]

/-- The characters that end a line. -/
def breaks : List ℕ := [0xA, 0xB, 0xC, 0xD, 0x1C, 0x1D, 0x1E, 0x85, 0x2028, 0x2029]

def splitlines : List Char → List (List Char)
  | '\r' :: '\n' :: s => [] :: splitlines s
  | c :: s =>
    if breaks.contains c.toNat then [] :: splitlines s
    else match splitlines s with
      | [] => [[c]]
      | l :: ls => (c :: l) :: ls
  | [] => []

def algorithm : List Char := "algorithm".toList

/-- The last line of the output that is not the first line of the table. A run that fails has
none. -/
def runCmd (out : Except Refusal (Option (List Char))) : Option (List Char) :=
  match out with
  | .ok (some text) =>
    (((splitlines (strip text)).map strip).filter (· ≠ [])).reverse.find?
      fun line => !algorithm.isPrefixOf line
  | _ => none

/-- The combinations of one trace. -/
def block (file : TraceFile) : List (TraceFile × ℕ × Algo) :=
  frames.flatMap fun f => algos.map fun algo => (file, f, algo)

/-- All combinations, in the order in which they are run. -/
def cells (traces : List TraceFile) : List (TraceFile × ℕ × Algo) := traces.flatMap block

variable (overflow M files) in
/-- The row of one combination. -/
def experiment (clock : List Arg → Pass → ℚ) (cell : TraceFile × ℕ × Algo) :
    Option (List Char) :=
  let args := command cell.2.2 cell.2.1 cell.1.path
  (runCmd (stdout overflow M files (clock args) args)).map fun line =>
    cell.1.traceType ++ ',' :: line

def traceType : List Char := "trace_type".toList

variable (overflow M files) in
/-- The file `results.csv`. -/
def resultsCsv (clock : List Arg → Pass → ℚ) (traces : List TraceFile) : List Char :=
  ['\n'].intercalate
    (Csv.join (traceType :: columns) ::
      (cells traces).filterMap (experiment overflow M files clock))

/-! ### The plots -/

/-- What is kept of a row. -/
structure Datum where
  trace : List Char
  algo : List Char
  frames : ℤ
  faultRate : List Char
  hitRate : List Char
  timeMs : List Char
  deriving DecidableEq

def datum (py : Python) (row : List (List Char × List Char)) : Option Datum := do
  let trace ← Csv.field row traceType
  let algo ← Csv.field row "algorithm".toList
  let frames ← (Csv.field row "frames".toList).bind fun s => pyInt py 10 (strip s)
  let faultRate ← Csv.field row "fault_rate".toList
  let hitRate ← Csv.field row "hit_rate".toList
  let timeMs ← Csv.field row "time_ms".toList
  return ⟨trace, algo, frames, faultRate, hitRate, timeMs⟩

/-- The data of the plots; a row that lacks a field is an error. -/
def loadData (py : Python) (text : List Char) : Option (List Datum) :=
  (Csv.dictReader (Csv.read (newlines text))).mapM (datum py)

/-- The first row of that trace, algorithm and frame count. -/
def get (data : List Datum) (trace algo : List Char) (frames : ℤ) : Option Datum :=
  data.find? fun d => d.trace = trace ∧ d.algo = algo ∧ d.frames = frames

/-! ### What the program prints -/

variable {path : Arg}

/-- The faults of a policy on a trace. -/
def faults (M : Malloc) (tr : List Page) (algo : Algo) (n : ℕ) (W : ℤ) : ℕ :=
  ((answers M start algo n W tr).getD []).count .fault

def report (M : Malloc) (tr : List Page) (algo : Algo) (n : ℕ) (W : ℤ) : SimResult :=
  ⟨tr.length, faults M tr algo n W⟩

/-- One pass, whatever ran before it. -/
lemma simulate_report (M : Malloc) (σ : Statics) (algo : Algo) (hn : 1 ≤ n) (hn' : n ≤ maxFrames)
    (W : ℤ) (hlen : tr.length ≤ maxTrace) :
    ∃ σ', simulate M tr σ ⟨algo, n, W⟩ = some (σ', report M tr algo n W) := by
  obtain ⟨σ₁, os, σ₂, hrun, hreset⟩ := replay_defined M σ algo hn hn' W hlen
  have hos : answers M start algo n W tr = some os := by
    rw [← answers_same M M σ start algo hn hn' W tr, answers, hrun]
    rfl
  refine ⟨σ₂, ?_⟩
  simp only [simulate, runSim, hrun, Option.bind_some, hreset, Option.map_some, report, faults,
    hos, Option.getD_some]

/-- The passes of a program report what each policy does. -/
lemma run_reports (M : Malloc) (σ : Statics) (as : List Algo) (hn : 1 ≤ n) (hn' : n ≤ maxFrames)
    (W : ℤ) (hlen : tr.length ≤ maxTrace) :
    ∃ σ', run (simulate M tr) σ (as.map fun algo => ⟨algo, n, W⟩) =
      some (σ', as.map fun algo => report M tr algo n W) := by
  induction as generalizing σ with
  | nil => exact ⟨σ, rfl⟩
  | cons algo as ih =>
    obtain ⟨σ₁, h1⟩ := simulate_report M σ algo hn hn' W hlen
    obtain ⟨σ₂, h2⟩ := ih σ₁
    exact ⟨σ₂, run_cons h1 h2⟩

section Arguments

variable (o : Options) (value : Arg) (args : List Arg)

lemma parse_frames : parse overflow o (option 'f' :: value :: args) =
    parse overflow { o with nFrames := atoi overflow value } args := by
  rw [parse, if_pos rfl]

lemma parse_window : parse overflow o (option 'w' :: value :: args) =
    parse overflow { o with window := atoi overflow value } args := by
  have hf : option 'w' ≠ option 'f' := by decide
  rw [parse, if_neg hf, if_pos rfl]

lemma parse_decay : parse overflow o (option 'd' :: value :: args) = parse overflow o args := by
  have hf : option 'd' ≠ option 'f' := by decide
  have hw : option 'd' ≠ option 'w' := by decide
  rw [parse, if_neg hf, if_neg hw, if_pos rfl]

lemma parse_algo (algo : Algo) : parse overflow o (option 'a' :: algoArg algo :: args) =
    parse overflow { o with algo := some algo } args := by
  have hf : option 'a' ≠ option 'f' := by decide
  have hw : option 'a' ≠ option 'w' := by decide
  have hd : option 'a' ≠ option 'd' := by decide
  have hname : algoNamed (algoArg algo) = some (some algo) := by cases algo <;> decide
  rw [parse, if_neg hf, if_neg hw, if_neg hd, if_pos rfl, hname]

lemma parse_path (hpath : path.head? ≠ some minus) :
    parse overflow o [path] = .ok { o with tracefile := some path } := by
  rw [parse, setTrace, if_neg hpath]

end Arguments

/-- The arguments are read as they are meant. -/
lemma parse_command (hf : f < 2 ^ 31) (hpath : path.head? ≠ some minus) :
    parse overflow defaults (command algo f path) =
      .ok ⟨Int32.ofNat f, Int32.ofNat defaultWindow, some algo, some path⟩ := by
  have hframes : atoi overflow (encode (pyStr f)) = Int32.ofNat f := by
    rw [← Int32.toInt_ofNat_of_lt hf, atoi_pyStr]
  have hwindow : atoi overflow (encode ['1', '0']) = Int32.ofNat defaultWindow := by
    have htext : encode ['1', '0'] = encode (pyStr (Int32.ofNat defaultWindow).toInt) := by decide
    rw [htext, atoi_pyStr]
  by_cases ht : algo = .tempograph
  · rw [command, if_pos ht]
    simp only [List.cons_append, List.nil_append]
    rw [parse_algo, parse_frames, parse_window, parse_decay, parse_path _ hpath, hframes, hwindow,
      defaults]
  · rw [command, if_neg ht]
    simp only [List.cons_append, List.nil_append]
    rw [parse_algo, parse_frames, parse_path _ hpath, hframes, defaults]

/-- The output of one run: the first line and one row. -/
lemma stdout_command (clock : Pass → ℚ) (hf : 1 ≤ f) (hf' : f ≤ maxFrames)
    (hpath : path.head? ≠ some minus) (hload : loadTrace overflow (files path) = tr)
    (hlen : tr.length ≤ maxTrace) :
    stdout overflow M files clock (command algo f path) =
      if tr = [] then .error .noTrace
      else .ok (some (header ++ printResult (algoName algo) f (report M tr algo f 10)
        (clock ⟨algo, f, 10⟩))) := by
  have hsmall : f < 2 ^ 31 := by simp only [maxFrames] at hf'; omega
  have hparse := @parse_command overflow algo f path hsmall hpath
  have hwindow : (Int32.ofNat defaultWindow).toInt = 10 := by decide
  unfold stdout accept
  simp only [hparse, hload]
  split_ifs with hempty
  · rfl
  · obtain ⟨σ', hrun⟩ := run_reports M start [algo] hf hf' 10 hlen
    have hout := outputs_eq hrun
    simp only [passes, Int32.toInt_ofNat_of_lt hsmall, hwindow] at hout ⊢
    rw [List.map_singleton, List.map_singleton] at hout
    rw [hout]
    simp only [Option.map_some, printRows, List.zip_cons_cons, List.zip_nil_right,
      List.flatMap_singleton]

/-! ### Rows -/

variable {a b c s t : List Char} {x : Char} {r : SimResult} {q : ℚ} {z : ℤ} {d : ℕ}

/-- The characters of names and numbers are of these, from - to z in ASCII. -/
def Legible (x : Char) : Prop := 45 ≤ x.toNat ∧ x.toNat ≤ 122

instance (x : Char) : Decidable (Legible x) := inferInstanceAs (Decidable (_ ∧ _))

lemma digit_legible (h : x.isDigit) : Legible x := by
  obtain ⟨-, h1, h2⟩ := toNat_toUInt8 h
  constructor <;> omega

lemma Legible.not_space (h : Legible x) : isSpace x = false := by
  obtain ⟨h1, h2⟩ := h
  simp only [isSpace, spaces, List.contains_eq_mem, decide_eq_false_iff_not, List.mem_cons,
    List.not_mem_nil, or_false]
  omega

/-- Only the line end behind the last line is stripped. -/
lemma strip_lines (hs : Solid s) (ht : Solid t) (hs' : s ≠ []) (ht' : t ≠ []) :
    strip ((s ++ ['\n']) ++ (t ++ ['\n'])) = s ++ '\n' :: t := by
  have hne : s ++ '\n' :: t ≠ [] := by simp
  have hlast : ¬isSpace ((s ++ '\n' :: t).getLast hne) = true := by
    rw [@List.getLast_append_of_ne_nil _ ('\n' :: t) s _ (by simp), List.getLast_cons ht',
      ht _ (List.getLast_mem ht')]
    decide
  obtain ⟨x, s, rfl⟩ := List.exists_cons_of_ne_nil hs'
  have hx := hs x List.mem_cons_self
  have hdrop : ((x :: s ++ ['\n']) ++ (t ++ ['\n'])).dropWhile isSpace =
      (x :: s ++ '\n' :: t) ++ ['\n'] := by
    simp [hx]
  rw [strip, hdrop, List.rdropWhile_concat_pos _ _ _ (by decide),
    List.rdropWhile_eq_self_iff.mpr fun _ => hlast]

lemma not_break (h : isSpace x = false) : breaks.contains x.toNat = false ∧ x ≠ '\r' := by
  refine ⟨?_, fun e => absurd h (by rw [e]; decide)⟩
  simp only [isSpace, spaces, List.contains_eq_mem, decide_eq_false_iff_not, List.mem_cons,
    List.not_mem_nil, or_false, not_or] at h
  simp only [breaks, List.contains_eq_mem, decide_eq_false_iff_not, List.mem_cons,
    List.not_mem_nil, or_false, not_or]
  tauto

lemma splitlines_cons (h : isSpace x = false) (s : List Char) :
    splitlines (x :: s) =
      match splitlines s with
      | [] => [[x]]
      | l :: ls => (x :: l) :: ls := by
  obtain ⟨hbreak, hcr⟩ := not_break h
  rw [splitlines.eq_2 _ _ fun s' hx => absurd hx hcr, hbreak]
  rfl

lemma splitlines_append (hs : Solid s) (t : List Char) :
    splitlines (s ++ '\n' :: t) = s :: splitlines t := by
  induction s with
  | nil => rfl
  | cons x s ih =>
    rw [List.cons_append, splitlines_cons (hs x List.mem_cons_self),
      ih fun y hy => hs y (List.mem_cons_of_mem _ hy)]

lemma splitlines_solid (hs : Solid s) (hne : s ≠ []) : splitlines s = [s] := by
  induction s with
  | nil => exact absurd rfl hne
  | cons x s ih =>
    rw [splitlines_cons (hs x List.mem_cons_self)]
    cases s with
    | nil => rfl
    | cons y s => rw [ih (fun z hz => hs z (List.mem_cons_of_mem _ hz)) (by simp)]

lemma pyStr_legible (h : x ∈ pyStr z) : Legible x := by
  rcases GenTrace.mem_pyStr h with rfl | h
  · decide
  · exact digit_legible h

lemma fixed_legible (h : x ∈ fixed d q) : Legible x := by
  have hdigit {m : ℕ} (h : x ∈ Nat.toDigits 10 m) : Legible x := digit_legible (isDigit_of_mem h)
  unfold fixed pad at h
  rw [List.mem_append, List.mem_append, List.mem_cons, List.mem_append, List.mem_replicate] at h
  rcases h with (h | h) | rfl | ⟨-, rfl⟩ | h
  · split_ifs at h
    · rw [List.mem_singleton.mp h]
      decide
    · cases h
  · exact hdigit h
  · decide
  · decide
  · exact hdigit h

lemma name_legible (h : x ∈ algoName algo) : Legible x := by
  have hall : (algoName algo).all (decide <| Legible ·) = true := by cases algo <;> decide
  exact of_decide_eq_true (List.all_eq_true.mp hall x h)

lemma fields_legible (h : s ∈ fields (algoName algo) z r q) (hx : x ∈ s) : Legible x := by
  simp only [fields, List.mem_cons, List.not_mem_nil, or_false] at h
  rcases h with rfl | rfl | rfl | rfl | rfl | rfl | rfl
  · exact name_legible hx
  · exact pyStr_legible hx
  · exact pyStr_legible hx
  · exact pyStr_legible hx
  · exact fixed_legible hx
  · exact fixed_legible hx
  · exact fixed_legible hx

lemma columns_legible (h : s ∈ traceType :: columns) (hx : x ∈ s) : Legible x := by
  have hall : ((traceType :: columns).all fun s => s.all (decide <| Legible ·)) = true := by decide
  exact of_decide_eq_true (List.all_eq_true.mp (List.all_eq_true.mp hall s h) x hx)

lemma solid_join {row : List (List Char)} (h : ∀ s ∈ row, ∀ x ∈ s, Legible x) :
    Solid (Csv.join row) := by
  intro x hx
  rcases Csv.mem_join hx with rfl | ⟨s, hs, hx⟩
  · decide
  · exact (h s hs x hx).not_space

/-- **The row of a run is found in its output.** -/
lemma runCmd_row (algo : Algo) (z : ℤ) (r : SimResult) (q : ℚ) :
    runCmd (.ok (some (header ++ printResult (algoName algo) z r q))) =
      some (Csv.join (fields (algoName algo) z r q)) := by
  have hfirst := solid_join fun s hs x hx => columns_legible (List.mem_cons_of_mem _ hs) hx
  have hrow := solid_join fun s hs x hx => @fields_legible algo s x r q z hs hx
  have hne : Csv.join columns ≠ [] := by decide
  -- the name of the algorithm is where the row begins
  obtain ⟨w, hw⟩ : ∃ w, Csv.join (fields (algoName algo) z r q) = algoName algo ++ w :=
    ⟨_, Csv.join_cons_cons _ _ _⟩
  have hne' : Csv.join (fields (algoName algo) z r q) ≠ [] := by
    rw [hw]
    cases algo <;> simp [algoName]
  have hname : algorithm.isPrefixOf (Csv.join (fields (algoName algo) z r q)) = false := by
    rw [hw]
    cases algo <;> rfl
  have hstrip := strip_lines hfirst hrow hne hne'
  change ((splitlines (strip ((Csv.join columns ++ ['\n']) ++
    (Csv.join (fields (algoName algo) z r q) ++ ['\n'])))).map strip |>.filter
      (· ≠ [])).reverse.find? _ = _
  rw [hstrip, splitlines_append hfirst, splitlines_solid hrow hne']
  simp [strip_solid hfirst, strip_solid hrow, hne, hne', hname]

/-! ### The table -/

section Table

variable (overflow M files)
variable (clock : List Arg → Pass → ℚ) (file : TraceFile) (traces : List TraceFile)

/-- The trace of a file. -/
def loaded : List Page := loadTrace overflow (files file.path)

/-- What the program finds out about one combination. -/
def result (f : ℕ) (algo : Algo) : SimResult := report M (loaded overflow files file) algo f 10

def time (f : ℕ) (algo : Algo) : ℚ := clock (command algo f file.path) ⟨algo, f, 10⟩

def record (cell : TraceFile × ℕ × Algo) : List (List Char) :=
  cell.1.traceType :: fields (algoName cell.2.2) cell.2.1
    (result overflow M files cell.1 cell.2.1 cell.2.2) (time clock cell.1 cell.2.1 cell.2.2)

/-- What the plots show of one combination. -/
def shown (cell : TraceFile × ℕ × Algo) : Datum :=
  ⟨cell.1.traceType, algoName cell.2.2, cell.2.1,
    fixed 6 (faultRate (result overflow M files cell.1 cell.2.1 cell.2.2)),
    fixed 6 (hitRate (result overflow M files cell.1 cell.2.1 cell.2.2)),
    fixed 2 (time clock cell.1 cell.2.1 cell.2.2)⟩

/-- The combinations that have a row. -/
def kept : List (TraceFile × ℕ × Algo) :=
  (cells traces).filter fun cell => loaded overflow files cell.1 ≠ []

variable {overflow M files clock file traces}

lemma frames_spec (h : f ∈ frames) : 1 ≤ f ∧ f ≤ maxFrames ∧ (Nat.toDigits 10 f).length ≤ 3 := by
  revert f
  decide

lemma mem_block {cell : TraceFile × ℕ × Algo} :
    cell ∈ block file ↔ cell.1 = file ∧ cell.2.1 ∈ frames := by
  obtain ⟨file', f, algo⟩ := cell
  have halgo : algo ∈ algos := by cases algo <;> decide
  simp only [block, List.mem_flatMap, List.mem_map, Prod.mk.injEq]
  constructor
  · rintro ⟨f', hf, algo', -, rfl, rfl, rfl⟩
    exact ⟨rfl, hf⟩
  · rintro ⟨rfl, hf⟩
    exact ⟨f, hf, algo, halgo, rfl, rfl, rfl⟩

lemma mem_cells {cell : TraceFile × ℕ × Algo} :
    cell ∈ cells traces ↔ cell.1 ∈ traces ∧ cell.2.1 ∈ frames := by
  simp only [cells, List.mem_flatMap, mem_block]
  exact ⟨fun ⟨file, hfile, e, hf⟩ => ⟨e ▸ hfile, hf⟩, fun ⟨hfile, hf⟩ => ⟨_, hfile, rfl, hf⟩⟩

/-- The row of a combination, unless the trace is empty. -/
lemma experiment_eq {cell : TraceFile × ℕ × Algo} (hf : cell.2.1 ∈ frames) :
    experiment overflow M files clock cell =
      if loaded overflow files cell.1 = [] then none
      else some (Csv.join (record overflow M files clock cell)) := by
  obtain ⟨file, f, algo⟩ := cell
  obtain ⟨h1, h2, -⟩ := frames_spec hf
  have hhead : file.path.head? = some 116 := rfl
  have hpath : file.path.head? ≠ some minus := by
    rw [hhead]
    decide
  have hload : loadTrace overflow (files file.path) = loaded overflow files file := rfl
  have hout : stdout overflow M files (clock (command algo f file.path))
      (command algo f file.path) = _ :=
    stdout_command _ h1 h2 hpath hload (TraceFormat.loadTrace_length _)
  simp only [experiment, hout]
  split_ifs with hempty
  · rfl
  · rw [runCmd_row]
    rfl

lemma filterMap_ite {α β : Type*} (p : α → Prop) [DecidablePred p] (g : α → β) (l : List α) :
    l.filterMap (fun a => if p a then none else some (g a)) = (l.filter (¬p ·)).map g := by
  induction l with
  | nil => rfl
  | cons a l ih => by_cases h : p a <;> simp [h, ih]

/-- The table has one record for each combination. -/
lemma resultsCsv_eq : resultsCsv overflow M files clock traces =
    Csv.text ((traceType :: columns) ::
      (kept overflow files traces).map (record overflow M files clock)) := by
  have hrows : (cells traces).filterMap (experiment overflow M files clock) =
      ((kept overflow files traces).map (record overflow M files clock)).map Csv.join := by
    rw [List.filterMap_congr fun cell hc => experiment_eq (mem_cells.mp hc).2, filterMap_ite,
      List.map_map]
    rfl
  rw [resultsCsv, hrows, Csv.text, List.map_cons]

/-- A stem that is written as it is. -/
structure Clean (file : TraceFile) : Prop where
  plain : Csv.Plain file.traceType
  solid : '\r' ∉ file.traceType

lemma plain_of_legible (h : ∀ x ∈ s, Legible x) : Csv.Plain s := by
  refine ⟨fun hx => ?_, fun hx => ?_, fun hx => ?_⟩
  · exact absurd (h _ hx) (by decide)
  · exact absurd (h _ hx) (by decide)
  · exact absurd (h _ (List.mem_of_mem_head? hx)) (by decide)

lemma simple_record (hc : Clean file) (f : ℕ) (algo : Algo) :
    Csv.Simple (record overflow M files clock (file, f, algo)) := by
  refine ⟨fun s hs => ?_, by simp [record], by simp [record, fields]⟩
  rcases List.mem_cons.mp hs with rfl | hs
  · exact hc.plain
  · exact plain_of_legible fun x hx => fields_legible hs hx

lemma newlines_eq (h : '\r' ∉ s) : newlines s = s := by
  induction s with
  | nil => rfl
  | cons x s ih =>
    rw [List.mem_cons, not_or] at h
    rw [newlines.eq_2 _ _ fun s' hx => absurd hx.symm h.1, ih h.2, if_neg (Ne.symm h.1)]

/-- The text of the table has no other line ends. -/
lemma return_not_mem (hc : ∀ file ∈ traces, Clean file) :
    '\r' ∉ Csv.text ((traceType :: columns) ::
      (kept overflow files traces).map (record overflow M files clock)) := by
  have hlegible : ¬Legible '\r' := by decide
  intro hx
  rcases Csv.mem_text hx with h | ⟨row, hrow, hrowx⟩
  · exact absurd h (by decide)
  rcases Csv.mem_join hrowx with h | ⟨s, hs, hsx⟩
  · exact absurd h (by decide)
  rcases List.mem_cons.mp hrow with rfl | hrow
  · exact hlegible (columns_legible hs hsx)
  · obtain ⟨cell, hcell, rfl⟩ := List.mem_map.mp hrow
    rcases List.mem_cons.mp hs with rfl | hs
    · exact (hc _ (mem_cells.mp (List.mem_filter.mp hcell).1).1).solid hsx
    · exact hlegible (fields_legible hs hsx)

/-- A record of the table is read as it was meant. -/
lemma datum_record (hpy : py.allows 3) (hf : f ∈ frames) (file : TraceFile) (algo : Algo) :
    datum py ((traceType :: columns).zip (record overflow M files clock (file, f, algo))) =
      some (shown overflow M files clock (file, f, algo)) := by
  have hlen : (Nat.toDigits 10 (f : ℤ).natAbs).length ≤ 3 := (frames_spec hf).2.2
  have hint : pyInt py 10 (strip (pyStr f)) = some (f : ℤ) := by
    rw [GenTrace.strip_pyStr, GenTrace.pyInt_pyStr (hpy.imp_right hlen.trans)]
  set row := (traceType :: columns).zip (record overflow M files clock (file, f, algo))
  have htrace : Csv.field row traceType = some file.traceType := rfl
  have halgo : Csv.field row "algorithm".toList = some (algoName algo) := rfl
  have hframes : Csv.field row "frames".toList = some (pyStr f) := rfl
  have hfault : Csv.field row "fault_rate".toList =
    some (shown overflow M files clock (file, f, algo)).faultRate := rfl
  have hhit : Csv.field row "hit_rate".toList =
    some (shown overflow M files clock (file, f, algo)).hitRate := rfl
  have htime : Csv.field row "time_ms".toList =
    some (shown overflow M files clock (file, f, algo)).timeMs := rfl
  rw [datum, htrace, halgo, hframes, hfault, hhit, htime]
  simp only [Option.bind_eq_bind, Option.bind_some, hint]
  rfl

lemma mapM_some {α β γ : Type*} {f : α → β} {g : β → Option γ} {h : α → γ} {l : List α}
    (hl : ∀ a ∈ l, g (f a) = some (h a)) : (l.map f).mapM g = some (l.map h) := by
  induction l with
  | nil => rfl
  | cons a l ih =>
    rw [List.map_cons, List.mapM_cons, hl a List.mem_cons_self,
      ih fun b hb => hl b (List.mem_cons_of_mem _ hb)]
    rfl

/-- The data of the plots are the combinations that have a row. -/
lemma loadData_eq (hpy : py.allows 3) (hc : ∀ file ∈ traces, Clean file) :
    loadData py (resultsCsv overflow M files clock traces) =
      some ((kept overflow files traces).map (shown overflow M files clock)) := by
  have hkept : ∀ cell ∈ kept overflow files traces, cell ∈ cells traces := fun cell h =>
    (List.mem_filter.mp h).1
  have hsimple : ∀ row ∈ (traceType :: columns) ::
      (kept overflow files traces).map (record overflow M files clock), Csv.Simple row := by
    intro row hrow
    rcases List.mem_cons.mp hrow with rfl | hrow
    · exact ⟨fun s hs => plain_of_legible fun x hx => columns_legible hs hx, by decide, by decide⟩
    · obtain ⟨⟨file, f, algo⟩, hcell, rfl⟩ := List.mem_map.mp hrow
      exact simple_record (hc file (mem_cells.mp (hkept _ hcell)).1) f algo
  have hfull : ((kept overflow files traces).map (record overflow M files clock)).filter (· ≠ []) =
      (kept overflow files traces).map (record overflow M files clock) :=
    List.filter_eq_self.mpr fun row hrow =>
      decide_eq_true (hsimple row (List.mem_cons_of_mem _ hrow)).ne_nil
  rw [loadData, resultsCsv_eq, newlines_eq (return_not_mem hc), Csv.read_text hsimple (by simp),
    Csv.dictReader, hfull, List.map_map]
  refine mapM_some fun ⟨file, f, algo⟩ hcell => ?_
  exact datum_record hpy (mem_cells.mp (hkept _ hcell)).2 file algo

/-! ### Looking up -/

/-- The only element of a list with a property is found. -/
lemma find?_of_unique {α : Type*} {l : List α} {p : α → Bool} {e : α} (he : e ∈ l) (hp : p e)
    (h : ∀ b ∈ l, p b → b = e) : l.find? p = some e := by
  cases hfind : l.find? p with
  | none => exact absurd hp (List.find?_eq_none.mp hfind e he)
  | some b => rw [h b (List.mem_of_find?_eq_some hfind) (List.find?_some hfind)]

/-- The first part with an element is the first with a property. -/
lemma findSome?_ite {α β : Type*} (p : α → Bool) (g : α → β) (l : List α) :
    l.findSome? (fun e => if p e then some (g e) else none) = (l.find? p).map g := by
  induction l with
  | nil => rfl
  | cons e l ih => cases h : p e <;> simp [h, ih]

lemma algoName_injective : Function.Injective algoName := by
  intro a b
  cases a <;> cases b <;> simp [algoName]

/-- The row that is looked for, among those of one trace. -/
lemma find_block (hf : f ∈ frames) (algo : Algo) (file : TraceFile) (trace : List Char) :
    (((block file).filter fun cell => loaded overflow files cell.1 ≠ []).map
      (shown overflow M files clock)).find? (fun d => d.trace = trace ∧ d.algo = algoName algo ∧
        d.frames = (f : ℤ)) =
      if file.traceType = trace ∧ loaded overflow files file ≠ [] then
        some (shown overflow M files clock (file, f, algo))
      else none := by
  have hmem : ∀ d ∈ ((block file).filter fun cell => loaded overflow files cell.1 ≠ []).map
      (shown overflow M files clock), ∃ f' algo', loaded overflow files file ≠ [] ∧
        d = shown overflow M files clock (file, f', algo') := by
    intro d hd
    obtain ⟨⟨file', f', algo'⟩, hcell, rfl⟩ := List.mem_map.mp hd
    obtain ⟨hcell, hne⟩ := List.mem_filter.mp hcell
    obtain ⟨rfl, -⟩ := mem_block.mp hcell
    exact ⟨f', algo', of_decide_eq_true hne, rfl⟩
  split_ifs with h
  · refine find?_of_unique (List.mem_map_of_mem (List.mem_filter.mpr ⟨?_, ?_⟩)) ?_ fun d hd hp => ?_
    · exact mem_block.mpr ⟨rfl, hf⟩
    · exact decide_eq_true h.2
    · exact decide_eq_true ⟨h.1, rfl, rfl⟩
    · obtain ⟨f', algo', -, rfl⟩ := hmem d hd
      obtain ⟨-, halgo, hframes⟩ := of_decide_eq_true hp
      have ha : algo' = algo := algoName_injective halgo
      have hn : f' = f := Int.ofNat_inj.mp hframes
      rw [ha, hn]
  · refine List.find?_eq_none.mpr fun d hd hp => h ?_
    obtain ⟨f', algo', hne, rfl⟩ := hmem d hd
    exact ⟨(of_decide_eq_true hp).1, hne⟩

/-- The first trace of that name is found, of those that are not empty. -/
lemma get_kept (hf : f ∈ frames) (algo : Algo) (trace : List Char) :
    get ((kept overflow files traces).map (shown overflow M files clock)) trace (algoName algo) f =
      (traces.find? fun file => file.traceType = trace ∧ loaded overflow files file ≠ []).map
        fun file => shown overflow M files clock (file, f, algo) := by
  rw [get, kept, cells, List.filter_flatMap, List.map_flatMap, List.find?_flatMap]
  simp only [find_block hf]
  rw [← findSome?_ite]
  simp only [decide_eq_true_eq]

end Table

/-- **What is plotted.** If the stems of the trace files need no quotes, the table of the
experiments is read without an error; it holds nothing but the counts and times of runs, and
the numbers looked up for a trace, a frame count and an algorithm are those of its run on the
first file with that stem that is not empty. -/
theorem plotted (overflow : List UInt8 → Int32) (M : Malloc) (files : Arg → Option (List UInt8))
    (py : Python) (hpy : py.allows 3) (clock : List Arg → Pass → ℚ) (traces : List TraceFile)
    (hc : ∀ file ∈ traces, Clean file) :
    ∃ data, loadData py (resultsCsv overflow M files clock traces) = some data ∧
      (∀ d ∈ data, ∃ file ∈ traces, ∃ f ∈ frames, ∃ algo,
        d = shown overflow M files clock (file, f, algo)) ∧
      ∀ trace, ∀ f ∈ frames, ∀ algo, get data trace (algoName algo) f =
        (traces.find? fun file =>
          file.traceType = trace ∧ loadTrace overflow (files file.path) ≠ []).map
            fun file => shown overflow M files clock (file, f, algo) := by
  refine ⟨_, loadData_eq hpy hc, fun d hd => ?_, fun trace f hf algo => get_kept hf algo trace⟩
  obtain ⟨⟨file, f, algo⟩, hcell, rfl⟩ := List.mem_map.mp hd
  obtain ⟨hfile, hf⟩ := mem_cells.mp (List.mem_filter.mp hcell).1
  exact ⟨file, hfile, f, hf, algo, rfl⟩

def scanFile : TraceFile :=
  ⟨['s', 'c', 'a', 'n', '.', 't', 'x', 't'], encode ['s', 'c', 'a', 'n', '.', 't', 'x', 't']⟩

lemma clean_scanFile : Clean scanFile := ⟨⟨by decide, by decide, by decide⟩, by decide⟩

/-- The pages 1, 2 and 1. -/
def threePages : List UInt8 := encode ['1', '\n', '2', '\n', '1', '\n']

/-- The theorem at three accesses to two pages, and a clock that stands still. -/
theorem plotted_three : cpython.allows 3 ∧ (∀ file ∈ [scanFile], Clean file) ∧
    ∃ data, loadData cpython (resultsCsv wrap Malloc.above (fun _ => some threePages)
        (fun _ _ => 0) [scanFile]) = some data ∧
      get data ['s', 'c', 'a', 'n'] (algoName .lru) 16 =
        some ⟨['s', 'c', 'a', 'n'], ['L', 'R', 'U'], 16, "0.666667".toList, "0.333333".toList,
          "0.00".toList⟩ := by
  have hc : ∀ file ∈ [scanFile], Clean file := fun file hfile => by
    rw [List.mem_singleton.mp hfile]
    exact clean_scanFile
  obtain ⟨data, hdata, -, hget⟩ := plotted wrap Malloc.above (fun _ => some threePages) cpython
    (by decide) (fun _ _ => 0) [scanFile] hc
  refine ⟨by decide, hc, data, hdata, ?_⟩
  have h := hget ['s', 'c', 'a', 'n'] 16 (by decide) .lru
  rw [Nat.cast_ofNat] at h
  rw [h]
  decide +kernel

/-! ### Generated traces -/

section Generated

variable {ρ : Type*} {out : GenTrace.Output ρ} {n_pages : ℤ}

lemma toInt_ofInt_of_small {z : ℤ} (h : 0 ≤ z) (h' : z < maxFrames) :
    (Int32.ofInt z).toInt = z := by
  simp only [maxFrames, Nat.cast_ofNat] at h'
  exact Int32.toInt_ofInt_of_le (by omega) (by omega)

/-- Every policy runs the pages of a trace that fits. -/
lemma suits_generated {n : ℤ} (hs : GenTrace.Sound n n_pages out) (hn : n ≤ maxTrace)
    (hp : n_pages ≤ maxFrames) (algo : Algo) : Suits algo (out.pages.map Int32.ofInt) := by
  have hlen := hs.length_le
  refine Competitive.suits_pool (n := maxFrames) le_rfl (fun p hp' => ?_) (by
    rw [List.length_map]
    omega)
  obtain ⟨z, hz, rfl⟩ := List.mem_map.mp hp'
  obtain ⟨h0, h1⟩ := hs.pages z hz
  refine Finset.mem_image.mpr ⟨z.toNat, Finset.mem_range.mpr (by omega), ?_⟩
  rw [← Int32.ofInt_eq_ofNat, Int.toNat_of_nonneg h0]

/-- Loading the pages keeps them apart. -/
lemma card_loaded {n : ℤ} (hs : GenTrace.Sound n n_pages out) (hp : n_pages ≤ maxFrames) :
    (out.pages.map Int32.ofInt).toFinset.card = out.pages.toFinset.card := by
  have himage : (out.pages.map Int32.ofInt).toFinset = out.pages.toFinset.image Int32.ofInt := by
    ext
    simp
  rw [himage]
  refine Finset.card_image_of_injOn fun y hy z hz e => ?_
  obtain ⟨hy0, hy1⟩ := hs.pages y (List.mem_toFinset.mp hy)
  obtain ⟨hz0, hz1⟩ := hs.pages z (List.mem_toFinset.mp hz)
  rw [← toInt_ofInt_of_small hy0 (by omega), ← toInt_ofInt_of_small hz0 (by omega)]
  exact congrArg Int32.toInt e

/-- There are no more pages than were asked for. -/
lemma card_pages_le {n : ℤ} (hs : GenTrace.Sound n n_pages out) :
    (out.pages.toFinset.card : ℤ) ≤ max n_pages 0 := by
  have hsub : out.pages.toFinset ⊆ Finset.Ico 0 n_pages := fun z hz =>
    Finset.mem_Ico.mpr (hs.pages z (List.mem_toFinset.mp hz))
  have hle := Finset.card_le_card hsub
  rw [Int.card_Ico] at hle
  omega

/-- What any policy reports on a trace whose pages fit. -/
lemma report_generated {n : ℤ} {k : ℕ} (M : Malloc) (hs : GenTrace.Sound n n_pages out)
    (hlen : out.pages.length = n.toNat) (hn : n ≤ maxTrace) (hk : 1 ≤ k) (hfit : n_pages ≤ k)
    (hk' : k ≤ maxFrames) (W : ℤ) (algo : Algo) :
    report M (out.pages.map Int32.ofInt) algo k W = ⟨n.toNat, out.pages.toFinset.card⟩ := by
  have hp : n_pages ≤ maxFrames := by omega
  have hcard := card_pages_le hs
  have hfew : (out.pages.map Int32.ofInt).toFinset.card ≤ k := by
    rw [card_loaded hs hp]
    omega
  obtain ⟨os, ha, hcount⟩ :=
    count_faults_of_fits M start algo hk hk' W (suits_generated hs hn hp algo) hfew
  rw [report, faults, ha, Option.getD_some, hcount, card_loaded hs hp, List.length_map, hlen]

lemma allows_int {z : ℤ} (hpy : py.allows 7) (h : z.natAbs < 10 ^ 7) :
    py.allows (Nat.toDigits 10 z.natAbs).length :=
  hpy.imp_right ((Nat.length_toDigits_le_iff (by decide) (by decide)).mpr h).trans

/-- **From the request to the report.** With at least a cluster of pages any type of trace is
generated, whatever the random numbers, and has the length asked for. In at least as many
frames all five passes run it, and each of them reports one fault for each page that occurs. -/
theorem generated_run (overflow : List UInt8 → Int32) (M : Malloc) (R : GenTrace.Random ρ) (r : ρ)
    (py : Python) (hpy : py.allows 7) (trace_type : GenTrace.TraceType) (n n_pages : ℤ)
    (n_frames window : Int32) (path : Arg) (hn : 1 ≤ n) (hn' : n ≤ maxTrace)
    (hp : GenTrace.clusterSize ≤ n_pages) (hfit : n_pages ≤ n_frames.toInt)
    (hframes : n_frames.toInt ≤ maxFrames) (hpath : path.head? ≠ some minus) :
    ∃ out : GenTrace.Output ρ,
      GenTrace.genTrace R py (GenTrace.request n n_pages trace_type) r = some (none, out) ∧
      out.rest ≠ none ∧ out.pages.length = n.toNat ∧ (out.pages.toFinset.card : ℤ) ≤ n_pages ∧
      ∀ files : Arg → Option (List UInt8), files path = some (encode out.text) →
        main overflow M files (CommandLine.request n_frames window path) =
          .ok (some (List.replicate 5 ⟨n.toNat, out.pages.toFinset.card⟩)) := by
  have hten : GenTrace.clusterSize = 10 := rfl
  have hlimit : (maxFrames : ℤ) = 512 := rfl
  have hmax : (maxTrace : ℤ) = 5000000 := rfl
  have hs := GenTrace.sound_generate R trace_type n (show 1 ≤ n_pages by omega) r
  have hrest : (trace_type.generate R n n_pages r).rest ≠ none := fun h => by
    have := ((GenTrace.generate_fails R trace_type n (by omega) r).mp h).1
    omega
  have hlen := hs.ended hrest
  have hcard := card_pages_le hs
  refine ⟨trace_type.generate R n n_pages r, ?_, hrest, hlen, by omega, fun files hfile => ?_⟩
  · exact GenTrace.genTrace_request R r trace_type (allows_int hpy (by omega))
      (allows_int hpy (by omega))
  · set out := trace_type.generate R n n_pages r
    have hload : loadTrace overflow (files path) = out.pages.map Int32.ofInt := by
      rw [hfile, GenTrace.load_generated overflow hs hn' (by omega)]
    have hlength : (out.pages.map Int32.ofInt).length = n.toNat := by rw [List.length_map, hlen]
    have hne : loadTrace overflow (files path) ≠ [] := by
      rw [hload]
      intro h
      rw [h, List.length_nil] at hlength
      omega
    obtain ⟨k, hk⟩ : ∃ k : ℕ, n_frames.toInt = k := ⟨_, (Int.toNat_of_nonneg (by omega)).symm⟩
    have hreport := report_generated M hs hlen hn' (show 1 ≤ k by omega) (by omega) (by omega)
      window.toInt
    obtain ⟨σ, hrun⟩ := run_reports M start [.lru, .lfu, .arc, .tempograph, .sieve]
      (show 1 ≤ k by omega) (by omega) window.toInt (hlength.le.trans (by omega))
    unfold main
    rw [accept_request hpath hne]
    simp only [passes, allPasses, hload, hk, outputs_eq hrun, hreport]
    rfl

/-- The theorem at a cyclic scan over twenty pages in 64 frames. -/
theorem generated_run_scan : cpython.allows 7 ∧ (1 : ℤ) ≤ 30 ∧ (30 : ℤ) ≤ maxTrace ∧
    GenTrace.clusterSize ≤ 20 ∧ (20 : ℤ) ≤ (64 : Int32).toInt ∧
    (64 : Int32).toInt ≤ maxFrames ∧ [(116 : UInt8)].head? ≠ some minus ∧
    ∃ out : GenTrace.Output ℕ, GenTrace.genTrace GenTrace.counter cpython
        (GenTrace.request 30 20 .scan) 0 = some (none, out) ∧
      main wrap Malloc.above (fun _ => some (encode out.text))
        (CommandLine.request 64 10 [116]) = .ok (some (List.replicate 5 ⟨30, 20⟩)) := by
  obtain ⟨out, hgen, -, -, -, hrun⟩ := generated_run wrap Malloc.above GenTrace.counter 0 cpython
    (by decide) .scan 30 20 64 10 [116] (by decide) (by decide) (by decide) (by decide) (by decide)
    (by decide)
  refine ⟨by decide, by decide, by decide, by decide, by decide, by decide, by decide, out, hgen,
    ?_⟩
  have hout : out = GenTrace.TraceType.generate GenTrace.counter 30 20 0 .scan := by
    rw [GenTrace.genTrace_request GenTrace.counter 0 .scan (by decide) (by decide)] at hgen
    exact (Prod.mk.inj (Option.some.inj hgen)).2.symm
  have hcard : out.pages.toFinset.card = 20 := by
    rw [hout]
    decide
  have h := hrun (fun _ => some (encode out.text)) rfl
  rw [hcard] at h
  exact h

end Generated

end Tempograph.Experiments
