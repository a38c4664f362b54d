import Tempograph.Isolation
import Tempograph.Preprocess

/-!
The command line, as `main` (`main.c`) reads it: the options, the trace file and the passes
that are run on it.

A program without a trace, or with an algorithm it does not know, ends before any pass. The
value of `-d` is read and passed on, but no policy uses it; it is left out, and so are the
usage text and the rows that are printed.
-/

namespace Tempograph.CommandLine

open Common LoadTrace Preprocess Sim Isolation Runs

/-- An argument, without the zero byte that ends it. -/
abbrev Arg := List UInt8

structure Options where
  nFrames : Int32
  window : Int32
  /-- All algorithms, if `none`. -/
  algo : Option Algo
  tracefile : Option Arg
  deriving DecidableEq

def defaults : Options := ⟨64, Int32.ofNat defaultWindow, none, none⟩

/-- Why `main` returns 1. -/
inductive Refusal
  | unknownAlgorithm (name : Arg)
  | usage
  | noTrace
  deriving DecidableEq

def minus : UInt8 := 45

/-- The option with the letter `c`. -/
def option (c : Char) : Arg := [minus, c.toUInt8]

def algoNamed (name : Arg) : Option (Option Algo) :=
  if name = encode ['l', 'r', 'u'] then some (some .lru)
  else if name = encode ['l', 'f', 'u'] then some (some .lfu)
  else if name = encode ['a', 'r', 'c'] then some (some .arc)
  else if name = encode ['t', 'e', 'm', 'p', 'o', 'g', 'r', 'a', 'p', 'h'] then
    some (some .tempograph)
  else if name = encode ['s', 'i', 'e', 'v', 'e'] then some (some .sieve)
  else if name = encode ['a', 'l', 'l'] then some none
  else none

/-- An argument that is no option with a value names the trace, unless it begins with -. -/
def setTrace (o : Options) (arg : Arg) : Options :=
  if arg.head? = some minus then o else { o with tracefile := some arg }

variable (overflow : List UInt8 → Int32)

/-- The loop over the arguments. An option that is the last argument has no value. -/
def parse : Options → List Arg → Except Refusal Options
  | o, [] => .ok o
  | o, [arg] => .ok (setTrace o arg)
  | o, arg :: value :: args =>
    if arg = option 'f' then parse { o with nFrames := atoi overflow value } args
    else if arg = option 'w' then parse { o with window := atoi overflow value } args
    else if arg = option 'd' then parse o args
    else if arg = option 'a' then
      match algoNamed value with
      | none => .error (.unknownAlgorithm value)
      | some algo => parse { o with algo := algo } args
    else parse (setTrace o arg) (value :: args)

/-- The options and the trace that `main` goes on with. -/
def accept (files : Arg → Option (List UInt8)) (args : List Arg) :
    Except Refusal (Options × List Page) :=
  match parse overflow defaults args with
  | .error e => .error e
  | .ok o =>
    match o.tracefile with
    | none => .error .usage
    | some path =>
      let trace := loadTrace overflow (files path)
      if trace = [] then .error .noTrace else .ok (o, trace)

def passes (o : Options) : List Pass :=
  match o.algo with
  | none => allPasses o.nFrames.toInt o.window.toInt
  | some algo => [⟨algo, o.nFrames.toInt, o.window.toInt⟩]

/-- The program: what each pass reports, unless one of them is undefined. -/
def main (M : Malloc) (files : Arg → Option (List UInt8)) (args : List Arg) :
    Except Refusal (Option (List SimResult)) :=
  match accept overflow files args with
  | .error e => .error e
  | .ok (o, trace) => .ok (outputs (simulate M trace) start (passes o))

/-! ### Frame counts and windows -/

variable {overflow}

lemma fits_toInt (n : Int32) : Fits n.toInt := ⟨n.le_toInt, n.toInt_lt⟩

/-- Every `int` can be written as an argument. -/
lemma atoi_pyStr (n : Int32) : atoi overflow (encode (pyStr n.toInt)) = n := by
  have hnum : number (encode (pyStr n.toInt)) = n.toInt := by
    simpa using number_pyStr n.toInt (t := []) rfl
  rw [atoi, hnum, if_pos (fits_toInt n), Int32.ofInt_toInt]

/-- The arguments that ask for `n` frames and a window of `w`. -/
def request (n w : Int32) (path : Arg) : List Arg :=
  [option 'f', encode (pyStr n.toInt), option 'w', encode (pyStr w.toInt), path]

/-- **No frame count is refused.** -/
lemma accept_request {files : Arg → Option (List UInt8)} {path : Arg}
    (hpath : path.head? ≠ some minus) (hne : loadTrace overflow (files path) ≠ []) (n w : Int32) :
    accept overflow files (request n w path) =
      .ok (⟨n, w, none, some path⟩, loadTrace overflow (files path)) := by
  have hparse : parse overflow defaults (request n w path) = .ok ⟨n, w, none, some path⟩ := by
    have hw : option 'w' ≠ option 'f' := by decide
    simp only [request, parse, if_true, if_neg hw, atoi_pyStr, setTrace, if_neg hpath, defaults]
  simp only [accept, hparse, if_neg hne]

/-- What is accepted is not empty and fits. -/
lemma accept_trace {files : Arg → Option (List UInt8)} {args : List Arg} {o : Options}
    {trace : List Page} (h : accept overflow files args = .ok (o, trace)) :
    trace ≠ [] ∧ ∃ file, trace = loadTrace overflow file := by
  unfold accept at h
  cases hp : parse overflow defaults args with
  | error e => simp [hp] at h
  | ok o' =>
    cases ht : o'.tracefile with
    | none => simp [hp, ht] at h
    | some path =>
      simp only [hp, ht] at h
      split_ifs at h with hne
      cases h
      exact ⟨hne, _, rfl⟩

end Tempograph.CommandLine
