import Tempograph.Arc
import Tempograph.Lfu
import Tempograph.Lru
import Tempograph.Runs
import Tempograph.Sieve
import Tempograph.TempoGraph

/-!
One simulation pass (`run_sim` in `main.c`): initialise a policy, replay the trace, count the
faults and reset the policy. Times and rates are left out.
-/

namespace Tempograph.Sim

open Common Runs

/-- The static variables of the five policies. -/
structure Statics where
  lru : Lru.State
  lfu : Lfu.State
  arc : Arc.State
  tg : TempoGraph.State
  sieve : Sieve.State

/-- The static variables when the program starts. -/
def start : Statics := ⟨Lru.start, Lfu.start, Arc.start, TempoGraph.start, Sieve.start⟩

/-- The counters of the simulation result. -/
structure SimResult where
  nAccesses : ℕ
  nFaults : ℕ
  deriving DecidableEq, Repr

def initAlgo (σ : Statics) (algo : Algo) (n_frames window : ℤ) : Option Statics :=
  match algo with
  | .lru => some { σ with lru := Lru.lruInit σ.lru n_frames }
  | .lfu => (Lfu.lfuInit σ.lfu n_frames).map fun s => { σ with lfu := s }
  | .arc => some { σ with arc := Arc.arcInit σ.arc n_frames }
  | .tempograph => (TempoGraph.tgInit σ.tg n_frames window).map fun s => { σ with tg := s }
  | .sieve => (Sieve.sieveInit σ.sieve n_frames).map fun s => { σ with sieve := s }

def accessAlgo (M : Malloc) (algo : Algo) (σ : Statics) (page : Page) :
    Option (Statics × Result) :=
  match algo with
  | .lru => (Lru.lruAccess M σ.lru page).map fun p => ({ σ with lru := p.1 }, p.2)
  | .lfu => (Lfu.lfuAccess σ.lfu page).map fun p => ({ σ with lfu := p.1 }, p.2)
  | .arc => (Arc.arcAccess M σ.arc page).map fun p => ({ σ with arc := p.1 }, p.2)
  | .tempograph => (TempoGraph.tgAccess σ.tg page).map fun p => ({ σ with tg := p.1 }, p.2)
  | .sieve => (Sieve.sieveAccess σ.sieve page).map fun p => ({ σ with sieve := p.1 }, p.2)

def resetAlgo (σ : Statics) (algo : Algo) : Option Statics :=
  match algo with
  | .lru => some { σ with lru := Lru.lruReset σ.lru }
  | .lfu => some { σ with lfu := Lfu.lfuReset σ.lfu }
  | .arc => some { σ with arc := Arc.arcReset σ.arc }
  | .tempograph => some { σ with tg := TempoGraph.tgReset σ.tg }
  | .sieve => (Sieve.sieveReset σ.sieve).map fun s => { σ with sieve := s }

/-- Initialise a policy and replay the trace. -/
def replay (M : Malloc) (σ : Statics) (algo : Algo) (n_frames window : ℤ) (trace : List Page) :
    Option (Statics × List Result) :=
  (initAlgo σ algo n_frames window).bind fun σ => run (accessAlgo M algo) σ trace

def runSim (M : Malloc) (σ : Statics) (algo : Algo) (n_frames window : ℤ) (trace : List Page) :
    Option (Statics × SimResult) :=
  (replay M σ algo n_frames window trace).bind fun p =>
    (resetAlgo p.1 algo).map fun σ => (σ, ⟨trace.length, p.2.count .fault⟩)

end Tempograph.Sim
