import ChainIngest.Command.Arguments
import ChainIngest.Command.Process
import ChainIngest.Log.Filter
/-!
# Reports

All that a run of the program shows: what is left of its log, what it asked, how
it ended.
-/

namespace ChainIngest.Command

structure Report where
  /-- What was shown, in order. -/
  lines : List Line
  fault : Option Fault

namespace Report

def log (r : Report) : List Log.Record :=
  r.lines.filterMap fun
    | .record r => some r
    | .question _ => none

def prompted (r : Report) : Bool :=
  r.lines.any fun
    | .record _ => false
    | .question _ => true

def exitCode (r : Report) : Nat := if r.fault.isSome then 1 else 0

end Report

def part : String := "tributary"

/-- Whether a line is shown: questions are, and of the log what a filter keeps. -/
def Line.passes (f : Log.Filter) : Line → Bool
  | .record r => f.keeps part r
  | .question _ => true

def filterVariable : String := "RUST_LOG"

/-- What is logged: the environment's filter counts if it can be read, and else the option's. -/
def filterOf (lookUp : String → Option String) (o : Options) : Log.Filter :=
  ((lookUp filterVariable).bind Log.Filter.ofString?).getD (.ofReadable o.logLevel)

variable {σ : Type}

def report (host : Host σ) (lookUp : String → Option String) (o : Options) (outside : σ) :
    Report × σ :=
  let (result, scene) := (process host o).run ⟨outside, []⟩
  let fault := match result with
    | .ok _ => none
    | .error f => some f
  (⟨scene.lines.reverse.filter (Line.passes (filterOf lookUp o)), fault⟩, scene.outside)

def run (host : Host σ) (arguments : List String) (lookUp : String → Option String) (outside : σ) :
    Except Refusal (Report × σ) := do
  return report host lookUp (← Options.ofArguments arguments lookUp) outside

end ChainIngest.Command
