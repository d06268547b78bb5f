import ChainIngest.Importer.Session
/-!
# Running until told to stop

An importer runs step after step until a shutdown is asked for or something
happens that it cannot recover from.  The request for shutdown is a flag that
others set: setting it, even to what it was, breaks off the step under way;
while the importer pauses between steps only a raised flag ends it.
-/

namespace ChainIngest.Importer

structure Signal where
  time : Duration
  stop : Bool
deriving DecidableEq, Inhabited

structure Flag where
  raised : Bool
  /-- Whether it was set since the importer last noticed. -/
  touched : Bool
  /-- Settings still to come, earliest first. -/
  ahead : List Signal
deriving DecidableEq, Inhabited

namespace Flag

def settle (f : Flag) (past : Signal → Bool) : Flag :=
  let (done, ahead) := f.ahead.span past
  done.foldl (fun f s => { f with raised := s.stop, touched := true }) { f with ahead := ahead }

/-- The flag after all settings before a point in time.  A setting at the very point waits
until the importer does. -/
def before (f : Flag) (time : Duration) : Flag := f.settle fun s => s.time.nanos < time.nanos

def upTo (f : Flag) (time : Duration) : Flag := f.settle fun s => s.time.nanos ≤ time.nanos

/-- When the flag is next seen to be set: at once if that has happened unnoticed. -/
def nextTouch (f : Flag) (time : Duration) : Option Duration :=
  if f.touched then some time else f.ahead.head?.map Signal.time

def noticed (f : Flag) : Flag := { f with touched := false }

end Flag

inductive Verdict where
  | proceed
  | pause (d : Duration) (failures : Nat)
  | halt (e : IngestError)

/-- Judges the result of a step: a caught-up importer waits for the poll interval, a failure
that may go away is waited for longer each time, any other failure ends the run. -/
def judge (c : Config) (failures : Nat) : Except IngestError Outcome → Verdict
  | .ok .idle => .pause c.pollInterval 0
  | .ok _ => .proceed
  | .error e =>
    if e.isTransient then .pause (c.backoff (failures + 1)) (failures + 1) else .halt e

namespace Session

variable {σ : Type}

def step (around : Surroundings σ) (c : Config) (s : Session σ) :
    Except IngestError Outcome × Session σ :=
  match s.perform around none (importNext c) with
  | (some result, s) => (result, s)
  | (none, s) => (.error .shutdown, s)

/-- Steps until nothing is left to import, or a step fails, or there were `limit` of them. -/
def drain (around : Surroundings σ) (c : Config) : (limit : Nat) → Session σ →
    List (Except IngestError Outcome) × Session σ
  | 0, s => ([], s)
  | limit + 1, s =>
    match s.step around c with
    | (.ok .idle, s) => ([.ok .idle], s)
    | (.error e, s) => ([.error e], s)
    | (result, s) =>
      let (results, s) := drain around c limit s
      (result :: results, s)

/-- Steps until the run ends, at most `budget` of them. -/
def loop (around : Surroundings σ) (c : Config) : (budget : Nat) → (failures : Nat) → Flag →
    Session σ → IngestError × Session σ
  | 0, _, _, s => (.shutdown, s)
  | budget + 1, failures, flag, s =>
    let flag := flag.before s.clock
    if flag.raised then (.shutdown, s)
    else
      match s.perform around (flag.nextTouch s.clock) (importNext c) with
      | (none, s) => (.shutdown, s)
      | (some result, s) =>
        match judge c failures result with
        | .proceed => loop around c budget 0 flag s
        | .halt e => (e, { s with metrics := s.metrics.add .ingestionHalts 1 })
        | .pause d failures =>
          let flag := flag.before s.clock
          match s.wait (flag.nextTouch s.clock) d with
          | (true, s) => loop around c budget failures flag s
          | (false, s) =>
            let flag := flag.upTo s.clock
            if flag.raised then (.shutdown, s)
            else loop around c budget failures flag.noticed s

/-- Runs an importer from its entry to its end: the error that ended it, a shutdown included. -/
def runUntilStopped (around : Surroundings σ) (c : Config) (budget : Nat) (flag : Flag)
    (s : Session σ) : IngestError × Session σ :=
  match s.perform around none (enter c) with
  | (none, s) => (.shutdown, s)
  | (some (.error e), s) => (e, s)
  | (some (.ok ()), s) => loop around c budget 0 flag s

end Session

end ChainIngest.Importer
