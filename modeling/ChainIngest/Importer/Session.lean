import ChainIngest.Capability.Cache
import ChainIngest.Importer.Import
/-!
# Sessions

A session is an importer at work: its head, its cache of detections, its clock
and counters, and the surroundings that answer for the node and the store.  Time
is virtual; it passes only in pauses and while a silent node is waited for.  A
deadline breaks the importer off in the first wait that would last until then.
-/

namespace ChainIngest.Importer

/-! ## Surroundings -/

inductive Reaction (α : Type) where
  | answer (reply : α)
  | silence
  /-- The importer is broken off while it waits for the answer. -/
  | interruption

/-- A node and a store with a common state. -/
structure Surroundings (σ : Type) where
  node : (call : NodeCall) → σ → Reaction (Except NodeError call.Answer) × σ
  /-- Carries out a task for the store; stamps are taken from the given time of day. -/
  store : (task : StoreTask) → (now : Int) → σ → Except StoreError task.Answer × σ

/-! ## State -/

structure Session (σ : Type) where
  outside : σ
  head : Option BlockId
  /-- Whether the head was published since that was last asked. -/
  published : Bool
  cache : Capability.Cache
  metrics : Metrics
  clock : Duration
  /-- The time of day; every look at it is later than the one before. -/
  stamp : Int
  /-- Import rows written by themselves, last first. -/
  statuses : List ImportEntry
  committed : Option BlockRows

namespace Session

variable {σ : Type}

def start (outside : σ) (c : Config) (stamp : Int) : Session σ where
  outside := outside
  head := none
  published := false
  cache := .new c.cacheCapacity
  metrics := .none
  clock := .zero
  stamp := stamp
  statuses := []
  committed := none

/-- A new importer over the same surroundings: it has neither head nor memory. -/
def restart (s : Session σ) (c : Config) : Session σ :=
  { s with head := none, published := false, cache := .new c.cacheCapacity }

def beginWork (s : Session σ) : Session σ :=
  { s with published := false, statuses := [], committed := none }

def due (deadline : Option Duration) (time : Duration) : Option Duration :=
  deadline.filter fun d => d.nanos ≤ time.nanos

def wait (deadline : Option Duration) (d : Duration) (s : Session σ) : Bool × Session σ :=
  let later := s.clock.plus d
  match due deadline later with
  | some stop => (false, { s with clock := ⟨max s.clock.nanos stop.nanos⟩ })
  | none => (true, { s with clock := later })

def note (task : StoreTask) (s : Session σ) : Session σ :=
  match task with
  | .recordStatus entry => { s with statuses := entry :: s.statuses }
  | .commit rows => { s with committed := some rows }
  | _ => s

def answer (around : Surroundings σ) (deadline : Option Duration) :
    (r : Request) → Session σ → Option r.Reply × Session σ
  | .node call limit, s =>
    match around.node call s.outside with
    | (.answer reply, o) => (some reply, { s with outside := o })
    | (.interruption, o) => (none, { s with outside := o })
    | (.silence, o) =>
      match wait deadline limit { s with outside := o } with
      | (true, s) => (some (.error (.timeout call.operation limit)), s)
      | (false, s) => (none, s)
  | .store task, s =>
    match around.store task s.stamp s.outside with
    | (.ok a, o) => (some (.ok a), note task { s with outside := o, stamp := s.stamp + 1 })
    | (.error e, o) => (some (.error e), { s with outside := o, stamp := s.stamp + 1 })
  | .classify code, s =>
    let (found, cache) := s.cache.detect code
    (some found.found, { s with cache := cache, metrics := s.metrics.addLookup found.hit })
  | .sleep d, s =>
    match wait deadline d s with
    | (true, s) => (some (), s)
    | (false, s) => (none, s)
  | .head, s => (some s.head, s)
  | .setHead head, s => (some (), { s with head := head, published := true })
  | .count metric amount, s => (some (), { s with metrics := s.metrics.add metric amount })
  | .now, s => (some s.stamp, { s with stamp := s.stamp + 1 })

/-- Carries out a step; none if it was broken off. -/
def perform {α : Type} (around : Surroundings σ) (deadline : Option Duration) (step : Step α)
    (s : Session σ) : Option (Except IngestError α) × Session σ :=
  Dialogue.run (answer around deadline) step.run s

end Session

end ChainIngest.Importer
