import ChainIngest.Command.Fault
import ChainIngest.Command.Options
import ChainIngest.Importer.Memory
import ChainIngest.Importer.Run
import ChainIngest.Log.Record
import ChainIngest.Postgres.Migration
import ChainIngest.Postgres.Purge
import ChainIngest.Postgres.Store
/-!
# The process

What the program does once it has its options: it prepares the database, greets
the node, imports until it is told to stop, and takes its leave.  All of it is a
log and the questions that are put to the host, the database and the node among
them; a fault ends it early.
-/

namespace ChainIngest.Command

open Importer (NodeCall Reaction Session StoreTask Surroundings)

/-! ## Host -/

structure Host (σ : Type) where
  /-- Reacts to a call of the node, which exposes traces in some way. -/
  node : Rpc.TraceApi → (call : NodeCall) → σ → Reaction (Except NodeError call.Answer) × σ
  database : Postgres.Statement → σ → Except Postgres.Failure Postgres.Reply × σ
  line : σ → String
  clock : Int
  budget : Nat

inductive Line where
  | record (r : Log.Record)
  | question (text : String)

structure Scene (σ : Type) where
  outside : σ
  /-- What was shown, last line first. -/
  lines : List Line

abbrev Work (σ : Type) (α : Type) := ExceptT Fault (StateM (Scene σ)) α

namespace Work

variable {σ : Type}

def put (line : Line) : Work σ Unit := modify fun s => { s with lines := line :: s.lines }

def note (level : Log.Level) (message : String) (fields : List (String × Json) := []) :
    Work σ Unit :=
  put (.record ⟨level, message, fields⟩)

def notes (level : Log.Level) (messages : List String) : Work σ Unit :=
  messages.forM fun m => note level m

def act {α : Type} (f : σ → α × σ) : Work σ α :=
  modifyGet fun s => let (a, o) := f s.outside; (a, { s with outside := o })

def orFault {α ε : Type} (blame : ε → Fault) : Except ε α → Work σ α
  | .ok a => return a
  | .error e => throw (blame e)

def talk {α : Type} (host : Host σ) (talk : Postgres.Talk α) : Work σ α :=
  act (talk.hold host.database)

def onDatabase {α : Type} (host : Host σ) (doing : String) (task : Postgres.Task α) : Work σ α := do
  orFault (.ofStore doing) (← talk host task.run)

def onNode (host : Host σ) (o : Options) (doing : String) (call : NodeCall) :
    Work σ call.Answer := do
  match ← act (host.node o.traceApi call) with
  | .answer reply => orFault (.ofNode doing) reply
  | .silence => throw (.plain doing)
  | .interruption => throw (.plain doing)

end Work

open Work

variable {σ : Type}

/-! ## Purging -/

def warning : List String :=
  ["⚠️  PURGE MODE: This will delete ALL indexed data!",
   "   - All blocks, transactions, receipts and traces",
   "   - Contracts, token transfers, events, rewards and balance deltas",
   "   - The import queue and cursor will be reset",
   "   - Schema and migrations will be preserved"]

def question : String := "\n🔴 Are you sure you want to purge all data? [y/N] "

/-- Whether a line gives consent: the letter alone, in either case. -/
def isConsent (line : String) : Bool :=
  let answer := Text.trim line
  answer = "y" || answer = "Y"

def confirmed (host : Host σ) (o : Options) : Work σ Bool := do
  if o.yes then return true
  put (.question question)
  return isConsent (host.line (← get).outside)

def purge (host : Host σ) (o : Options) : Work σ Unit := do
  notes .warn warning
  if ← confirmed host o then
    note .info "🗑️  Purging database..."
    let removed ← onDatabase host "Failed to purge database" Postgres.purge
    notes .info ["✅ Database purged successfully",
      s!"   📦 Blocks removed: {removed.blocks}",
      s!"   📝 Transactions removed: {removed.transactions}",
      s!"   💰 Balance deltas removed: {removed.deltas}",
      "   The indexer will start from --start-block on next run"]
  else note .info "❌ Purge cancelled"

/-! ## Importing -/

/-- Node and store of the importer: the store is in memory on a dry run, and else the
database. -/
def surroundings (host : Host σ) (o : Options) : Surroundings (σ × Store) where
  node call s :=
    let (reaction, outside) := host.node o.traceApi call s.1
    (reaction, (outside, s.2))
  store task now s :=
    if o.dryRun then
      let (answer, store) := s.2.perform task now
      (.ok answer, (s.1, store))
    else
      let (answer, outside) := (Postgres.perform now task).run.hold host.database s.1
      (answer, (outside, s.2))

/-- Runs the importer until it stops: the error that stopped it, a shutdown included. -/
def importBlocks (host : Host σ) (o : Options) (config : Importer.Config) : Work σ IngestError :=
  act fun outside =>
    let session := Session.start (outside, Store.empty) config host.clock
    let (e, session) :=
      session.runUntilStopped (surroundings host o) config host.budget ⟨false, false, []⟩
    (e, session.outside.1)

/-- Logs why the importer stopped, and whether that is a fault. -/
def verdict (e : IngestError) : Work σ (Option Fault) := do
  match e with
  | .shutdown => return none
  | .chainMismatch _ _ =>
    note .error "❌ Store belongs to another chain" [("error", .str e.message)]
  | .reorgTooDeep _ _ _ | .fatal _ _ _ =>
    note .error "❌ Ingestion halted" [("error", .str e.message)]
    note .error "   Manual action required: inspect the block above, then restart"
  | _ => note .error "❌ Indexer error" [("error", .str e.describe)]
  return some (.ofIngest e)

def serve (host : Host σ) (o : Options) : Work σ Unit := do
  note .info "📡 Connecting to node..."
  discard (orFault (.ofNode "Failed to create node client") (Rpc.connect o.rpcUrl))
  let connected ← onNode host o "Failed to query node chain id" .chainId
  let head ← onNode host o "Failed to query node head" .latestBlockNumber
  let chainId := o.chainId.getD connected
  if chainId ≠ connected then
    throw (.plain s!"Node serves chain {connected} but --chain-id is {chainId}")
  note .info "🔗 Chain connected" [("chain_id", .int chainId), ("head", .int head)]
  notes .info ["✅ Tributary ready",
    s!"   📊 Metrics:  http://localhost:{o.metricsPort}/metrics",
    "   Press Ctrl+C to stop"]
  let fault ← verdict (← importBlocks host o (o.importer chainId))
  note .info "🛑 Shutting down..."
  note .debug "Indexer stopped"
  if !o.dryRun then
    if !(← talk host Postgres.isHealthy) then
      note .warn "⚠️  Database unreachable at shutdown"
  note .info "🛑 Shutdown complete"
  match fault with
  | some f => throw f
  | none => return ()

/-! ## The whole -/

def openDatabase (host : Host σ) (o : Options) : Work σ Unit := do
  note .info "🗄️  Connecting to database..."
  discard (orFault (.ofStore "Failed to connect to database")
    (Postgres.Config.forImporter o.databaseUrl).connection)
  onDatabase host "Failed to run migrations" Postgres.migrate

def process (host : Host σ) (o : Options) : Work σ Unit := do
  note .info "🚀 Starting Tributary Indexer"
  note .debug "Node endpoint" [("rpc_url", .str o.rpcUrl), ("trace_api", .str o.traceApi.name)]
  note .debug "Database endpoint" [("database_url", .str (Url.maskPassword o.databaseUrl))]
  if o.dryRun then
    if o.migrateOnly || o.purge then
      throw (.plain "--dry-run cannot be combined with --migrate-only or --purge")
    note .info "🧪 Dry run: blocks are kept in memory only"
    serve host o
  else
    openDatabase host o
    if o.migrateOnly then note .info "🛑 --migrate-only flag set, exiting"
    else if o.purge then purge host o
    else serve host o

end ChainIngest.Command
