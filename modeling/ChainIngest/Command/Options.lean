import ChainIngest.Importer.Config
import ChainIngest.Postgres.Config
import ChainIngest.Rpc.Client
import ChainIngest.Text.Natural
/-!
# Options of the program

What the program can be told, each setting's name on the command line and in the
environment, and how its text is read.
-/

namespace ChainIngest.Command

structure Options where
  rpcUrl : String
  traceApi : Rpc.TraceApi
  databaseUrl : String
  metricsPort : Nat
  jsonLogs : Bool
  logLevel : String
  /-- The chain that the node must serve; none takes any. -/
  chainId : Option Nat
  startBlock : Nat
  maxReorgDepth : Nat
  maxAttempts : Nat
  blockReward : Option Nat
  dryRun : Bool
  migrateOnly : Bool
  purge : Bool
  yes : Bool
deriving DecidableEq, Inhabited

namespace Options

def standard : Options where
  rpcUrl := Rpc.defaultUrl
  traceApi := .debug
  databaseUrl := Postgres.Config.defaultUrl
  metricsPort := 9090
  jsonLogs := false
  logLevel := "info"
  chainId := none
  startBlock := 0
  maxReorgDepth := 64
  maxAttempts := 5
  blockReward := none
  dryRun := false
  migrateOnly := false
  purge := false
  yes := false

def schedule (o : Options) (chainId : Nat) : Balance.Schedule :=
  .ofChain chainId (o.blockReward.map (BitVec.ofNat 256))

def importer (o : Options) (chainId : Nat) : Importer.Config :=
  { Importer.Config.standard with
    chainId := chainId
    startBlock := o.startBlock
    maxReorgDepth := o.maxReorgDepth
    maxAttempts := o.maxAttempts
    schedule := o.schedule chainId }

end Options

inductive Setting where
  | rpcUrl
  | traceApi
  | databaseUrl
  | metricsPort
  | jsonLogs
  | logLevel
  | chainId
  | startBlock
  | maxReorgDepth
  | maxAttempts
  | blockReward
  | dryRun
  | migrateOnly
  | purge
  | yes
deriving DecidableEq, Inhabited

namespace Setting

def all : List Setting :=
  [rpcUrl, traceApi, databaseUrl, metricsPort, jsonLogs, logLevel, chainId, startBlock,
   maxReorgDepth, maxAttempts, blockReward, dryRun, migrateOnly, purge, yes]

def name : Setting → String
  | rpcUrl => "rpc-url"
  | traceApi => "trace-api"
  | databaseUrl => "database-url"
  | metricsPort => "metrics-port"
  | jsonLogs => "json-logs"
  | logLevel => "log-level"
  | chainId => "chain-id"
  | startBlock => "start-block"
  | maxReorgDepth => "max-reorg-depth"
  | maxAttempts => "max-attempts"
  | blockReward => "block-reward"
  | dryRun => "dry-run"
  | migrateOnly => "migrate-only"
  | purge => "purge"
  | yes => "yes"

def ofName? (text : String) : Option Setting := all.find? fun s => s.name = text

def ofLetter? (c : Char) : Option Setting := if c = 'y' then some yes else none

/-- The name in the environment; what is done once is not set there. -/
def inEnvironment : Setting → Option String
  | rpcUrl => some "RPC_URL"
  | traceApi => some "TRACE_API"
  | databaseUrl => some "DATABASE_URL"
  | metricsPort => some "METRICS_PORT"
  | jsonLogs => some "JSON_LOGS"
  | logLevel => some "LOG_LEVEL"
  | chainId => some "CHAIN_ID"
  | startBlock => some "START_BLOCK"
  | maxReorgDepth => some "MAX_REORG_DEPTH"
  | maxAttempts => some "MAX_ATTEMPTS"
  | blockReward => some "BLOCK_REWARD"
  | _ => none

/-- Whether the setting is on or off, so that its name alone turns it on. -/
def isSwitch : Setting → Bool
  | jsonLogs | dryRun | migrateOnly | purge | yes => true
  | _ => false

def number? (bits : Nat) (text : String) : Option Nat := (Text.Natural.ofString bits text).toOption

def switch? (text : String) : Option Bool :=
  if text = "true" then some true else if text = "false" then some false else none

/-- The options after a setting was given as a text, unless it cannot be read. -/
def assign? (s : Setting) (text : String) (o : Options) : Option Options :=
  match s with
  | rpcUrl => some { o with rpcUrl := text }
  | traceApi => (Rpc.TraceApi.ofName? text).map fun v => { o with traceApi := v }
  | databaseUrl => some { o with databaseUrl := text }
  | metricsPort => (number? 16 text).map fun v => { o with metricsPort := v }
  | jsonLogs => (switch? text).map fun v => { o with jsonLogs := v }
  | logLevel => some { o with logLevel := text }
  | chainId => (number? 64 text).map fun v => { o with chainId := some v }
  | startBlock => (number? 64 text).map fun v => { o with startBlock := v }
  | maxReorgDepth => (number? 64 text).map fun v => { o with maxReorgDepth := v }
  | maxAttempts => (number? 32 text).map fun v => { o with maxAttempts := v }
  | blockReward => (number? 128 text).map fun v => { o with blockReward := some v }
  | dryRun => (switch? text).map fun v => { o with dryRun := v }
  | migrateOnly => (switch? text).map fun v => { o with migrateOnly := v }
  | purge => (switch? text).map fun v => { o with purge := v }
  | yes => (switch? text).map fun v => { o with yes := v }

end Setting

end ChainIngest.Command
