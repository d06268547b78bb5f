import ChainIngest.Command.Options
/-!
# Usage

What the program says when it is asked for help or for its version.
-/

namespace ChainIngest.Command

def Setting.purpose : Setting → String
  | rpcUrl => "Ethereum JSON-RPC HTTP URL"
  | traceApi => "Call trace API exposed by the node: debug or parity"
  | databaseUrl => "PostgreSQL database URL"
  | metricsPort => "Prometheus metrics port"
  | jsonLogs => "Enable JSON log output"
  | logLevel => "Log level (trace, debug, info, warn, error)"
  | chainId => "Expected chain id. Defaults to whatever the node reports"
  | startBlock => "First block imported into an empty store. Ignored once a cursor exists"
  | maxReorgDepth => "Deepest reorg resolved without operator action"
  | maxAttempts => "Attempts per block before ingestion halts"
  | blockReward => "Constant block reward in wei for chains other than mainnet"
  | dryRun => "Keep everything in memory; nothing is written to the database"
  | migrateOnly => "Run database migrations and exit"
  | purge => "Purge all indexed data from the database and exit"
  | yes => "Skip confirmation prompt for destructive operations (like --purge)"

def Setting.usage (s : Setting) : String :=
  let value := if s.isSwitch then "" else " <VALUE>"
  let other := match s.inEnvironment with
    | some name => " [env: " ++ name ++ "]"
    | none => ""
  "  --" ++ s.name ++ value ++ "  " ++ s.purpose ++ other

def version : String := "tributary 0.1.0"

def usage : String :=
  "\n".intercalate (["Tributary - EVM chain ingestion and normalization pipeline", "",
    "Usage: tributary [OPTIONS]", "", "Options:"] ++ Setting.all.map Setting.usage)

end ChainIngest.Command
