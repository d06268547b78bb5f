import ChainIngest.Duration
import ChainIngest.Error
import ChainIngest.Postgres.Connection
/-!
# Database settings

Which database to use, how many connections to keep to it, and how long to wait.
-/

namespace ChainIngest.Postgres

structure Config where
  url : String
  maxConnections : Nat
  minConnections : Nat
  acquireTimeout : Duration
  /-- A connection is closed after it was idle this long. -/
  idleTimeout : Duration
  maxLifetime : Duration
  /-- Longest time that the server gives a single statement. -/
  statementTimeout : Option Duration
deriving DecidableEq, Inhabited

namespace Config

def application : String := "tributary"

def defaultUrl : String := "postgres://localhost/tributary"

def standard : Config where
  url := defaultUrl
  maxConnections := 10
  minConnections := 2
  acquireTimeout := .ofSeconds 30
  idleTimeout := .ofSeconds 600
  maxLifetime := .ofSeconds 1800
  statementTimeout := none

/-- The settings with what the environment tells; what it does not tell in a usable way stays. -/
def ofEnvironment (lookUp : String → Option String) : Config :=
  { standard with
    url := (lookUp "DATABASE_URL").getD standard.url
    maxConnections := ((lookUp "DATABASE_MAX_CONNECTIONS").bind fun text =>
      (Text.Natural.ofString 32 text).toOption).getD standard.maxConnections }

/-- The settings of an importer: blocks are committed one at a time, so few connections do, and
no statement may hold a commit up for long. -/
def forImporter (url : String) : Config :=
  { standard with
    url := url
    maxConnections := 4
    minConnections := 1
    statementTimeout := some (.ofSeconds 60) }

def connection (c : Config) : Except StoreError Connection := do
  let base ← (Connection.ofString c.url).mapError fun f =>
    ⟨.connection, "invalid database URL: " ++ f.message⟩
  let named := { base with application := some application }
  return match c.statementTimeout with
    | some limit => named.setOption "statement_timeout" s!"{limit.millis}ms"
    | none => named

end Config

end ChainIngest.Postgres
