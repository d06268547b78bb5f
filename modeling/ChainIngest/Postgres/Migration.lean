import ChainIngest.Crc32
import ChainIngest.Postgres.Schema
import ChainIngest.Postgres.Statement
import ChainIngest.Sha384
import ChainIngest.Text.Utf8
/-!
# Migrations

A database keeps a list of the scripts that were run on it, with their digests.
Migrating runs the scripts that are missing, each in a transaction of its own,
under a lock that keeps others from doing the same.  A database that knows a
script that we do not, or another text of one that we do, is left alone.
-/

namespace ChainIngest.Postgres

structure Migration where
  /-- Scripts are run in the order of their versions. -/
  version : Int
  description : String
  script : String
deriving DecidableEq, Inhabited

namespace Migration

def checksum (m : Migration) : Bytes := Sha384.digest (Text.Utf8.encode m.script)

def all : List Migration := [⟨1, "init", Schema.script⟩]

/-! ## Errors -/

inductive Fault where
  | unfinished (version : Int)
  | unknown (version : Int)
  | altered (version : Int)
  | script (version : Int) (failure : Failure)
  | statement (failure : Failure)
deriving DecidableEq, Inhabited

def Fault.message : Fault → String
  | unfinished version =>
    s!"migration {version} is partially applied; fix and remove row from `_sqlx_migrations` table"
  | unknown version =>
    s!"migration {version} was previously applied but is missing in the resolved migrations"
  | altered version => s!"migration {version} was previously applied but has been modified"
  | script version failure => s!"while executing migration {version}: " ++ failure.message
  | statement failure => "while executing migrations: " ++ failure.message

def Fault.toStoreError (f : Fault) : StoreError := ⟨.migration, f.message⟩

def blame (f : Failure) : StoreError := (Fault.statement f).toStoreError

def stop {α : Type} (f : Fault) : Task α := throw f.toStoreError

/-! ## What the database knows -/

def lockOf (database : String) : Int :=
  0x3d32ad9e * (Crc32.checksum (Text.Utf8.encode database)).toNat

def selectDatabase : Statement := ⟨"SELECT current_database()", []⟩

def lock (key : Int) : Statement := ⟨"SELECT pg_advisory_lock($1)", [.int key]⟩

def unlock (key : Int) : Statement := ⟨"SELECT pg_advisory_unlock($1)", [.int key]⟩

def createHistory : Statement where
  text := "CREATE TABLE IF NOT EXISTS _sqlx_migrations ( version BIGINT PRIMARY KEY,
    description TEXT NOT NULL, installed_on TIMESTAMPTZ NOT NULL DEFAULT now(),
    success BOOLEAN NOT NULL, checksum BYTEA NOT NULL, execution_time BIGINT NOT NULL );"
  params := []

def selectUnfinished : Statement :=
  ⟨"SELECT version FROM _sqlx_migrations WHERE success = false ORDER BY version LIMIT 1", []⟩

def selectApplied : Statement :=
  ⟨"SELECT version, checksum FROM _sqlx_migrations ORDER BY version", []⟩

def insertApplied (m : Migration) : Statement where
  text := "INSERT INTO _sqlx_migrations ( version, description, success, checksum,
    execution_time ) VALUES ( $1, $2, TRUE, $3, -1 )"
  params := [.int m.version, .text m.description, .bytes m.checksum]

def updateApplied (m : Migration) (nanos : Nat) : Statement where
  text := "UPDATE _sqlx_migrations SET execution_time = $1 WHERE version = $2"
  params := [.int nanos, .int m.version]

/-- The lines of the statements by which the list of scripts is kept. -/
def bookkeeping : List String :=
  [selectDatabase, lock 0, unlock 0, createHistory, selectUnfinished, selectApplied,
    insertApplied default, updateApplied default 0].map Statement.line

structure Applied where
  version : Int
  checksum : Bytes
deriving DecidableEq, Inhabited

def Applied.ofRow : Row → Except StoreError Applied
  | [.int version, .bytes checksum] => .ok ⟨version, checksum⟩
  | _ => .error (blame (.garbled "unexpected columns"))

def versionOfRow : Row → Except StoreError Int
  | [.int version] => .ok version
  | _ => .error (blame (.garbled "unexpected columns"))

/-! ## Migrating -/

def apply (m : Migration) : Task Unit := do
  discard (command blame "BEGIN")
  discard (command (fun f => (Fault.script m.version f).toStoreError) m.script)
  discard (execute blame (insertApplied m))
  discard (command blame "COMMIT")
  discard (execute blame (updateApplied m 0))

def bringUp (applied : List Applied) (m : Migration) : Task Unit :=
  match applied.find? fun a => a.version = m.version with
  | some a => if a.checksum = m.checksum then pure () else stop (.altered m.version)
  | none => m.apply

def run (migrations : List Migration) : Task Unit := do
  let key ← match (← execute blame selectDatabase).rows with
    | (.text name :: _) :: _ => pure (lockOf name)
    | _ => throw (blame .noRow)
  discard (execute blame (lock key))
  discard (execute blame createHistory)
  match (← execute blame selectUnfinished).rows.head? with
  | some row => stop (.unfinished (← Task.ofExcept (versionOfRow row)))
  | none =>
    let applied ← Task.ofExcept ((← execute blame selectApplied).rows.mapM Applied.ofRow)
    match applied.find? fun a => migrations.all fun m => m.version ≠ a.version with
    | some a => stop (.unknown a.version)
    | none =>
      migrations.forM (bringUp applied)
      discard (execute blame (unlock key))

end Migration

def migrate : Task Unit := Migration.run Migration.all

end ChainIngest.Postgres
