import ChainIngest.Importer.Program
import ChainIngest.Postgres.Column
import ChainIngest.Postgres.Insert
import ChainIngest.Store.Table
/-!
# The store in a database

The tasks of a store as dialogues with a database.  A commit and a reorg are one
transaction each, under an isolation that lets a concurrent writer show up as a
conflict; nothing is undone by hand when a statement fails, since the transaction
ends with the connection's interest in it.
-/

namespace ChainIngest.Postgres

open Importer (StoreTask)
open Value

/-! ## Transactions -/

/-- Begins a transaction that sees one state of the database. -/
def begin : Task Unit := do
  discard (command Failure.ofTransaction "BEGIN")
  discard (command Failure.ofTransaction "SET TRANSACTION ISOLATION LEVEL REPEATABLE READ")

def commit (rows : BlockRows) : Task Unit := do
  begin
  executeAll Failure.ofWrite (rowStatements rows)
  discard (command Failure.ofCommit "COMMIT")

def demoteBlocksAbove (number : Nat) : Statement where
  text := "UPDATE blocks SET canonical = FALSE WHERE number > $1 AND canonical"
  params := [ofNat64 number]

def demoteEntriesAbove (number : Nat) : Statement where
  text := "UPDATE import_queue SET canonical = FALSE, updated_at = NOW()
    WHERE number > $1 AND canonical"
  params := [ofNat64 number]

def markReorg (ancestor : BlockId) (chainId : Nat) (now : Int) : Task Nat := do
  begin
  let orphaned ← execute Failure.ofWrite (demoteBlocksAbove ancestor.number)
  discard (execute Failure.ofWrite (demoteEntriesAbove ancestor.number))
  discard (execute Failure.ofWrite (insertCursor ⟨chainId, ancestor.number, ancestor.hash, now⟩))
  discard (command Failure.ofTransaction "COMMIT")
  return orphaned.affected

/-! ## Look-ups -/

def selectBlock (number : Nat) : Statement where
  text := "SELECT number, hash FROM blocks WHERE number = $1 AND canonical"
  params := [ofNat64 number]

/-- Asks for the import row of a height: the canonical one, else the one written last. -/
def selectEntry (number : Nat) : Statement where
  text := "SELECT number, hash, status, attempts, canonical, last_error, updated_at
    FROM import_queue WHERE number = $1 ORDER BY canonical DESC, updated_at DESC LIMIT 1"
  params := [ofNat64 number]

def selectCursor (chainId : Nat) : Statement where
  text := "SELECT chain_id, last_block, last_hash, updated_at FROM indexer_cursor
    WHERE chain_id = $1"
  params := [ofNat64 chainId]

/-- Asks for the cursor written last. -/
def selectAnyCursor : Statement where
  text := "SELECT chain_id, last_block, last_hash, updated_at FROM indexer_cursor
    ORDER BY updated_at DESC LIMIT 1"
  params := []

def selectCapabilities (contract : Address) : Statement where
  text := "SELECT capabilities FROM contracts WHERE address = $1"
  params := [ofAddress contract]

def selectArchive (block : Hash) : Statement where
  text := "SELECT archive FROM block_traces WHERE block_hash = $1"
  params := [ofHash block]

def selectBalances : Statement where
  text := "SELECT account, balance::TEXT FROM canonical_balances"
  params := []

def lookUp {α : Type} (read : Row → Except StoreError α) (s : Statement) : Task (Option α) := do
  match ← fetchFirst s with
  | some row => some <$> Task.ofExcept (read row)
  | none => return none

def archive (block : Hash) : Task (Option Record.Archive) := lookUp archiveOfRow (selectArchive block)

/-- The canonical balances that are not zero. -/
def balances : Task (Store.Table Address Word) := do
  let columns ← Task.ofExcept ((← fetchAll selectBalances).mapM balanceColumns)
  let balances ← Task.ofExcept (columns.mapM balanceOfColumns)
  return balances.foldl (fun table b => if b.2 = 0 then table else table.insert b.1 b.2) .empty

def isHealthy : Talk Bool := do
  match ← Dialogue.request ⟨"SELECT 1", []⟩ with
  | .ok _ => return true
  | .error _ => return false

/-! ## All tasks -/

def perform (now : Int) : (task : StoreTask) → Task task.Answer
  | .commit rows => commit rows
  | .importStatus number => lookUp entryOfRow (selectEntry number)
  | .recordStatus entry => discard (execute Failure.ofWrite (insertEntry entry))
  | .markReorg ancestor chainId => markReorg ancestor chainId now
  | .canonicalBlock number => lookUp blockIdOfRow (selectBlock number)
  | .cursor chainId => lookUp cursorOfRow (selectCursor chainId)
  | .anyCursor => lookUp cursorOfRow selectAnyCursor
  | .capabilities contract => lookUp capabilitiesOfRow (selectCapabilities contract)

end ChainIngest.Postgres
