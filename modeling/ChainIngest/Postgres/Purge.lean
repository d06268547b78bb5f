import ChainIngest.Postgres.Column
/-!
# Purging

A purge empties every table and keeps the schema.  Counting and emptying are one
transaction, so the counts are those of what was removed.
-/

namespace ChainIngest.Postgres

structure Purged where
  /-- Blocks, canonical or not. -/
  blocks : Nat
  transactions : Nat
  deltas : Nat
deriving DecidableEq, Inhabited

def selectCounts : Statement where
  text := "SELECT (SELECT COUNT(*) FROM blocks), (SELECT COUNT(*) FROM transactions),
    (SELECT COUNT(*) FROM balance_deltas)"
  params := []

/-- Empties the tables, and with them all that refers to them. -/
def truncate : Statement :=
  ⟨"TRUNCATE blocks, accounts, contracts, import_queue, indexer_cursor CASCADE", []⟩

/-- The counts, from their row; none is below zero. -/
def Purged.ofRow (row : Row) : Except StoreError Purged := do
  present [some "0", some "1", some "2"] row
  match row with
  | [.int blocks, .int transactions, .int deltas] =>
    return ⟨blocks.toNat, transactions.toNat, deltas.toNat⟩
  | _ => misshapen

def purge : Task Purged := do
  discard (command Failure.ofTransaction "BEGIN")
  match ← fetchFirst selectCounts with
  | none => throw (Failure.ofRead .noRow)
  | some row =>
    let counts ← Task.ofExcept (Purged.ofRow row)
    discard (execute Failure.ofRead truncate)
    discard (command Failure.ofTransaction "COMMIT")
    return counts

end ChainIngest.Postgres
