import ChainIngest.Record.Codec
import ChainIngest.Store.Table
/-!
# The store

Everything that ingestion keeps, one table for each kind of row.  Blocks and
their own rows are filed under the block's hash and are never removed: a block
that leaves the canonical chain only loses its flag.  Rows of transactions are
filed under the transaction, so they belong to the block that was committed with
it last.
-/

namespace ChainIngest

open Store (Table)

structure StoredBlock where
  block : Block
  /-- Whether it is canonical. -/
  canonical : Bool
deriving DecidableEq, Inhabited

/-- What is known of a contract: from its creation, or from a later look at its code. -/
structure StoredContract where
  capabilities : Capabilities
  contractType : ContractType
  /-- Its creation, if that was seen. -/
  created : Option ContractCreated
deriving DecidableEq, Inhabited

structure Store where
  blocks : Table Hash StoredBlock
  /-- The block that a transaction was last committed with. -/
  transactions : Table Hash Hash
  receipts : Table Hash Receipt
  accounts : Table Address Account
  /-- Movements inside transactions, by transaction and frame number. -/
  internal : Table (Hash × UInt32) InternalTransaction
  contracts : Table Address StoredContract
  /-- Destructions, by transaction and frame number. -/
  destructions : Table (Hash × UInt32) ContractDestroyed
  archives : Table Hash Bytes
  /-- Token movements, by transaction and log position. -/
  transfers : Table (Hash × UInt32) TokenTransfer
  /-- Other logs, by transaction and log position. -/
  events : Table (Hash × UInt32) ContractEvent
  /-- Rewards, by paying and rewarded block. -/
  rewards : Table (Hash × Hash) Reward
  /-- Balance changes, by block and position. -/
  deltas : Table (Hash × UInt32) BalanceDelta
  /-- Import rows, by height and hash. -/
  queue : Table (Nat × Hash) ImportEntry
  cursors : Table Nat Cursor
deriving DecidableEq

namespace Store

def empty : Store where
  blocks := .empty
  transactions := .empty
  receipts := .empty
  accounts := .empty
  internal := .empty
  contracts := .empty
  destructions := .empty
  archives := .empty
  transfers := .empty
  events := .empty
  rewards := .empty
  deltas := .empty
  queue := .empty
  cursors := .empty

instance : Inhabited Store := ⟨empty⟩

/-! ## Reading -/

/-- Whether a block is canonical; none if it was never stored. -/
def isCanonical? (s : Store) (block : Hash) : Option Bool :=
  (s.blocks.get? block).map StoredBlock.canonical

/-- Number of blocks, canonical or not. -/
def blockCount (s : Store) : Nat := s.blocks.size

def deltaCount (s : Store) : Nat := s.deltas.size

def canonicalBlocks (s : Store) : List Block :=
  (s.blocks.rows.filter StoredBlock.canonical).map StoredBlock.block

/-- The canonical blocks' names in order of height. -/
def canonicalChain (s : Store) : List BlockId :=
  (s.canonicalBlocks.map Block.id).mergeSort fun a b => a.number ≤ b.number

def canonicalBlock? (s : Store) (number : Nat) : Option BlockId :=
  (s.canonicalBlocks.find? fun b => b.number = number).map Block.id

/-- Whether an import row outranks another of its height: canonical rows first, then the one
written later. -/
def outranks (a b : ImportEntry) : Bool :=
  if a.canonical = b.canonical then b.updatedAt ≤ a.updatedAt else a.canonical

/-- The row that outranks all before it, of two equal ones the later. -/
def foremost (entries : List ImportEntry) : Option ImportEntry :=
  entries.foldl (fun best e =>
    match best with
    | none => some e
    | some b => if outranks e b then some e else some b) none

/-- The import rows of a height, in order of their hashes. -/
def entriesAt (s : Store) (number : Nat) : List ImportEntry :=
  (s.queue.entries.filter fun e => e.1.1 = number).map Prod.snd

def importStatus? (s : Store) (number : Nat) : Option ImportEntry :=
  foremost (s.entriesAt number)

def cursor? (s : Store) (chainId : Nat) : Option Cursor := s.cursors.get? chainId

/-- The cursor written last. -/
def anyCursor? (s : Store) : Option Cursor :=
  s.cursors.rows.foldl (fun best c =>
    match best with
    | none => some c
    | some b => if b.updatedAt ≤ c.updatedAt then some c else some b) none

def capabilities? (s : Store) (contract : Address) : Option Capabilities :=
  (s.contracts.get? contract).map StoredContract.capabilities

def canonicalDeltas (s : Store) : List BalanceDelta :=
  s.deltas.rows.filter fun d => s.isCanonical? d.blockHash = some true

/-- The balances that the canonical blocks add up to, in address order and without zeros. -/
def canonicalBalances (s : Store) : List (Address × Word) :=
  let sums : Table Address Word :=
    s.canonicalDeltas.foldl (fun t d => t.alter d.account fun old => old.getD 0 + d.amount) .empty
  sums.entries.filter fun e => e.2 ≠ 0

def archive? (s : Store) (block : Hash) : Option (Except StoreError Record.Archive) :=
  (s.archives.get? block).map fun b =>
    match Record.archiveFormat.decode b with
    | .ok a => .ok a
    | .error e => .error (.unreadable e.message)

end Store

end ChainIngest
