import ChainIngest.Store.Basic
/-!
# Writing to the store

A commit writes all rows of one block and makes it the canonical block of its
height.  A reorg takes the canonical flag from everything above an ancestor and
moves the cursor back to it; it removes nothing.
-/

namespace ChainIngest.Store

/-! ## Single rows -/

def recordStatus (s : Store) (entry : ImportEntry) : Store :=
  { s with queue := s.queue.insert (entry.number, entry.hash) entry }

/-- An account row that takes in what a block tells: the lower first height stays, and a
destruction replaces an earlier one. -/
def mergeAccount (seen : Account) (old : Option Account) : Account :=
  match old with
  | none => seen
  | some stored =>
    { stored with
      firstSeenBlock := min stored.firstSeenBlock seen.firstSeenBlock
      destroyedBlock := seen.destroyedBlock <|> stored.destroyedBlock }

def contractOfCreated (c : ContractCreated) : StoredContract :=
  ⟨c.capabilities, c.contractType, some c⟩

def contractOfClassified (c : ClassifiedContract) : StoredContract :=
  ⟨c.capabilities, c.contractType, none⟩

/-! ## Commits -/

def demoteBlocks (t : Table Hash StoredBlock) (block : BlockId) : Table Hash StoredBlock :=
  t.map fun _ row =>
    if row.block.number = block.number ∧ row.block.hash ≠ block.hash then
      { row with canonical := false }
    else row

def demoteEntries (t : Table (Nat × Hash) ImportEntry) (block : BlockId) :
    Table (Nat × Hash) ImportEntry :=
  t.map fun key row =>
    if key.1 = block.number ∧ key.2 ≠ block.hash then { row with canonical := false } else row

def refile {ν : Type} (t : Table (Hash × UInt32) ν) (txs : List Hash) (key : ν → Hash × UInt32)
    (rows : List ν) : Table (Hash × UInt32) ν :=
  rows.foldl (fun t row => t.insert (key row) row) (t.filterKeys fun k => !txs.contains k.1)

/-- Writes all rows of a block and makes it canonical. -/
def commit (s : Store) (rows : BlockRows) : Store :=
  let id := rows.block.id
  let txs := rows.block.transactions.map Transaction.hash
  { blocks := (demoteBlocks s.blocks id).insert id.hash ⟨rows.block, true⟩
    transactions := txs.foldl (fun t tx => t.insert tx id.hash) s.transactions
    receipts := rows.receipts.foldl (fun t r => t.insert r.txHash r) s.receipts
    accounts := rows.accounts.foldl (fun t a => t.alter a.address (mergeAccount a)) s.accounts
    internal := refile s.internal txs (fun t => (t.txHash, t.pc)) rows.internal
    contracts := rows.classified.foldl
      (fun t c => t.insertNew c.address (contractOfClassified c))
      (rows.created.foldl (fun t c => t.insert c.address (contractOfCreated c)) s.contracts)
    destructions := refile s.destructions txs (fun d => (d.txHash, d.pc)) rows.destroyed
    archives := s.archives.insert id.hash (Record.archiveFormat.encode (.ofRows rows))
    transfers := refile s.transfers txs (fun t => (t.txHash, t.logIndex)) rows.transfers
    events := refile s.events txs (fun e => (e.txHash, e.logIndex)) rows.events
    rewards := rows.rewards.foldl (fun t r => t.insertNew (r.blockHash, r.hash) r) s.rewards
    deltas := rows.deltas.foldl (fun t d => t.insertNew (d.blockHash, d.index) d) s.deltas
    queue := (demoteEntries s.queue id).insert (rows.entry.number, rows.entry.hash) rows.entry
    cursors := s.cursors.insert rows.cursor.chainId rows.cursor }

/-! ## Reorgs -/

def isOrphaned (ancestor : BlockId) (row : StoredBlock) : Bool :=
  ancestor.number < row.block.number && row.canonical

def orphanCount (s : Store) (ancestor : BlockId) : Nat :=
  s.blocks.rows.countP (isOrphaned ancestor)

/-- Takes the canonical flag from everything above a block and moves the chain's cursor
there. -/
def markReorg (s : Store) (ancestor : BlockId) (chainId : Nat) (now : Int) : Store :=
  { s with
    blocks := s.blocks.map fun _ row =>
      if isOrphaned ancestor row then { row with canonical := false } else row
    queue := s.queue.map fun key row =>
      if ancestor.number < key.1 then { row with canonical := false } else row
    cursors := s.cursors.insert chainId ⟨chainId, ancestor.number, ancestor.hash, now⟩ }

end ChainIngest.Store
