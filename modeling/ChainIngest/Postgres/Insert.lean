import ChainIngest.Json.Encode
import ChainIngest.Keccak
import ChainIngest.Postgres.Statement
/-!
# Writing rows

The statements that write the rows of a block, in the order in which they are
run: what others refer to comes first, and the progress of the import last.
Writing the same rows again changes nothing, and rows of a transaction that comes
back on another branch replace the earlier ones.
-/

namespace ChainIngest.Postgres

open Value

/-! ## The block -/

/-- Takes the flag from other canonical blocks of a block's height. -/
def demoteHeight (b : Block) : Statement where
  text := "UPDATE blocks SET canonical = FALSE WHERE number = $1 AND hash <> $2 AND canonical"
  params := [ofNat64 b.number, ofHash b.hash]

def insertBlock (b : Block) : Statement where
  text := "INSERT INTO blocks ( hash, number, parent_hash, timestamp, miner,
    gas_used, gas_limit, base_fee_per_gas, canonical, indexed_at )
    VALUES ($1, $2, $3, $4, $5, $6, $7, $8::NUMERIC, TRUE, NOW())
    ON CONFLICT (hash) DO UPDATE SET canonical = TRUE, indexed_at = EXCLUDED.indexed_at"
  params := [ofHash b.hash, ofNat64 b.number, ofHash b.parentHash, timestamp b.timestamp,
    ofAddress b.miner, ofNat64 b.gasUsed, ofNat64 b.gasLimit, opt ofWord b.baseFee]

def insertOmmer (b : Block) (position : Nat) (o : Ommer) : Statement where
  text := "INSERT INTO ommers (block_hash, position, hash, number, miner)
    VALUES ($1, $2, $3, $4, $5) ON CONFLICT (block_hash, position) DO NOTHING"
  params := [ofHash b.hash, ofNat32 position, ofHash o.hash, ofNat64 o.number, ofAddress o.miner]

def blockStatements (b : Block) : List Statement :=
  demoteHeight b :: insertBlock b :: b.ommers.zipIdx.map fun o => insertOmmer b o.2 o.1

/-- Writes an account; the earliest sighting and any destruction stay. -/
def insertAccount (a : Account) : Statement where
  text := "INSERT INTO accounts (address, first_seen_block, destroyed_block) VALUES ($1, $2, $3)
    ON CONFLICT (address) DO UPDATE SET
    first_seen_block = LEAST(accounts.first_seen_block, EXCLUDED.first_seen_block),
    destroyed_block = COALESCE(EXCLUDED.destroyed_block, accounts.destroyed_block)"
  params := [ofAddress a.address, ofNat64 a.firstSeenBlock, opt ofNat64 a.destroyedBlock]

/-- Writes a transaction, which moves to its newest block. -/
def insertTransaction (number : Nat) (t : Transaction) : Statement where
  text := "INSERT INTO transactions ( hash, block_hash, block_number, index, sender, recipient,
    value, nonce, gas_price, gas_limit, input, v, r, s )
    VALUES ($1, $2, $3, $4, $5, $6, $7::NUMERIC, $8, $9::NUMERIC, $10, $11, $12,
    $13::NUMERIC, $14::NUMERIC)
    ON CONFLICT (hash) DO UPDATE SET block_hash = EXCLUDED.block_hash,
    block_number = EXCLUDED.block_number, index = EXCLUDED.index"
  params := [ofHash t.hash, ofHash t.blockHash, ofNat64 number, ofNat32 t.index, ofAddress t.sender,
    opt ofAddress t.recipient, ofWord t.value, ofNat64 t.nonce, ofWord t.gasPrice,
    ofNat64 t.gasLimit, bytes t.input, ofNat64 t.signature.v, ofWord t.signature.r,
    ofWord t.signature.s]

def insertReceipt (r : Receipt) : Statement where
  text := "INSERT INTO transaction_receipts ( transaction_hash, success, gas_used,
    cumulative_gas_used, effective_gas_price, contract_address, revert_reason )
    VALUES ($1, $2, $3, $4, $5::NUMERIC, $6, $7)
    ON CONFLICT (transaction_hash) DO UPDATE SET success = EXCLUDED.success,
    gas_used = EXCLUDED.gas_used, cumulative_gas_used = EXCLUDED.cumulative_gas_used,
    effective_gas_price = EXCLUDED.effective_gas_price,
    contract_address = EXCLUDED.contract_address, revert_reason = EXCLUDED.revert_reason"
  params := [ofHash r.txHash, bool r.success, ofNat64 r.gasUsed, ofNat64 r.cumulativeGasUsed,
    opt ofWord r.effectiveGasPrice, opt ofAddress r.contractAddress, opt text r.revertReason]

/-! ## What executions gave -/

/-- The tables whose rows belong to an execution of a transaction. -/
def derivedTables : List String :=
  ["internal_transactions", "contract_destructions", "token_transfers", "contract_events"]

def clearDerived : List Transaction → List Statement
  | [] => []
  | txs => derivedTables.map fun table =>
    ⟨"DELETE FROM " ++ table ++ " WHERE transaction_hash = ANY($1)",
      [bytesList (txs.map fun t => t.hash.toBytes)]⟩

def insertInternal (t : InternalTransaction) : Statement where
  text := "INSERT INTO internal_transactions (transaction_hash, pc, sender, recipient, amount)
    VALUES ($1, $2, $3, $4, $5::NUMERIC)
    ON CONFLICT (transaction_hash, pc) DO UPDATE SET sender = EXCLUDED.sender,
    recipient = EXCLUDED.recipient, amount = EXCLUDED.amount"
  params := [ofHash t.txHash, ofNat32 t.pc.toNat, ofAddress t.sender, ofAddress t.recipient,
    ofWord t.amount]

def ofCapabilities (c : Capabilities) : Value := int c.bits.toNat

def insertCreated (number : Nat) (c : ContractCreated) : Statement where
  text := "INSERT INTO contracts ( address, block_number, transaction_hash, pc, creator,
    endowment, code, code_hash, capabilities, contract_type )
    VALUES ($1, $2, $3, $4, $5, $6::NUMERIC, $7, $8, $9, $10)
    ON CONFLICT (address) DO UPDATE SET block_number = EXCLUDED.block_number,
    transaction_hash = EXCLUDED.transaction_hash, pc = EXCLUDED.pc, creator = EXCLUDED.creator,
    endowment = EXCLUDED.endowment, code = EXCLUDED.code, code_hash = EXCLUDED.code_hash,
    capabilities = EXCLUDED.capabilities, contract_type = EXCLUDED.contract_type"
  params := [ofAddress c.address, ofNat64 number, ofHash c.txHash, ofNat32 c.pc.toNat,
    ofAddress c.creator, ofWord c.amount, bytes c.code, ofHash (keccak256 c.code),
    ofCapabilities c.capabilities, text c.contractType.name]

/-- Writes a contract classified late, unless something is known of it. -/
def insertClassified (c : ClassifiedContract) : Statement where
  text := "INSERT INTO contracts (address, block_number, code_hash, capabilities, contract_type)
    VALUES ($1, $2, $3, $4, $5) ON CONFLICT (address) DO NOTHING"
  params := [ofAddress c.address, ofNat64 c.blockNumber, ofHash c.codeHash,
    ofCapabilities c.capabilities, text c.contractType.name]

def insertDestroyed (d : ContractDestroyed) : Statement where
  text := "INSERT INTO contract_destructions ( transaction_hash, pc, address, refund_address,
    refund_amount ) VALUES ($1, $2, $3, $4, $5::NUMERIC)
    ON CONFLICT (transaction_hash, pc) DO UPDATE SET address = EXCLUDED.address,
    refund_address = EXCLUDED.refund_address, refund_amount = EXCLUDED.refund_amount"
  params := [ofHash d.txHash, ofNat32 d.pc.toNat, ofAddress d.address, ofAddress d.refundAddress,
    ofWord d.refundAmount]

def insertArchive (rows : BlockRows) : Statement where
  text := "INSERT INTO block_traces (block_hash, archive) VALUES ($1, $2)
    ON CONFLICT (block_hash) DO UPDATE SET archive = EXCLUDED.archive"
  params := [ofHash rows.block.hash, bytes (Record.archiveFormat.encode (.ofRows rows))]

/-! ## Tokens -/

/-- The amount and the token of a movement: it has one of them. -/
def transferColumns : TransferValue → List Value
  | .fungible amount => [ofWord amount, null]
  | .nonFungible tokenId => [null, ofWord tokenId]

def insertTransfer (t : TokenTransfer) : Statement where
  text := "INSERT INTO token_transfers ( transaction_hash, log_index, contract, sender, recipient,
    amount, token_id ) VALUES ($1, $2, $3, $4, $5, $6::NUMERIC, $7::NUMERIC)
    ON CONFLICT (transaction_hash, log_index) DO UPDATE SET contract = EXCLUDED.contract,
    sender = EXCLUDED.sender, recipient = EXCLUDED.recipient, amount = EXCLUDED.amount,
    token_id = EXCLUDED.token_id"
  params := [ofHash t.txHash, ofNat32 t.logIndex.toNat, ofAddress t.contract, ofAddress t.sender,
    ofAddress t.recipient] ++ transferColumns t.value

def insertEvent (e : ContractEvent) : Statement where
  text := "INSERT INTO contract_events (transaction_hash, log_index, contract, topics, data,
    decoded) VALUES ($1, $2, $3, $4, $5, $6)
    ON CONFLICT (transaction_hash, log_index) DO UPDATE SET contract = EXCLUDED.contract,
    topics = EXCLUDED.topics, data = EXCLUDED.data, decoded = EXCLUDED.decoded"
  params := [ofHash e.txHash, ofNat32 e.logIndex.toNat, ofAddress e.contract,
    bytesList (e.topics.map Hash.toBytes), bytes e.data,
    opt (fun d => document (TokenEvent.toJson d)) e.decoded]

/-! ## Rewards and balances -/

def insertReward (r : Reward) : Statement where
  text := "INSERT INTO rewards (block_hash, hash, beneficiary, amount, kind)
    VALUES ($1, $2, $3, $4::NUMERIC, $5) ON CONFLICT (block_hash, hash) DO NOTHING"
  params := [ofHash r.blockHash, ofHash r.hash, ofAddress r.beneficiary, ofWord r.amount,
    text r.kind.name]

def insertDelta (d : BalanceDelta) : Statement where
  text := "INSERT INTO balance_deltas ( block_hash, index, block_number, account, amount, reason,
    transaction_hash ) VALUES ($1, $2, $3, $4, $5::NUMERIC, $6, $7)
    ON CONFLICT (block_hash, index) DO NOTHING"
  params := [ofHash d.blockHash, ofNat32 d.index.toNat, ofNat64 d.blockNumber, ofAddress d.account,
    ofSigned d.amount, text d.reason.name, opt ofHash d.txHash]

/-! ## Progress -/

def demoteSiblings (id : BlockId) : Statement where
  text := "UPDATE import_queue SET canonical = FALSE, updated_at = NOW()
    WHERE number = $1 AND hash <> $2 AND canonical"
  params := [ofNat64 id.number, ofHash id.hash]

def insertEntry (e : ImportEntry) : Statement where
  text := "INSERT INTO import_queue (number, hash, status, attempts, canonical, last_error,
    updated_at) VALUES ($1, $2, $3, $4, $5, $6, $7)
    ON CONFLICT (number, hash) DO UPDATE SET status = EXCLUDED.status,
    attempts = EXCLUDED.attempts, canonical = EXCLUDED.canonical,
    last_error = EXCLUDED.last_error, updated_at = EXCLUDED.updated_at"
  params := [ofNat64 e.number, ofHash e.hash, text e.status.name, ofNat32 e.attempts,
    bool e.canonical, opt text e.lastError, timestamp e.updatedAt]

def insertCursor (c : Cursor) : Statement where
  text := "INSERT INTO indexer_cursor (chain_id, last_block, last_hash, updated_at)
    VALUES ($1, $2, $3, $4) ON CONFLICT (chain_id) DO UPDATE SET
    last_block = EXCLUDED.last_block, last_hash = EXCLUDED.last_hash,
    updated_at = EXCLUDED.updated_at"
  params := [ofNat64 c.chainId, ofNat64 c.lastBlock, ofHash c.lastHash, timestamp c.updatedAt]

/-! ## One block -/

def rowStatements (rows : BlockRows) : List Statement :=
  blockStatements rows.block ++
  rows.accounts.map insertAccount ++
  rows.block.transactions.map (insertTransaction rows.block.number) ++
  clearDerived rows.block.transactions ++
  rows.receipts.map insertReceipt ++
  rows.internal.map insertInternal ++
  rows.created.map (insertCreated rows.block.number) ++
  rows.classified.map insertClassified ++
  rows.destroyed.map insertDestroyed ++
  [insertArchive rows] ++
  rows.transfers.map insertTransfer ++
  rows.events.map insertEvent ++
  rows.rewards.map insertReward ++
  rows.deltas.map insertDelta ++
  [demoteSiblings rows.entry.id, insertEntry rows.entry, insertCursor rows.cursor]

end ChainIngest.Postgres
