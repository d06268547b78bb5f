import ChainIngest.Record.Codec
import ChainIngest.Scripted.Fixture
/-!
# Row fixtures

Fixtures for the rows that a store keeps and for all rows of a block together.
-/

namespace ChainIngest.Scripted.Fixture

def readInternal (j : Json) : Read InternalTransaction := do
  return ⟨← readHash (member j "tx"), ← readU32 (member j "pc"), ← readParty (member j "from"),
    ← readParty (member j "to"), ← readWord (member j "amount")⟩

/-- A token standard; by default the one that a capability set amounts to. -/
def readContractType (found : Capabilities) (j : Json) : Read ContractType :=
  orDefault found.contractType
    (fun j => do require "contract type" (ContractType.ofName? (← readStr j))) j

def readCreated (j : Json) : Read ContractCreated := do
  let found ← readCapabilities (member j "capabilities")
  return ⟨← readHash (member j "tx"), ← readU32 (member j "pc"), ← readParty (member j "creator"),
    ← readParty (member j "address"), ← readBytes (member j "code"),
    ← readWord (member j "amount"), found, ← readContractType found (member j "contract_type")⟩

def readDestroyed (j : Json) : Read ContractDestroyed := do
  return ⟨← readHash (member j "tx"), ← readU32 (member j "pc"), ← readParty (member j "address"),
    ← readParty (member j "refund_address"), ← readWord (member j "refund_amount")⟩

def readClassified (j : Json) : Read ClassifiedContract := do
  let found ← readCapabilities (member j "capabilities")
  return ⟨← readParty (member j "address"), ← readHash (member j "code_hash"), found,
    ← readContractType found (member j "contract_type"), ← readNat (member j "block_number")⟩

def readReward (j : Json) : Read Reward := do
  return ⟨← readHash (member j "block_hash"), ← readHash (member j "hash"),
    ← readParty (member j "beneficiary"), ← readWord (member j "amount"),
    ← require "reward kind" (RewardKind.ofName? (← orDefault "block" readStr (member j "kind")))⟩

def readArchive (j : Json) : Read Record.Archive := do
  return ⟨← readHash (member j "block_hash"), ← listOf readInternal (member j "internal"),
    ← listOf readCreated (member j "created"), ← listOf readDestroyed (member j "destroyed"),
    ← listOf readReward (member j "rewards")⟩

def readTransfer (j : Json) : Read TokenTransfer := do
  let value ← match member j "token_id" with
    | .null => TransferValue.fungible <$> readWord (member j "amount")
    | id => TransferValue.nonFungible <$> readWord id
  return ⟨← readHash (member j "tx"), ← readU32 (member j "log_index"),
    ← readParty (member j "contract"), ← readParty (member j "from"), ← readParty (member j "to"),
    value⟩

def readTokenEvent (j : Json) : Read TokenEvent := do
  let address (name : String) : Read Address := readAddress (member j name)
  let word (name : String) : Read Word := readWord (member j name)
  let bytes (name : String) : Read Bytes := readBytes (member j name)
  match ← readStr (member j "event") with
  | "fungible_approval" =>
    return .fungibleApproval (← address "owner") (← address "spender") (← word "value")
  | "non_fungible_approval" =>
    return .nonFungibleApproval (← address "owner") (← address "approved") (← word "token_id")
  | "approval_for_all" =>
    return .approvalForAll (← address "owner") (← address "operator")
      (← readBool false (member j "approved"))
  | "sent" =>
    return .sent (← address "operator") (← address "from") (← address "to") (← word "amount")
      (← bytes "data") (← bytes "operator_data")
  | "minted" =>
    return .minted (← address "operator") (← address "to") (← word "amount") (← bytes "data")
      (← bytes "operator_data")
  | "burned" =>
    return .burned (← address "operator") (← address "from") (← word "amount") (← bytes "data")
      (← bytes "operator_data")
  | "authorized_operator" => return .authorizedOperator (← address "operator") (← address "holder")
  | "revoked_operator" => return .revokedOperator (← address "operator") (← address "holder")
  | "transfer_single" =>
    return .transferSingle (← address "operator") (← address "from") (← address "to") (← word "id")
      (← word "value")
  | "transfer_batch" =>
    return .transferBatch (← address "operator") (← address "from") (← address "to")
      (← listOf readWord (member j "ids")) (← listOf readWord (member j "values"))
  | "uri" => return .uri (← word "id") (← readStr (member j "value"))
  | _ => refuse "token event"

def readEvent (j : Json) : Read ContractEvent := do
  return ⟨← readHash (member j "tx"), ← readU32 (member j "log_index"),
    ← readParty (member j "contract"), ← listOf readHash (member j "topics"),
    ← readBytes (member j "data"), ← optional readTokenEvent (member j "decoded")⟩

/-- A balance change of a block, by default numbered by its position. -/
def readDelta (block : Block) (position : Nat) (j : Json) : Read BalanceDelta := do
  return {
    blockHash := ← orDefault block.hash readHash (member j "block_hash")
    blockNumber := block.number
    index := UInt32.ofNat (← orDefault position readNat (member j "index"))
    account := ← readParty (member j "account")
    amount := ← readSigned (member j "amount")
    reason := ← require "reason"
      (DeltaReason.ofName? (← orDefault "transfer" readStr (member j "reason")))
    txHash := ← optional readHash (member j "tx") }

def readAccount (j : Json) : Read Account := do
  return ⟨← readParty (member j "address"), ← readNat (member j "first_seen_block"),
    ← optional readNat (member j "destroyed_block")⟩

def readStatus (j : Json) : Read ImportStatus := do
  require "status" (ImportStatus.ofName? (← readStr j))

/-- An import row, pending by default; the block's name may be left to the surroundings. -/
def readEntry (block : BlockId) (j : Json) : Read ImportEntry := do
  return {
    number := ← orDefault block.number readNat (member j "number")
    hash := ← orDefault block.hash readHash (member j "hash")
    status := ← orDefault .pending readStatus (member j "status")
    attempts := ← readNat (member j "attempts")
    canonical := ← readBool true (member j "canonical")
    lastError := ← optional readStr (member j "last_error")
    updatedAt := ← readInt (member j "updated_at") }

def readFreeEntry (j : Json) : Read ImportEntry := readEntry ⟨0, .zero⟩ j

/-- All rows of a block; committed at the first attempt by default. -/
def readRows (j : Json) : Read BlockRows := do
  let block ← readBlock (member j "block")
  let stamp ← readInt (member j "updated_at")
  let deltas ← readArr (member j "deltas")
  return {
    block := block
    receipts := ← listOf (readReceipt 0) (member j "receipts")
    internal := ← listOf readInternal (member j "internal")
    created := ← listOf readCreated (member j "created")
    destroyed := ← listOf readDestroyed (member j "destroyed")
    classified := ← listOf readClassified (member j "classified")
    transfers := ← listOf readTransfer (member j "transfers")
    events := ← listOf readEvent (member j "events")
    rewards := ← listOf readReward (member j "rewards")
    deltas := ← deltas.zipIdx.mapM fun d => readDelta block d.2 d.1
    accounts := ← listOf readAccount (member j "accounts")
    entry := ← orDefault ⟨block.number, block.hash, .committed, 1, true, none, stamp⟩
      (readEntry block.id) (member j "import")
    cursor := ⟨← orDefault 1 readNat (member j "chain_id"), block.number, block.hash, stamp⟩ }

end ChainIngest.Scripted.Fixture
