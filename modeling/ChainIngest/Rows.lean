import ChainIngest.Block
import ChainIngest.Capability.Basic
/-!
# Rows

What ingestion derives from a block: one type for each kind of row that the
store keeps, and the bundle of all rows of one block that is committed at once.
-/

namespace ChainIngest

/-! ## From traces -/

/-- Value moved inside a transaction. -/
structure InternalTransaction where
  txHash : Hash
  /-- The originating frame's number in visiting order; the root is 0. -/
  pc : UInt32
  sender : Address
  recipient : Address
  amount : Word
deriving DecidableEq, Inhabited

structure ContractCreated where
  txHash : Hash
  /-- The creating frame's number in visiting order. -/
  pc : UInt32
  creator : Address
  address : Address
  /-- Deployed code; empty if the trace does not carry it. -/
  code : Bytes
  amount : Word
  capabilities : Capabilities
  contractType : ContractType
deriving DecidableEq, Inhabited

namespace ContractCreated

/-- Whether the transaction itself deployed the contract, so that the endowment is the
transaction's own value. -/
def isTopLevel (c : ContractCreated) : Bool := c.pc = 0

end ContractCreated

structure ContractDestroyed where
  txHash : Hash
  /-- The destroying frame's number in visiting order. -/
  pc : UInt32
  address : Address
  refundAddress : Address
  refundAmount : Word
deriving DecidableEq, Inhabited

/-- A contract classified late because its creation was never seen. -/
structure ClassifiedContract where
  address : Address
  codeHash : Hash
  capabilities : Capabilities
  contractType : ContractType
  blockNumber : Nat
deriving DecidableEq, Inhabited

/-! ## Rewards and balances -/

inductive RewardKind where
  | block
  | ommer
deriving DecidableEq, Inhabited

namespace RewardKind

def name : RewardKind → String
  | .block => "block"
  | .ommer => "ommer"

def ofName? : String → Option RewardKind
  | "block" => some .block
  | "ommer" => some .ommer
  | _ => none

end RewardKind

structure Reward where
  blockHash : Hash
  /-- The rewarded block: the paying block itself or one of its ommers. -/
  hash : Hash
  beneficiary : Address
  amount : Word
  kind : RewardKind
deriving DecidableEq, Inhabited

inductive DeltaReason where
  | blockReward
  | ommerReward
  | transfer
  | contractCreation
  | contractDestruction
  | internalTransfer
  | feePayment
  | feeReceipt
deriving DecidableEq, Inhabited

namespace DeltaReason

def all : List DeltaReason :=
  [.blockReward, .ommerReward, .transfer, .contractCreation, .contractDestruction,
   .internalTransfer, .feePayment, .feeReceipt]

def name : DeltaReason → String
  | .blockReward => "block_reward"
  | .ommerReward => "ommer_reward"
  | .transfer => "transfer"
  | .contractCreation => "contract_creation"
  | .contractDestruction => "contract_destruction"
  | .internalTransfer => "internal_transfer"
  | .feePayment => "fee_payment"
  | .feeReceipt => "fee_receipt"

def ofName? (text : String) : Option DeltaReason :=
  all.find? fun r => r.name = text

end DeltaReason

structure BalanceDelta where
  blockHash : Hash
  blockNumber : Nat
  index : UInt32
  account : Address
  /-- The change, read as a signed word. -/
  amount : Word
  reason : DeltaReason
  /-- The transaction that caused it, if one did. -/
  txHash : Option Hash
deriving DecidableEq, Inhabited

structure Account where
  address : Address
  /-- Lowest height at which it was seen, on any branch. -/
  firstSeenBlock : Nat
  destroyedBlock : Option Nat
deriving DecidableEq, Inhabited

/-! ## Tokens -/

inductive TransferValue where
  | fungible (amount : Word)
  | nonFungible (tokenId : Word)
deriving DecidableEq, Inhabited

structure TokenTransfer where
  txHash : Hash
  logIndex : UInt32
  contract : Address
  sender : Address
  recipient : Address
  value : TransferValue
deriving DecidableEq, Inhabited

/-- A standard token event other than a transfer. -/
inductive TokenEvent where
  | fungibleApproval (owner spender : Address) (value : Word)
  | nonFungibleApproval (owner approved : Address) (tokenId : Word)
  | approvalForAll (owner operator : Address) (approved : Bool)
  | sent (operator sender recipient : Address) (amount : Word) (data operatorData : Bytes)
  | minted (operator recipient : Address) (amount : Word) (data operatorData : Bytes)
  | burned (operator sender : Address) (amount : Word) (data operatorData : Bytes)
  | authorizedOperator (operator holder : Address)
  | revokedOperator (operator holder : Address)
  | transferSingle (operator sender recipient : Address) (id value : Word)
  | transferBatch (operator sender recipient : Address) (ids values : List Word)
  | uri (id : Word) (value : String)
deriving DecidableEq, Inhabited

structure ContractEvent where
  txHash : Hash
  logIndex : UInt32
  contract : Address
  topics : List Hash
  data : Bytes
  decoded : Option TokenEvent
deriving DecidableEq, Inhabited

/-! ## Import state -/

inductive ImportStatus where
  | pending
  | inProgress
  | committed
  | failed
deriving DecidableEq, Inhabited

namespace ImportStatus

def all : List ImportStatus := [.pending, .inProgress, .committed, .failed]

def name : ImportStatus → String
  | .pending => "pending"
  | .inProgress => "in_progress"
  | .committed => "committed"
  | .failed => "failed"

def ofName? (text : String) : Option ImportStatus :=
  all.find? fun s => s.name = text

/-- The permitted steps: pending to in progress, from there to committed or failed, and from
failed back to pending. -/
def canBecome : (current next : ImportStatus) → Bool
  | .pending, .inProgress => true
  | .inProgress, .committed => true
  | .inProgress, .failed => true
  | .failed, .pending => true
  | _, _ => false

end ImportStatus

/-- The queue row of one block. -/
structure ImportEntry where
  number : Nat
  hash : Hash
  status : ImportStatus
  attempts : Nat
  /-- Whether the block is not known to be off the canonical chain. -/
  canonical : Bool
  lastError : Option String
  updatedAt : Int
deriving DecidableEq, Inhabited

namespace ImportEntry

def pending (block : BlockId) (now : Int) : ImportEntry where
  number := block.number
  hash := block.hash
  status := .pending
  attempts := 0
  canonical := true
  lastError := none
  updatedAt := now

def id (e : ImportEntry) : BlockId := ⟨e.number, e.hash⟩

end ImportEntry

structure Cursor where
  chainId : Nat
  lastBlock : Nat
  lastHash : Hash
  updatedAt : Int
deriving DecidableEq, Inhabited

namespace Cursor

def head (c : Cursor) : BlockId := ⟨c.lastBlock, c.lastHash⟩

end Cursor

/-! ## One block -/

structure BlockRows where
  block : Block
  receipts : List Receipt
  internal : List InternalTransaction
  created : List ContractCreated
  destroyed : List ContractDestroyed
  classified : List ClassifiedContract
  transfers : List TokenTransfer
  events : List ContractEvent
  rewards : List Reward
  deltas : List BalanceDelta
  accounts : List Account
  entry : ImportEntry
  cursor : Cursor
deriving DecidableEq, Inhabited

end ChainIngest
