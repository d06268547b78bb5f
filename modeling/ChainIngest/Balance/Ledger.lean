import ChainIngest.Balance.Schedule
import ChainIngest.Error
import ChainIngest.Store.Table
/-!
# Balance changes

Every movement of value in a block becomes a debit and a credit, except that
rewards are credited out of nothing and the burned part of a fee is debited into
nothing.  So the changes of a block add up to what it issues less what it burns,
and a block whose changes do not is refused.

Amounts are words; a change is the same word read as a signed number, and sums
wrap.
-/

namespace ChainIngest.Balance

/-! ## Movements -/

structure Change where
  account : Address
  /-- The change, read as a signed word. -/
  amount : Word
  reason : DeltaReason
  /-- The transaction that caused it, if one did. -/
  txHash : Option Hash
deriving DecidableEq, Inhabited

def credit (account : Address) (amount : Word) (reason : DeltaReason) (tx : Option Hash) : Change :=
  ⟨account, amount, reason, tx⟩

def debit (account : Address) (amount : Word) (reason : DeltaReason) (tx : Option Hash) : Change :=
  ⟨account, -amount, reason, tx⟩

def transfer (sender recipient : Address) (amount : Word) (reason : DeltaReason)
    (tx : Option Hash) : List Change :=
  [debit sender amount reason tx, credit recipient amount reason tx]

/-! ## Fees -/

def price (tx : Transaction) (receipt : Receipt) : Word :=
  receipt.effectiveGasPrice.getD tx.gasPrice

def fee (tx : Transaction) (receipt : Receipt) : Word :=
  Word.satMul (BitVec.ofNat 256 receipt.gasUsed) (price tx receipt)

/-- What the miner receives of it: all, or what exceeds the base fee where there is one. -/
def tip (baseFee : Option Word) (tx : Transaction) (receipt : Receipt) : Word :=
  match baseFee with
  | some base =>
    Word.satMul (BitVec.ofNat 256 receipt.gasUsed) (Word.satSub (price tx receipt) base)
  | none => fee tx receipt

def burned (baseFee : Option Word) (tx : Transaction) (receipt : Receipt) : Word :=
  Word.satSub (fee tx receipt) (tip baseFee tx receipt)

/-! ## Sources of changes -/

/-- What the rows of a block tell about movements of value.  Receipts stand in the order of
the block's transactions. -/
structure Input where
  block : Block
  receipts : List Receipt
  internal : List InternalTransaction
  created : List ContractCreated
  destroyed : List ContractDestroyed
deriving DecidableEq, Inhabited

def Input.ofRows (rows : BlockRows) : Input :=
  ⟨rows.block, rows.receipts, rows.internal, rows.created, rows.destroyed⟩

def Input.executions (input : Input) : List (Transaction × Receipt) :=
  input.block.transactions.zip input.receipts

def rewardReason : RewardKind → DeltaReason
  | .block => .blockReward
  | .ommer => .ommerReward

def ofReward (r : Reward) : Change :=
  credit r.beneficiary r.amount (rewardReason r.kind) none

/-- Who receives a transaction's own value, and why: its recipient, or the contract that it
deployed; nobody if it failed. -/
def recipient? (tx : Transaction) (receipt : Receipt) : Option (Address × DeltaReason) :=
  if receipt.success then
    match tx.recipient with
    | some account => some (account, .transfer)
    | none => receipt.contractAddress.map fun account => (account, .contractCreation)
  else none

def ofExecution (block : Block) (execution : Transaction × Receipt) : List Change :=
  let (tx, receipt) := execution
  let cause := some tx.hash
  debit tx.sender (fee tx receipt) .feePayment cause ::
    credit block.miner (tip block.baseFee tx receipt) .feeReceipt cause ::
    match recipient? tx receipt with
    | some (account, reason) => transfer tx.sender account tx.value reason cause
    | none => []

def ofInternal (t : InternalTransaction) : List Change :=
  transfer t.sender t.recipient t.amount .internalTransfer (some t.txHash)

/-- The changes of a deployment; the endowment of a contract that the transaction itself
deployed is the transaction's own value. -/
def ofCreated (c : ContractCreated) : List Change :=
  if c.isTopLevel then []
  else transfer c.creator c.address c.amount .contractCreation (some c.txHash)

def ofDestroyed (d : ContractDestroyed) : List Change :=
  transfer d.address d.refundAddress d.refundAmount .contractDestruction (some d.txHash)

/-- All changes of a block, those of zero included. -/
def changes (input : Input) (paid : List Reward) : List Change :=
  paid.map ofReward ++
    input.executions.flatMap (ofExecution input.block) ++
    input.internal.flatMap ofInternal ++
    input.created.flatMap ofCreated ++
    input.destroyed.flatMap ofDestroyed

/-! ## The balance sheet of a block -/

def Change.toDelta (block : BlockId) (index : Nat) (c : Change) : BalanceDelta :=
  ⟨block.hash, block.number, UInt32.ofNat index, c.account, c.amount, c.reason, c.txHash⟩

def deltasOf (block : BlockId) (cs : List Change) : List BalanceDelta :=
  (cs.filter fun c => c.amount ≠ 0).mapIdx (Change.toDelta block)

structure Sheet where
  block : BlockId
  rewards : List Reward
  deltas : List BalanceDelta
  issuance : Word
  feesBurned : Word
deriving DecidableEq, Inhabited

def compute (input : Input) (schedule : Schedule) : Sheet :=
  let paid := rewards input.block schedule
  { block := input.block.id
    rewards := paid
    deltas := deltasOf input.block.id (changes input paid)
    issuance := paid.foldl (fun sum r => Word.satAdd sum r.amount) 0
    feesBurned := input.executions.foldl
      (fun sum e => Word.satAdd sum (burned input.block.baseFee e.1 e.2)) 0 }

namespace Sheet

def total (s : Sheet) : Word := s.deltas.foldl (fun sum d => sum + d.amount) 0

/-- The net change of every account that changes, in address order. -/
def net (s : Sheet) : Store.Table Address Word :=
  s.deltas.foldl (fun sums d => sums.alter d.account fun old => old.getD 0 + d.amount) .empty

def expectedTotal (s : Sheet) : Word := s.issuance - s.feesBurned

def verify (s : Sheet) : Except IngestError Unit :=
  if s.expectedTotal = s.total then .ok ()
  else .error (.conservation s.block s.expectedTotal s.total)

end Sheet

end ChainIngest.Balance
