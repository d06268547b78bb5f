import ChainIngest.Keccak
import ChainIngest.Scripted.Node
/-!
# Sample blocks

Blocks whose hashes follow from their height and a branch number, filled
transaction by transaction.
-/

namespace ChainIngest.Scripted

def transferGas : Nat := 21000

namespace ServedBlock

def new (number : Nat) (parentHash : Hash) (branch : UInt8) : ServedBlock where
  block := {
    number := number
    hash := keccakText s!"block-{branch}-{number}"
    parentHash := parentHash
    timestamp := 1600000000 + 12 * number
    miner := .ofBytes [branch]
    gasUsed := 0
    gasLimit := 30000000
    baseFee := none
    ommers := []
    transactions := [] }
  receipts := []
  traces := []

/-- The block with one more transaction, its receipt and its trace.  The parts that depend on
the block are filled in. -/
def addTransaction (b : ServedBlock) (tx : Transaction) (receipt : Receipt) (t : CallTrace) :
    ServedBlock :=
  let tx := { tx with index := b.block.transactions.length, blockHash := b.block.hash }
  let used := b.block.gasUsed + receipt.gasUsed
  let receipt := { receipt with txHash := tx.hash, cumulativeGasUsed := used }
  { block := { b.block with
      gasUsed := used
      transactions := b.block.transactions ++ [tx] }
    receipts := b.receipts ++ [receipt]
    traces := b.traces ++ [t] }

def transaction (b : ServedBlock) (sender : Address) (recipient : Option Address) (value : Word) :
    Transaction :=
  let index := b.block.transactions.length
  { hash := keccakText s!"tx-{b.block.hash}-{index}"
    blockHash := b.block.hash
    index := index
    sender := sender
    recipient := recipient
    value := value
    nonce := index
    gasPrice := 1
    gasLimit := 100000
    input := []
    signature := ⟨0, 0, 0⟩ }

def plainTrace (tx : Transaction) (receipt : Receipt) : CallTrace :=
  match tx.recipient with
  | some _ => .ofRoot (.plain .call tx.sender tx.recipient tx.value)
  | none => .ofRoot (.plain .create tx.sender receipt.contractAddress tx.value)

/-- The block with one more successful transfer that pays one unit for each unit of gas. -/
def addTransfer (b : ServedBlock) (sender recipient : Address) (value : Word) : ServedBlock :=
  let tx := b.transaction sender (some recipient) value
  let receipt := Receipt.plain tx.hash true transferGas
  b.addTransaction tx receipt (plainTrace tx receipt)

/-! ## Defects -/

inductive ReceiptDefect where
  | reverse
  | dropLast
  | repeatFirst
  | extra
deriving DecidableEq, Inhabited

def strayReceipt : Receipt := Receipt.plain (.ofBytes (List.replicate 32 0xee)) true 1

def garbleReceipts (b : ServedBlock) (defect : ReceiptDefect) : ServedBlock :=
  { b with receipts :=
      match defect with
      | .reverse => b.receipts.reverse
      | .dropLast => b.receipts.dropLast
      | .repeatFirst => b.receipts.dropLast ++ b.receipts.head?.toList
      | .extra => b.receipts ++ [strayReceipt] }

def dropLastTrace (b : ServedBlock) : ServedBlock := { b with traces := b.traces.dropLast }

end ServedBlock

end ChainIngest.Scripted
