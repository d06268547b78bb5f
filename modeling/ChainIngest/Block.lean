import ChainIngest.Word
/-!
# Blocks, transactions and receipts

The data a node serves about its chain.  A block is named by its number and its
hash together, since a number alone is not unique across forks.
-/

namespace ChainIngest

/-! ## Names of blocks -/

structure BlockId where
  number : Nat
  hash : Hash
deriving DecidableEq, Inhabited

namespace BlockId

def text (id : BlockId) : String :=
  s!"#{id.number} ({id.hash})"

instance : ToString BlockId := ⟨text⟩

end BlockId

inductive BlockRef where
  /-- The canonical block of a height. -/
  | number (n : Nat)
  /-- The block of a hash, canonical or not. -/
  | hash (h : Hash)
deriving DecidableEq, Inhabited

namespace BlockRef

def text : BlockRef → String
  | .number n => s!"#{n}"
  | .hash h => h.text

instance : ToString BlockRef := ⟨text⟩

end BlockRef

/-! ## Blocks -/

structure Ommer where
  hash : Hash
  number : Nat
  miner : Address
deriving DecidableEq, Inhabited

structure Signature where
  v : Nat
  r : Word
  s : Word
deriving DecidableEq, Inhabited

structure Transaction where
  hash : Hash
  blockHash : Hash
  /-- Position in the block, from zero. -/
  index : Nat
  sender : Address
  /-- The recipient; none for a contract creation. -/
  recipient : Option Address
  value : Word
  nonce : Nat
  gasPrice : Word
  gasLimit : Nat
  /-- Call data, or the creation code. -/
  input : Bytes
  signature : Signature
deriving DecidableEq, Inhabited

namespace Transaction

def isCreation (tx : Transaction) : Bool := tx.recipient.isNone

end Transaction

/-- A block with its transactions in full. -/
structure Block where
  number : Nat
  hash : Hash
  parentHash : Hash
  /-- Seconds since the start of 1970. -/
  timestamp : Int
  miner : Address
  gasUsed : Nat
  gasLimit : Nat
  baseFee : Option Word
  ommers : List Ommer
  transactions : List Transaction
deriving DecidableEq, Inhabited

namespace Block

def id (b : Block) : BlockId := ⟨b.number, b.hash⟩

end Block

/-! ## Receipts -/

structure Log where
  address : Address
  /-- Indexed words; the first is the event's signature hash. -/
  topics : List Hash
  data : Bytes
  index : UInt32
deriving DecidableEq, Inhabited

structure Receipt where
  txHash : Hash
  success : Bool
  gasUsed : Nat
  /-- Gas used by the block up to and including the transaction. -/
  cumulativeGasUsed : Nat
  /-- Price paid for a unit of gas, where the node tells it. -/
  effectiveGasPrice : Option Word
  contractAddress : Option Address
  /-- Why execution failed, where known. -/
  revertReason : Option String
  logs : List Log
deriving DecidableEq, Inhabited

namespace Receipt

def plain (txHash : Hash) (success : Bool) (gasUsed : Nat) : Receipt where
  txHash := txHash
  success := success
  gasUsed := gasUsed
  cumulativeGasUsed := gasUsed
  effectiveGasPrice := none
  contractAddress := none
  revertReason := none
  logs := []

end Receipt

end ChainIngest
