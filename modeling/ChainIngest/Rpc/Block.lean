import ChainIngest.Block
import ChainIngest.Calendar
import ChainIngest.Error
import ChainIngest.Rpc.Wire
/-!
# Blocks on the wire

A node serves a block with its transactions but only with the hashes of its
ommers, whose headers are asked for one by one.  The block is complete once they
are there; its transactions take their hash and position from it.
-/

namespace ChainIngest.Rpc

open Wire

/-! ## Transactions -/

structure ServedTransaction where
  hash : Hash
  /-- Position in the block, where the node tells it. -/
  index : Option Nat
  sender : Address
  /-- The recipient; none for a contract creation. -/
  recipient : Option Address
  value : Word
  nonce : Nat
  gasPrice : Option Word
  maxFee : Option Word
  gas : Nat
  input : Bytes
  v : Option Nat
  /-- Parity of the signature's point, in newer transactions. -/
  yParity : Option Nat
  r : Word
  s : Word
deriving DecidableEq, Inhabited

namespace ServedTransaction

def names : List String :=
  ["hash", "transactionIndex", "from", "to", "value", "nonce", "gasPrice", "maxFeePerGas", "gas",
    "input", "v", "yParity", "r", "s"]

def ofJson? (j : Json) : Option ServedTransaction := do
  let f ← Fields.of? names j
  return {
    hash := ← f.required "hash" hash?
    index := ← f.optional "transactionIndex" quantity?
    sender := ← f.required "from" address?
    recipient := ← f.optional "to" address?
    value := ← f.required "value" word?
    nonce := ← f.required "nonce" quantity?
    gasPrice := ← f.optional "gasPrice" word?
    maxFee := ← f.optional "maxFeePerGas" word?
    gas := ← f.required "gas" quantity?
    input := ← f.required "input" bytes?
    v := ← f.optional "v" quantity?
    yParity := ← f.optional "yParity" quantity?
    r := ← f.orElse "r" 0 word?
    s := ← f.orElse "s" 0 word? }

/-- The transaction in its block.  The price paid goes before the highest price offered. -/
def inBlock (t : ServedTransaction) (block : Hash) (position : Nat) : Transaction where
  hash := t.hash
  blockHash := block
  index := (t.index.map fun i => min i (2 ^ 32 - 1)).getD position
  sender := t.sender
  recipient := t.recipient
  value := t.value
  nonce := t.nonce
  gasPrice := (t.gasPrice <|> t.maxFee).getD 0
  gasLimit := t.gas
  input := t.input
  signature := ⟨(t.v <|> t.yParity).getD 0, t.r, t.s⟩

end ServedTransaction

/-! ## Ommers -/

def ommerOfJson? (j : Json) : Option Ommer := do
  let f ← Fields.of? ["number", "hash", "miner"] j
  return {
    number := ← f.required "number" quantity?
    hash := ← f.required "hash" hash?
    miner := ← f.required "miner" address? }

/-! ## Blocks -/

structure ServedBlock where
  number : Nat
  hash : Hash
  parentHash : Hash
  timestamp : Nat
  miner : Address
  gasUsed : Nat
  gasLimit : Nat
  baseFee : Option Word
  ommers : List Hash
  transactions : List ServedTransaction
deriving DecidableEq, Inhabited

namespace ServedBlock

def names : List String :=
  ["number", "hash", "parentHash", "timestamp", "miner", "gasUsed", "gasLimit", "baseFeePerGas",
    "uncles", "transactions"]

def ofJson? (j : Json) : Option ServedBlock := do
  let f ← Fields.of? names j
  return {
    number := ← f.required "number" quantity?
    hash := ← f.required "hash" hash?
    parentHash := ← f.required "parentHash" hash?
    timestamp := ← f.required "timestamp" quantity?
    miner := ← f.required "miner" address?
    gasUsed := ← f.required "gasUsed" quantity?
    gasLimit := ← f.required "gasLimit" quantity?
    baseFee := ← f.optional "baseFeePerGas" word?
    ommers := ← f.orElse "uncles" [] (list? hash?)
    transactions := ← f.orElse "transactions" [] (list? ServedTransaction.ofJson?) }

/-- Sixty-four bits read in two's complement. -/
def signedSeconds (timestamp : Nat) : Int := (BitVec.ofNat 64 timestamp).toInt

/-- The block with the headers of its ommers.  Its time must be one that the calendar knows. -/
def withOmmers (b : ServedBlock) (ommers : List Ommer) : Except NodeError Block :=
  let seconds := signedSeconds b.timestamp
  if Calendar.covers seconds then
    .ok {
      number := b.number
      hash := b.hash
      parentHash := b.parentHash
      timestamp := seconds
      miner := b.miner
      gasUsed := b.gasUsed
      gasLimit := b.gasLimit
      baseFee := b.baseFee
      ommers := ommers
      transactions := b.transactions.mapIdx fun position t => t.inBlock b.hash position }
  else
    .error (.invalidResponse s!"block {b.number} has an out-of-range timestamp {b.timestamp}")

end ServedBlock

end ChainIngest.Rpc
