import ChainIngest.Scripted.Blocks
import ChainIngest.Scripted.Fixture
/-!
# Declared blocks

A fixture declares the blocks that a scripted node can serve, each under a name:
single blocks, or runs of linked blocks that are filled alike.
-/

namespace ChainIngest.Scripted

open Fixture

/-- Blocks by name, in the order of their declaration. -/
abbrev Cast := List (String × ServedBlock)

namespace Cast

def find? (cast : Cast) (name : String) : Option ServedBlock :=
  (List.find? (fun d => d.1 = name) cast).map Prod.snd

def readDeclaredTx (cast : Cast) (j : Json) : Read Transaction := do
  match ← readArr j with
  | [block, index] => do
    let b ← require "block" (cast.find? (← readStr block))
    require "transaction" b.block.transactions[(← readNat index)]?
  | _ => refuse "declared transaction"

def readBlockHash (cast : Cast) (j : Json) : Read Hash :=
  match j.string?.bind cast.find? with
  | some b => .ok b.block.hash
  | none => readHash j

def readTxHash (cast : Cast) (j : Json) : Read Hash :=
  match j.field? "tx" with
  | some declared => Transaction.hash <$> readDeclaredTx cast declared
  | none => readHash j

def addTx (cast : Cast) (b : ServedBlock) (j : Json) : Read ServedBlock := do
  match j.field? "transfer" with
  | some parts =>
    match ← readArr parts with
    | [sender, recipient, value] =>
      return b.addTransfer (← readAddress sender) (← readAddress recipient) (← readWord value)
    | _ => refuse "transfer"
  | none =>
    let tx ← match j.field? "same_as" with
      | some same => readDeclaredTx cast same
      | none => do
        let tx := b.transaction (← readParty (member j "from"))
          (← optional readAddress (member j "to")) (← readWord (member j "value"))
        pure { tx with
          gasPrice := ← orDefault 1 readWord (member j "gas_price")
          hash := ← orDefault tx.hash readHash (member j "hash") }
    let receipt ← readReceipt transferGas (member j "receipt")
    let trace ← match j.field? "trace" with
      | some frames => Prod.fst <$> readFrames frames
      | none => pure (ServedBlock.plainTrace tx receipt)
    return b.addTransaction tx receipt trace

def garble (b : ServedBlock) (j : Json) : Read ServedBlock :=
  match j with
  | .null => .ok b
  | .str "reverse" => .ok (b.garbleReceipts .reverse)
  | .str "drop_last" => .ok (b.garbleReceipts .dropLast)
  | .str "repeat_first" => .ok (b.garbleReceipts .repeatFirst)
  | .str "extra" => .ok (b.garbleReceipts .extra)
  | _ => refuse "receipts"

def fill (cast : Cast) (b : ServedBlock) (j : Json) : Read ServedBlock := do
  let header := { b.block with
    hash := ← orDefault b.block.hash readHash (member j "hash")
    miner := ← orDefault b.block.miner readAddress (member j "miner")
    timestamp := ← orDefault b.block.timestamp readInt (member j "timestamp")
    baseFee := ← optional readWord (member j "base_fee")
    ommers := ← listOf readOmmer (member j "ommers") }
  let filled ← (← readArr (member j "txs")).foldlM (addTx cast) { b with block := header }
  let filled := if (member j "traces").isNull then filled else filled.dropLastTrace
  garble filled (member j "receipts")

def declareRun (name : String) (branch : UInt8) (j : Json) : (count : Nat) → (number : Nat) →
    (parent : Hash) → Cast → Read Cast
  | 0, _, _, cast => .ok cast
  | count + 1, number, parent, cast => do
    let b ← cast.fill (.new number parent branch) j
    declareRun name branch j count (number + 1) b.block.hash (cast ++ [(name ++ toString number, b)])

def declare (cast : Cast) (j : Json) : Read Cast := do
  let number ← orDefault 1 readNat (member j "number")
  let branch := UInt8.ofNat (← orDefault 1 readNat (member j "fork"))
  let parent ← cast.readBlockHash (member j "parent")
  match j.field? "chain" with
  | some name => declareRun (← readStr name) branch j (← readNat (member j "count")) number parent cast
  | none =>
    let b ← cast.fill (.new number parent branch) j
    return cast ++ [(← readStr (member j "id"), b)]

def read (j : Json) : Read Cast := do
  (← readArr j).foldlM declare []

end Cast

end ChainIngest.Scripted
