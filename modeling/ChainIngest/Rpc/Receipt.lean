import ChainIngest.Block
import ChainIngest.Rpc.Wire
/-!
# Receipts on the wire
-/

namespace ChainIngest.Rpc

open Wire

def logOfJson? (j : Json) : Option Log := do
  let f ← Fields.of? ["address", "topics", "data", "logIndex"] j
  return {
    address := ← f.required "address" address?
    topics := ← f.required "topics" (list? hash?)
    data := ← f.required "data" bytes?
    index := clampIndex (← f.required "logIndex" quantity?) }

def receiptNames : List String :=
  ["transactionHash", "status", "gasUsed", "cumulativeGasUsed", "effectiveGasPrice",
    "contractAddress", "logs"]

/-- Reads a receipt.  Early receipts have no status; they count as successful. -/
def receiptOfJson? (j : Json) : Option Receipt := do
  let f ← Fields.of? receiptNames j
  return {
    txHash := ← f.required "transactionHash" hash?
    success := ((← f.optional "status" quantity?).map fun status => status != 0).getD true
    gasUsed := ← f.required "gasUsed" quantity?
    cumulativeGasUsed := ← f.required "cumulativeGasUsed" quantity?
    effectiveGasPrice := ← f.optional "effectiveGasPrice" word?
    contractAddress := ← f.optional "contractAddress" address?
    revertReason := none
    logs := ← f.orElse "logs" [] (list? logOfJson?) }

end ChainIngest.Rpc
