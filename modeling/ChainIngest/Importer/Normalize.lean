import ChainIngest.Balance.Ledger
import ChainIngest.Importer.Entry
import ChainIngest.Importer.Node
import ChainIngest.Keccak
import ChainIngest.Token.Interpret
import ChainIngest.Trace.Extract
import ChainIngest.Trace.Revert
/-!
# The rows of a block

Everything that is stored about a block is worked out before anything is
written: receipts and traces are fetched, traces read, contracts classified,
logs read with their emitters' capabilities known, and balance changes computed
and checked.  Nothing here writes to the store.
-/

namespace ChainIngest.Importer

open Store (Table)

/-! ## Receipts -/

def receiptCountMismatch (block : Block) (count : Nat) : NodeError :=
  let txs := block.transactions.length
  .invalidResponse s!"block {block.number} has {txs} transactions but {count} receipts"

/-- Takes the last receipt of a transaction out of a list, with all others of the same
transaction. -/
def takeReceipt? (tx : Hash) (receipts : List Receipt) : Option (Receipt × List Receipt) :=
  match receipts.reverse.find? fun r => r.txHash = tx with
  | some r => some (r, receipts.filter fun r => r.txHash ≠ tx)
  | none => none

/-- One receipt for each transaction hash, in that order. -/
def receiptsFor : List Hash → List Receipt → Except NodeError (List Receipt)
  | [], _ => .ok []
  | tx :: txs, receipts =>
    match takeReceipt? tx receipts with
    | none => .error (.invalidResponse s!"missing receipt for {tx}")
    | some (r, rest) => (receiptsFor txs rest).map (r :: ·)

/-- The receipts in the order of the block's transactions; refused unless there is exactly one
for each. -/
def alignReceipts (block : Block) (receipts : List Receipt) : Except NodeError (List Receipt) :=
  if receipts.length ≠ block.transactions.length then
    .error (receiptCountMismatch block receipts.length)
  else receiptsFor (block.transactions.map Transaction.hash) receipts

/-! ## Traces -/

/-- The receipt with the reason of its failure, where the receipt does not tell and the trace
does. -/
def explain (receipt : Receipt) (t : CallTrace) : Receipt :=
  if !receipt.success && receipt.revertReason.isNone then
    { receipt with revertReason := Trace.revertReason? t }
  else receipt

/-- The rows of all traces, in the order of the transactions. -/
def extractAll : List Hash → List CallTrace → Except IngestError Trace.Output
  | tx :: txs, t :: ts =>
    match Trace.extract tx t with
    | .error fault => .error (.malformedTrace tx fault.message)
    | .ok rows => (extractAll txs ts).map rows.append
  | _, _ => .ok .empty

/-! ## Contracts -/

abbrev KnownContracts := Table Address Capabilities

/-- Gives every created contract its code and its capabilities, asking for the code where the
trace has none. -/
def classifyCreated (c : Config) (number : Nat) : List ContractCreated → KnownContracts →
    Step (List ContractCreated × KnownContracts)
  | [], known => return ([], known)
  | created :: rest, known => do
    let code ←
      if created.code.isEmpty then callNode c (.code created.address number)
      else pure created.code
    let found ← Step.request (.classify code)
    let row :=
      { created with code := code, capabilities := found, contractType := found.contractType }
    let (rows, known) ← classifyCreated c number rest (known.insert created.address found)
    return (row :: rows, known)

/-- The emitters of transfer logs, in address order. -/
def transferEmitters (receipts : List Receipt) : List Address :=
  let logs := (receipts.flatMap Receipt.logs).filter Token.isTransfer
  let emitters : Table Address Unit := logs.foldl (fun t l => t.insert l.address ()) .empty
  emitters.entries.map Prod.fst

/-- Looks up every emitter that is not known yet in the store, and classifies by its code what
the store does not know either. -/
def classifyEmitters (c : Config) (number : Nat) : List Address → KnownContracts →
    Step (List ClassifiedContract × KnownContracts)
  | [], known => return ([], known)
  | contract :: rest, known => do
    if (known.get? contract).isSome then classifyEmitters c number rest known
    else
      match ← Step.store (.capabilities contract) with
      | some found => classifyEmitters c number rest (known.insert contract found)
      | none =>
        let code ← callNode c (.code contract number)
        let found ← Step.request (.classify code)
        let row : ClassifiedContract :=
          ⟨contract, keccak256 code, found, found.contractType, number⟩
        let (rows, known) ← classifyEmitters c number rest (known.insert contract found)
        return (row :: rows, known)

/-! ## Logs -/

def interpretAll (receipts : List Receipt) (known : Token.Known) : Token.Rows :=
  let rows := receipts.map fun r => Token.interpret r.txHash r.logs known
  ⟨rows.flatMap Token.Rows.transfers, rows.flatMap Token.Rows.events⟩

/-! ## Accounts -/

/-- Every address that a block's rows mention, repetitions included. -/
def mentioned (input : Balance.Input) (deltas : List BalanceDelta) : List Address :=
  input.executions.flatMap (fun e =>
      e.1.sender :: (e.1.recipient.toList ++ e.2.contractAddress.toList)) ++
    input.internal.flatMap (fun t => [t.sender, t.recipient]) ++
    input.created.flatMap (fun c => [c.creator, c.address]) ++
    input.destroyed.map ContractDestroyed.refundAddress ++
    deltas.map BalanceDelta.account

/-- The account rows of a block, in address order: every account mentioned was seen at this
height, and the destroyed ones are marked with it. -/
def accountRows (input : Balance.Input) (deltas : List BalanceDelta) : List Account :=
  let number := input.block.number
  let seen : Table Address Account :=
    (mentioned input deltas).foldl (fun t a => t.insertNew a ⟨a, number, none⟩) .empty
  let marked := input.destroyed.foldl
    (fun t d => t.alter d.address fun old =>
      { old.getD ⟨d.address, number, none⟩ with destroyedBlock := some number }) seen
  marked.rows

/-! ## Everything -/

def fetchTraces (c : Config) : List Hash → Step (List CallTrace)
  | [] => return []
  | tx :: txs => do
    let t ← callNode c (.trace tx)
    let ts ← fetchTraces c txs
    return t :: ts

def assemble (c : Config) (input : Balance.Input) (sheet : Balance.Sheet)
    (classified : List ClassifiedContract) (logRows : Token.Rows) (committed : ImportEntry)
    (now : Int) : BlockRows where
  block := input.block
  receipts := input.receipts
  internal := input.internal
  created := input.created
  destroyed := input.destroyed
  classified := classified
  transfers := logRows.transfers
  events := logRows.events
  rewards := sheet.rewards
  deltas := sheet.deltas
  accounts := accountRows input sheet.deltas
  entry := committed
  cursor := ⟨c.chainId, input.block.number, input.block.hash, now⟩

def normalize (c : Config) (block : Block) (entry : ImportEntry) : Step BlockRows := do
  let fetched ← callNode c (.receipts block.hash)
  let aligned ← Step.ofExcept ((alignReceipts block fetched).mapError .node)
  let txs := block.transactions.map Transaction.hash
  let traces ← fetchTraces c txs
  let extracted ← Step.ofExcept (extractAll txs traces)
  let receipts := List.zipWith explain aligned traces
  let (created, known) ← classifyCreated c block.number extracted.created .empty
  let (classified, known) ← classifyEmitters c block.number (transferEmitters receipts) known
  let logRows := interpretAll receipts known.get?
  let input : Balance.Input := ⟨block, receipts, extracted.internal, created, extracted.destroyed⟩
  let sheet := Balance.compute input c.schedule
  Step.ofExcept sheet.verify
  let now ← Step.request .now
  let committed ← Step.ofExcept (advance entry .committed none now)
  return assemble c input sheet classified logRows committed now

end ChainIngest.Importer
