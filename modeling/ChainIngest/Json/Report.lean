import ChainIngest.Balance.Ledger
import ChainIngest.Capability.Detect
import ChainIngest.Importer.Entry
import ChainIngest.Importer.Import
import ChainIngest.Json.Encode
/-!
# Results and errors as JSON

Errors by the label of their cause, with their words and whether a fresh attempt
may help, and the results of larger pieces of work.
-/

namespace ChainIngest

/-! ## Errors -/

namespace Json

def error (label message : String) : Json := .obj [("error", .str label), ("message", .str message)]

def fault (label message : String) (transient : Bool) : Json :=
  .obj [("error", .str label), ("message", .str message), ("transient", .bool transient)]

end Json

def StoreFault.label : StoreFault → String
  | connection => "ConnectionError"
  | query => "QueryError"
  | notFound => "NotFound"
  | migration => "MigrationError"
  | transaction => "TransactionError"
  | serialization => "SerializationError"
  | conflict => "WriteConflict"

def StoreFault.all : List StoreFault :=
  [connection, query, notFound, migration, transaction, serialization, conflict]

def StoreFault.ofLabel? (text : String) : Option StoreFault := all.find? fun f => f.label = text

def NodeError.label : NodeError → String
  | unavailable _ => "Unavailable"
  | notFound _ => "NotFound"
  | invalidResponse _ => "InvalidResponse"
  | timeout _ _ => "Timeout"

/-- The label of an error; that of a block given up for good tells the cause. -/
def IngestError.label : IngestError → String
  | malformedTrace _ _ => "Extraction.MalformedTrace"
  | store e => "Storage." ++ e.fault.label
  | node e => "Node." ++ e.label
  | record _ => "Codec"
  | conservation _ _ _ => "ConservationViolated"
  | reorgTooDeep _ _ _ => "ReorgTooDeep"
  | fatal _ _ cause => "Fatal(" ++ cause.label ++ ")"
  | chainMismatch _ _ => "ChainMismatch"
  | config _ => "ConfigError"
  | shutdown => "ShutdownRequested"
  | internal _ => "Internal"

def StoreError.toJson (e : StoreError) : Json := .fault e.fault.label e.message e.isTransient

def NodeError.toJson (e : NodeError) : Json := .fault e.label e.message e.isTransient

def IngestError.toJson (e : IngestError) : Json := .fault e.label e.message e.isTransient

def Trace.Fault.toJson (tx : Hash) (f : Trace.Fault) : Json :=
  .error "MalformedTrace" (IngestError.traceMessage tx f.message)

def StoreError.orJson {α : Type} (f : α → Json) : Except StoreError α → Json
  | .ok a => f a
  | .error e => e.toJson

def NodeError.orJson {α : Type} (f : α → Json) : Except NodeError α → Json
  | .ok a => f a
  | .error e => e.toJson

/-! ## Results -/

def Capabilities.describe (c : Capabilities) : List (String × Json) :=
  [("bits", c.toJson), ("names", Json.list (fun m => .str (Capability.name m)) c.toList),
    ("display", .str c.text), ("type", .str c.contractType.name),
    ("non_fungible", .bool c.isNonFungible), ("empty", .bool c.isEmpty)]

def Balance.toJson (balances : List (Address × Word)) : Json :=
  Json.list (fun e => .arr [Address.toJson e.1, Word.toSignedJson e.2]) balances

def Balance.Sheet.toJson (s : Balance.Sheet) : Json :=
  let conservation := match s.verify with
    | .ok _ => .str "ok"
    | .error e => e.toJson
  .obj [("block", s.block.toJson), ("rewards", Json.list Reward.toJson s.rewards),
    ("deltas", Json.list BalanceDelta.toJson s.deltas), ("issuance", Word.toJson s.issuance),
    ("fees_burned", Word.toJson s.feesBurned), ("net", Balance.toJson s.net.entries),
    ("total", Word.toSignedJson s.total), ("expected_total", Word.toSignedJson s.expectedTotal),
    ("conservation", conservation)]

def Importer.Outcome.toJson : Importer.Outcome → Json
  | idle => .str "idle"
  | committed id => .obj [("committed", id.toJson)]
  | skipped id => .obj [("skipped", id.toJson)]
  | reorged ancestor depth =>
    .obj [("reorged", .obj [("ancestor", ancestor.toJson), ("depth", Json.nat depth)])]

def Importer.resultToJson : Except IngestError Importer.Outcome → Json
  | .ok o => o.toJson
  | .error e => e.toJson

end ChainIngest
