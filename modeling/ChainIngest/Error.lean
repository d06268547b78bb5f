import ChainIngest.Duration
import ChainIngest.Block
/-!
# Errors

Every way in which ingestion can fail, as a cause.  Each type has one function
that words it and one test that tells whether a fresh attempt may succeed: only
failures of the store and of the node ever do.
-/

namespace ChainIngest

/-! ## Store -/

inductive StoreFault where
  | connection
  | query
  | notFound
  | migration
  | transaction
  | serialization
  | conflict
deriving DecidableEq, Inhabited

namespace StoreFault

def title : StoreFault → String
  | .connection => "Database connection error"
  | .query => "Query execution error"
  | .notFound => "Record not found"
  | .migration => "Migration error"
  | .transaction => "Transaction error"
  | .serialization => "Serialization error"
  | .conflict => "Write conflict"

/-- Lost connections, broken transactions and conflicting writers may go away. -/
def isTransient : StoreFault → Bool
  | .connection | .transaction | .conflict => true
  | _ => false

end StoreFault

structure StoreError where
  fault : StoreFault
  detail : String
deriving DecidableEq, Inhabited

namespace StoreError

def message (e : StoreError) : String :=
  e.fault.title ++ ": " ++ e.detail

def isTransient (e : StoreError) : Bool := e.fault.isTransient

def unreadable (detail : String) : StoreError := ⟨.serialization, detail⟩

end StoreError

/-! ## Node -/

inductive NodeError where
  | unavailable (detail : String)
  | notFound (detail : String)
  | invalidResponse (detail : String)
  | timeout (operation : String) (after : Duration)
deriving DecidableEq, Inhabited

namespace NodeError

def message : NodeError → String
  | .unavailable detail => s!"Node unavailable: {detail}"
  | .notFound detail => s!"Not found on node: {detail}"
  | .invalidResponse detail => s!"Invalid node response: {detail}"
  | .timeout operation after => s!"Node call {operation} timed out after {after}"

/-- An unusable answer stays unusable; everything else may go away. -/
def isTransient : NodeError → Bool
  | .invalidResponse _ => false
  | _ => true

end NodeError

/-! ## Records -/

inductive RecordError where
  | empty
  | unexpectedTag (found expected : UInt8) (name : String)
  | malformed
deriving DecidableEq, Inhabited

namespace RecordError

def tagText (tag : UInt8) : String := Bytes.toHex [tag]

def message : RecordError → String
  | .empty => "Empty record buffer"
  | .unexpectedTag found expected name =>
    "Unexpected record tag " ++ tagText found ++ ", expected " ++ tagText expected ++
      " (" ++ name ++ ")"
  | .malformed => "Malformed record"

end RecordError

/-! ## Ingestion -/

inductive IngestError where
  | malformedTrace (txHash : Hash) (reason : String)
  | store (e : StoreError)
  | node (e : NodeError)
  | record (e : RecordError)
  /-- The deltas of a block do not add up to issuance less burned fees. -/
  | conservation (block : BlockId) (expected actual : Word)
  /-- The common ancestor lies below the permitted depth. -/
  | reorgTooDeep (block : BlockId) (depth limit : Nat)
  | fatal (block : BlockId) (attempts : Nat) (cause : IngestError)
  /-- The node, the configuration and the store do not speak of one chain. -/
  | chainMismatch (connected expected : Nat)
  | config (detail : String)
  | shutdown
  | internal (detail : String)
deriving DecidableEq, Inhabited

namespace IngestError

/-- The error in words, without the words of the layer it belongs to. -/
def traceMessage (txHash : Hash) (reason : String) : String :=
  s!"Malformed trace for transaction {txHash}: {reason}"

def message : IngestError → String
  | .malformedTrace txHash reason => "Extraction error: " ++ traceMessage txHash reason
  | .store e => "Storage error: " ++ e.message
  | .node e => "Node error: " ++ e.message
  | .record e => "Codec error: " ++ e.message
  | .conservation block expected actual =>
    s!"Balance conservation violated in block {block.number} ({block.hash}): expected " ++
      Word.signedText expected ++ ", got " ++ Word.signedText actual
  | .reorgTooDeep block depth limit =>
    s!"Reorg at block {block.number} ({block.hash}) exceeds {depth} blocks (max {limit})"
  | .fatal block attempts cause =>
    s!"Block {block.number} ({block.hash}) failed after {attempts} attempt(s): " ++ cause.message
  | .chainMismatch connected expected =>
    s!"Chain mismatch: connected to {connected} but database contains data for {expected}"
  | .config detail => "Configuration error: " ++ detail
  | .shutdown => "Indexer shutdown requested"
  | .internal detail => "Internal error: " ++ detail

def isTransient : IngestError → Bool
  | .store e => e.isTransient
  | .node e => e.isTransient
  | _ => false

def source : IngestError → Option String
  | .malformedTrace txHash reason => some (traceMessage txHash reason)
  | .store e => some e.message
  | .node e => some e.message
  | .record e => some e.message
  | .fatal _ _ cause => some cause.message
  | _ => none

end IngestError

end ChainIngest
