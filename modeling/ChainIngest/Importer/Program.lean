import ChainIngest.Dialogue
import ChainIngest.Error
import ChainIngest.Metrics
import ChainIngest.Rows
import ChainIngest.Trace.Basic
/-!
# Import programs

An importer is a dialogue with its surroundings: the node, the store, the detector
of capabilities, the clock, its own head.  A step is such a dialogue that can fail.
-/

namespace ChainIngest.Importer

/-! ## Requests -/

inductive NodeCall where
  | chainId
  | latestBlockNumber
  | block (which : BlockRef)
  | trace (tx : Hash)
  | receipts (block : Hash)
  | code (contract : Address) (number : Nat)
deriving DecidableEq, Inhabited

namespace NodeCall

abbrev Answer : NodeCall → Type
  | chainId => Nat
  | latestBlockNumber => Nat
  | block _ => Block
  | trace _ => CallTrace
  | receipts _ => List Receipt
  | code _ _ => Bytes

def operation : NodeCall → String
  | chainId => "chain_id"
  | latestBlockNumber => "latest_block_number"
  | block _ => "get_block"
  | trace _ => "get_trace"
  | receipts _ => "get_receipts"
  | code _ _ => "get_code"

end NodeCall

inductive StoreTask where
  | commit (rows : BlockRows)
  | importStatus (number : Nat)
  | recordStatus (entry : ImportEntry)
  | markReorg (ancestor : BlockId) (chainId : Nat)
  | canonicalBlock (number : Nat)
  | cursor (chainId : Nat)
  | anyCursor
  | capabilities (contract : Address)
deriving DecidableEq, Inhabited

namespace StoreTask

abbrev Answer : StoreTask → Type
  | commit _ => Unit
  | importStatus _ => Option ImportEntry
  | recordStatus _ => Unit
  | markReorg _ _ => Nat
  | canonicalBlock _ => Option BlockId
  | cursor _ => Option Cursor
  | anyCursor => Option Cursor
  | capabilities _ => Option Capabilities

def operation : StoreTask → String
  | commit _ => "commit_block"
  | importStatus _ => "get_import_status"
  | recordStatus _ => "record_import_status"
  | markReorg _ _ => "mark_reorg"
  | canonicalBlock _ => "canonical_block"
  | cursor _ => "get_cursor"
  | anyCursor => "get_any_cursor"
  | capabilities _ => "capabilities"

end StoreTask

inductive Request where
  /-- A question to the node, waiting no longer than `limit`. -/
  | node (call : NodeCall) (limit : Duration)
  | store (task : StoreTask)
  | classify (code : Bytes)
  | sleep (d : Duration)
  | head
  /-- Makes a block, or none, the head and publishes it. -/
  | setHead (head : Option BlockId)
  | count (metric : Metric) (amount : Nat)
  | now
deriving Inhabited

abbrev Request.Reply : Request → Type
  | node call _ => Except NodeError call.Answer
  | store task => Except StoreError task.Answer
  | classify _ => Capabilities
  | sleep _ => Unit
  | head => Option BlockId
  | setHead _ => Unit
  | count _ _ => Unit
  | now => Int

/-! ## Programs -/

abbrev Program := Dialogue Request Request.Reply

def Program.request (r : Request) : Program r.Reply := Dialogue.request r

/-! ## Steps -/

abbrev Step (α : Type) := ExceptT IngestError Program α

namespace Step

def fail {α : Type} (e : IngestError) : Step α := throw e

def request (r : Request) : Step r.Reply := ExceptT.lift (Program.request r)

/-- A task for the store; its failure is the step's. -/
def store (task : StoreTask) : Step task.Answer := do
  match ← request (.store task) with
  | .ok a => return a
  | .error e => throw (.store e)

def attempt {α : Type} (s : Step α) : Step (Except IngestError α) := ExceptT.lift s.run

def ofExcept {α : Type} (r : Except IngestError α) : Step α := ExceptT.mk (pure r)

end Step

end ChainIngest.Importer
