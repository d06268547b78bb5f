import ChainIngest.Dialogue
import ChainIngest.Importer.Program
import ChainIngest.Json.Encode
import ChainIngest.Rpc.Api
import ChainIngest.Rpc.Block
import ChainIngest.Rpc.Envelope
import ChainIngest.Rpc.Receipt
import ChainIngest.Rpc.Trace
import ChainIngest.Url.Parser
/-!
# Calling a node over the wire

A call of the node is a dialogue of queries and responses: one query for most
calls, one more for every ommer of a block.  An object that the node does not
know is answered by null.
-/

namespace ChainIngest.Rpc

open Importer (NodeCall)
open Wire

/-! ## The address -/

def defaultUrl : String := "http://127.0.0.1:8545"

/-- A node's address from its text.  Nothing is asked yet. -/
def connect (url : String) : Except NodeError Url :=
  (Url.parse url).mapError fun e => .unavailable ("invalid node URL: " ++ e.message)

/-! ## Queries and responses -/

structure Query where
  method : String
  params : Option (List Json)

structure Response where
  status : Nat
  body : String
deriving DecidableEq, Inhabited

abbrev Talk := Dialogue Query fun _ => Response

inductive Failure where
  | node (e : NodeError)
  | undecodable (text : String)
deriving DecidableEq, Inhabited

namespace Failure

def preview (text : String) : String := String.ofList (text.toList.take 200)

def toNodeError : Failure → NodeError
  | node e => e
  | undecodable text => .invalidResponse ("undecodable answer: " ++ preview text)

end Failure

abbrev Attempt (α : Type) := ExceptT Failure Talk α

/-! ## Reading responses -/

def Response.result (r : Response) : Except Failure String :=
  if 200 ≤ r.status ∧ r.status < 300 then
    match Envelope.payload? r.body with
    | some (.result text) => .ok text
    | some (.refusal code message) =>
      .error (.node (.unavailable s!"node error {code}: {message}"))
    | none => .error (.undecodable r.body)
  else if r.body.isEmpty then
    .error (.node (.unavailable s!"HTTP error {r.status} with empty body"))
  else .error (.node (.unavailable s!"HTTP error {r.status} with body: {r.body}"))

def decode {α : Type} (read? : Json → Option α) (text : String) : Except Failure α :=
  match (Json.parse? text).bind read? with
  | some a => .ok a
  | none => .error (.undecodable text)

def nullable? {α : Type} (read? : Json → Option α) : Json → Option (Option α)
  | .null => some none
  | j => (read? j).map some

def ask {α : Type} (method : String) (params : Option (List Json)) (read? : Json → Option α) :
    Attempt α := do
  let response ← ExceptT.lift (Dialogue.request (⟨method, params⟩ : Query))
  ExceptT.mk (pure (response.result.bind (decode read?)))

def askFor {α : Type} (method : String) (params : List Json) (read? : Json → Option α)
    (what : String) : Attempt α := do
  match ← ask method (some params) (nullable? read?) with
  | some a => return a
  | none => throw (.node (.notFound what))

/-! ## Calls -/

def quantity (n : Nat) : Json := .str (String.ofList ('0' :: 'x' :: Word.hexDigits n))

/-- Asks for the ommers of a block from position `index` on; `left` remain. -/
def askOmmers (block : Hash) : (index left : Nat) → Attempt (List Ommer)
  | _, 0 => return []
  | index, left + 1 => do
    let ommer ← askFor "eth_getUncleByBlockHashAndIndex" [Hash.toJson block, quantity index]
      ommerOfJson? s!"ommer {index} of block {block}"
    return ommer :: (← askOmmers block (index + 1) left)

def blockQuery : BlockRef → String × List Json
  | .number n => ("eth_getBlockByNumber", [quantity n, .bool true])
  | .hash h => ("eth_getBlockByHash", [Hash.toJson h, .bool true])

def askBlock (which : BlockRef) : Attempt Block := do
  let (method, params) := blockQuery which
  let served ← askFor method params ServedBlock.ofJson? s!"block {which}"
  let ommers ← askOmmers served.hash 0 served.ommers.length
  ExceptT.mk (pure ((served.withOmmers ommers).mapError .node))

def traceQuery (tx : Hash) : TraceApi → String × List Json
  | .debug => ("debug_traceTransaction", [Hash.toJson tx, .obj [("tracer", .str "flatCallTracer")]])
  | .parity => ("trace_transaction", [Hash.toJson tx])

def askTrace (api : TraceApi) (tx : Hash) : Attempt CallTrace := do
  let (method, params) := traceQuery tx api
  let frames ← ask method (some params) (list? ServedFrame.ofJson?)
  ExceptT.mk (pure ((buildTrace frames).mapError .node))

def askCall (api : TraceApi) : (call : NodeCall) → Attempt call.Answer
  | .chainId => ask "eth_chainId" none quantity?
  | .latestBlockNumber => ask "eth_blockNumber" none quantity?
  | .block which => askBlock which
  | .trace tx => askTrace api tx
  | .receipts block => askFor "eth_getBlockReceipts" [Hash.toJson block] (list? receiptOfJson?)
      s!"receipts of {block}"
  | .code contract number =>
    ask "eth_getCode" (some [Address.toJson contract, quantity number]) bytes?

end ChainIngest.Rpc
