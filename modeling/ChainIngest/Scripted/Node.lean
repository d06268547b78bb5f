import ChainIngest.Importer.Session
/-!
# A scripted node

A node that serves prepared blocks.  Its canonical chain can be replaced at any
time; blocks stay known by their hashes.  Each of its operations can be told to
fail, or not to answer, in its next calls.
-/

namespace ChainIngest.Scripted

open Importer (NodeCall Reaction)

structure ServedBlock where
  block : Block
  receipts : List Receipt
  /-- The traces of its transactions, in their order. -/
  traces : List CallTrace
deriving Inhabited

inductive CallFault where
  | pass
  | fail (e : NodeError)
  | hang
deriving Inhabited

abbrev PerOperation (α : Type) := List (String × α)

def PerOperation.get {α : Type} (t : PerOperation α) (operation : String) (fallback : α) : α :=
  ((t.find? fun e => e.1 = operation).map Prod.snd).getD fallback

def PerOperation.set {α : Type} (t : PerOperation α) (operation : String) (a : α) :
    PerOperation α :=
  (operation, a) :: t.filter fun e => e.1 ≠ operation

structure Node where
  chainId : Nat
  canonical : Store.Table Nat Hash
  /-- Every block ever served, by hash. -/
  blocks : Store.Table Hash Block
  receipts : Store.Table Hash (List Receipt)
  traces : Store.Table Hash CallTrace
  code : Store.Table Address Bytes
  /-- Failures still to come, by operation. -/
  failures : PerOperation Nat
  /-- Fates of the next calls, by operation. -/
  faults : PerOperation (List CallFault)
  /-- Calls so far, by operation. -/
  calls : PerOperation Nat

namespace Node

def new (chainId : Nat) : Node where
  chainId := chainId
  canonical := .empty
  blocks := .empty
  receipts := .empty
  traces := .empty
  code := .empty
  failures := []
  faults := []
  calls := []

def push (n : Node) (b : ServedBlock) : Node :=
  let hash := b.block.hash
  { n with
    canonical := n.canonical.insert b.block.number hash
    blocks := n.blocks.insert hash b.block
    receipts := n.receipts.insert hash b.receipts
    traces := (b.block.transactions.zip b.traces).foldl
      (fun t e => t.insert e.1.hash e.2) n.traces }

def setChain (n : Node) (blocks : List ServedBlock) : Node :=
  blocks.foldl push { n with canonical := .empty }

def setCode (n : Node) (contract : Address) (code : Bytes) : Node :=
  { n with code := n.code.insert contract code }

def failNext (n : Node) (operation : String) (times : Nat) : Node :=
  { n with failures := n.failures.set operation times }

def setFaults (n : Node) (operation : String) (faults : List CallFault) : Node :=
  { n with faults := n.faults.set operation faults }

def callCount (n : Node) (operation : String) : Nat := n.calls.get operation 0

def unknown {α : Type} (what : String) : Except NodeError α := .error (.notFound what)

def serve (n : Node) : (call : NodeCall) → Except NodeError call.Answer
  | .chainId => .ok n.chainId
  | .latestBlockNumber =>
    match n.canonical.entries.getLast? with
    | some (number, _) => .ok number
    | none => unknown "empty chain"
  | .block which =>
    let hash := match which with
      | .number number => n.canonical.get? number
      | .hash hash => some hash
    match hash.bind n.blocks.get? with
    | some block => .ok block
    | none => unknown s!"block {which}"
  | .trace tx =>
    match n.traces.get? tx with
    | some t => .ok t
    | none => unknown s!"trace {tx}"
  | .receipts block =>
    match n.receipts.get? block with
    | some rs => .ok rs
    | none => unknown s!"receipts {block}"
  | .code contract _ => .ok ((n.code.get? contract).getD [])

/-- The fate of the next call of an operation, which is thereby used up. -/
def nextFault (n : Node) (operation : String) : CallFault × Node :=
  match n.faults.get operation [] with
  | [] => (.pass, n)
  | fault :: rest => (fault, { n with faults := n.faults.set operation rest })

def react (call : NodeCall) (n : Node) : Reaction (Except NodeError call.Answer) × Node :=
  let operation := call.operation
  let n := { n with calls := n.calls.set operation (n.callCount operation + 1) }
  let (fault, n) := n.nextFault operation
  match fault with
  | .hang => (.silence, n)
  | .fail e => (.answer (.error e), n)
  | .pass =>
    match n.failures.get operation 0 with
    | 0 => (.answer (n.serve call), n)
    | left + 1 =>
      (.answer (.error (.unavailable s!"scripted {operation} failure")),
        { n with failures := n.failures.set operation left })

end Node

end ChainIngest.Scripted
