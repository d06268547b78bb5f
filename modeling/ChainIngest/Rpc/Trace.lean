import ChainIngest.Error
import ChainIngest.Rpc.Wire
import ChainIngest.Trace.Basic
/-!
# Traces on the wire

A flat trace lists the frames of a call tree in pre-order, each with its address:
the positions that lead to it from the root.  The tree is rebuilt by remembering
where the frame of every address went.
-/

namespace ChainIngest.Rpc

open Wire

/-! ## Frames as served -/

structure Action where
  callType : Option String
  creationMethod : Option String
  sender : Option Address
  recipient : Option Address
  value : Option Word
  gas : Option Nat
  input : Option Bytes
  init : Option Bytes
  address : Option Address
  refundAddress : Option Address
  balance : Option Word
deriving DecidableEq, Inhabited

def Action.ofJson? (j : Json) : Option Action := do
  let f ← Fields.of? ["callType", "creationMethod", "from", "to", "value", "gas", "input", "init",
    "address", "refundAddress", "balance"] j
  return {
    callType := ← f.optional "callType" Json.string?
    creationMethod := ← f.optional "creationMethod" Json.string?
    sender := ← f.optional "from" address?
    recipient := ← f.optional "to" address?
    value := ← f.optional "value" word?
    gas := ← f.optional "gas" quantity?
    input := ← f.optional "input" bytes?
    init := ← f.optional "init" bytes?
    address := ← f.optional "address" address?
    refundAddress := ← f.optional "refundAddress" address?
    balance := ← f.optional "balance" word? }

structure Outcome where
  gasUsed : Option Nat
  output : Option Bytes
  address : Option Address
  code : Option Bytes
deriving DecidableEq, Inhabited

namespace Outcome

def nothing : Outcome := ⟨none, none, none, none⟩

def ofJson? (j : Json) : Option Outcome := do
  let f ← Fields.of? ["gasUsed", "output", "address", "code"] j
  return {
    gasUsed := ← f.optional "gasUsed" quantity?
    output := ← f.optional "output" bytes?
    address := ← f.optional "address" address?
    code := ← f.optional "code" bytes? }

end Outcome

structure ServedFrame where
  kind : String
  action : Action
  /-- What came of it, if anything. -/
  result : Option Outcome
  /-- Why it failed, if it did. -/
  error : Option String
  path : List Nat
deriving DecidableEq, Inhabited

namespace ServedFrame

def ofJson? (j : Json) : Option ServedFrame := do
  let f ← Fields.of? ["type", "action", "result", "error", "traceAddress"] j
  return {
    kind := ← f.required "type" Json.string?
    action := ← f.required "action" Action.ofJson?
    result := ← f.optional "result" Outcome.ofJson?
    error := ← f.optional "error" Json.string?
    path := ← f.required "traceAddress" (list? Json.natural?) }

def pathText (path : List Nat) : String :=
  "[" ++ String.intercalate ", " (path.map toString) ++ "]"

def defect (f : ServedFrame) (what : String) : NodeError :=
  .invalidResponse (f.kind ++ " frame at " ++ pathText f.path ++ " " ++ what)

def need {α : Type} (f : ServedFrame) (member : Option α) (what : String) : Except NodeError α :=
  match member with
  | some a => .ok a
  | none => .error (f.defect what)

def body (f : ServedFrame) (result : Outcome) : Except NodeError Frame :=
  let a := f.action
  match f.kind with
  | "call" => do
    let kind ← f.need (CallKind.ofName? (a.callType.getD "call")) "has an unknown call type"
    let sender ← f.need a.sender "has no sender"
    return { Frame.plain kind sender a.recipient (a.value.getD 0) with
      output := result.output.getD [] }
  | "create" => do
    let kind := if a.creationMethod = some "create2" then CallKind.create2 else .create
    let sender ← f.need a.sender "has no creator"
    return { Frame.plain kind sender result.address (a.value.getD 0) with
      output := result.code.getD []
      input := a.init.getD [] }
  | "suicide" | "selfdestruct" => do
    let address ← f.need a.address "has no contract"
    return Frame.plain .selfDestruct address a.refundAddress (a.balance.getD 0)
  | _ => .error (f.defect "has an unknown type")

/-- The frame of a call tree, still without children.  Call data goes before creation code. -/
def toFrame (f : ServedFrame) : Except NodeError Frame := do
  let result := f.result.getD .nothing
  let frame ← f.body result
  return { frame with
    input := f.action.input.getD frame.input
    gas := f.action.gas.getD 0
    gasUsed := result.gasUsed.getD 0
    error := f.error }

end ServedFrame

/-! ## The tree -/

/-- A tree under construction: the frames so far, and which frame has which address, the
latest one first. -/
structure Growth where
  trace : CallTrace
  ids : List (List Nat × Nat)
deriving DecidableEq, Inhabited

namespace Growth

def find? (g : Growth) (path : List Nat) : Option Nat :=
  (g.ids.find? fun e => e.1 = path).map Prod.snd

/-- The address of a frame's parent; none for the root's own address. -/
def parentPath? (path : List Nat) : Option (List Nat) :=
  if path.isEmpty then none else some path.dropLast

def add (g : Growth) (f : ServedFrame) : Except NodeError Growth := do
  match parentPath? f.path with
  | none => throw (.invalidResponse "trace has two root frames")
  | some above =>
    match g.find? above with
    | none =>
      throw (.invalidResponse
        ("trace frame " ++ ServedFrame.pathText f.path ++ " precedes its parent"))
    | some parent =>
      let frame ← f.toFrame
      match g.trace.pushChild? parent frame with
      | none =>
        throw (.invalidResponse ("trace frame " ++ ServedFrame.pathText f.path ++ " has no parent"))
      | some (trace, id) => return ⟨trace, (f.path, id) :: g.ids⟩

end Growth

/-- Rebuilds a call tree from its frames in pre-order.  No frames make a trace without any. -/
def buildTrace : List ServedFrame → Except NodeError CallTrace
  | [] => .ok .empty
  | root :: rest => do
    if !root.path.isEmpty then
      throw (.invalidResponse
        ("first trace frame is not the root: " ++ ServedFrame.pathText root.path))
    else
      let frame ← root.toFrame
      let grown ← rest.foldlM Growth.add ⟨.ofRoot frame, [([], 0)]⟩
      return grown.trace

end ChainIngest.Rpc
