import ChainIngest.Trace.Basic
import ChainIngest.Rows
/-!
# Rows of a trace

Reading a call tree in call order gives the value moved inside a transaction and
the contracts it created and destroyed.  Visited frames are numbered from zero.
A failed frame keeps its number, but its effects and its whole subtree are
skipped: what it reports was undone.

The walk keeps a stack of frames to visit and a mark for each frame visited, so
a child list that leads back into the tree is noticed rather than followed.
-/

namespace ChainIngest.Trace

/-! ## Faults -/

inductive Fault where
  | noRoot
  /-- A child list names a frame that does not exist. -/
  | missingFrame (id : Nat)
  | repeatedFrame (id : Nat)
  | noCreatedAddress (kind : CallKind) (pc : Nat)
  | noRefundAddress (pc : Nat)
  | noTarget (kind : CallKind) (pc : Nat)
deriving DecidableEq, Inhabited

def Fault.message : Fault → String
  | .noRoot => "trace has no root frame"
  | .missingFrame id => s!"frame {id} is referenced but missing"
  | .repeatedFrame id => s!"frame {id} is reachable twice"
  | .noCreatedAddress kind pc => s!"{kind.label} frame {pc} has no created address"
  | .noRefundAddress pc => s!"selfdestruct frame {pc} has no refund address"
  | .noTarget kind pc => s!"{kind.label} frame {pc} has no target"

/-! ## Output -/

/-- The rows of one trace, each list in visiting order. -/
structure Output where
  internal : List InternalTransaction
  created : List ContractCreated
  destroyed : List ContractDestroyed
deriving DecidableEq, Inhabited

namespace Output

def empty : Output := ⟨[], [], []⟩

def append (a b : Output) : Output :=
  ⟨a.internal ++ b.internal, a.created ++ b.created, a.destroyed ++ b.destroyed⟩

def touched (o : Output) : List Address :=
  o.internal.flatMap (fun t => [t.sender, t.recipient]) ++
    o.created.flatMap (fun c => [c.creator, c.address]) ++
    o.destroyed.flatMap (fun d => [d.address, d.refundAddress])

end Output

/-! ## One frame -/

inductive Emission where
  | nothing
  | internal (row : InternalTransaction)
  | created (row : ContractCreated)
  | destroyed (row : ContractDestroyed)
deriving DecidableEq, Inhabited

/-- The row of frame `id`, visited as number `pc`.  The root's own value is the transaction's
and makes no row. -/
def emission (txHash : Hash) (id pc : Nat) (f : Frame) : Except Fault Emission :=
  match f.kind with
  | .create | .create2 =>
    match f.target with
    | none => .error (.noCreatedAddress f.kind pc)
    | some address =>
      .ok (.created ⟨txHash, UInt32.ofNat pc, f.sender, address, f.output, f.value, .empty, .generic⟩)
  | .selfDestruct =>
    match f.target with
    | none => .error (.noRefundAddress pc)
    | some refund => .ok (.destroyed ⟨txHash, UInt32.ofNat pc, f.sender, refund, f.value⟩)
  | kind =>
    if id = 0 then .ok .nothing
    else
      match f.target with
      | none => .error (.noTarget kind pc)
      | some target =>
        if kind.movesValue && f.value != 0 then
          .ok (.internal ⟨txHash, UInt32.ofNat pc, f.sender, target, f.value⟩)
        else .ok .nothing

/-! ## The walk -/

/-- The state between two visits.  The rows found so far are kept last first. -/
structure Walk where
  /-- One mark a frame: whether it was visited. -/
  visited : Array Bool
  /-- Frames still to visit, next first. -/
  stack : List Nat
  pc : Nat
  /-- Rows found, last first. -/
  found : Output

namespace Walk

def record (found : Output) : Emission → Output
  | .nothing => found
  | .internal row => { found with internal := row :: found.internal }
  | .created row => { found with created := row :: found.created }
  | .destroyed row => { found with destroyed := row :: found.destroyed }

def rows (found : Output) : Output :=
  ⟨found.internal.reverse, found.created.reverse, found.destroyed.reverse⟩

def start (t : CallTrace) : Walk where
  visited := Array.replicate t.size false
  stack := [0]
  pc := 0
  found := .empty

def visit (txHash : Hash) (t : CallTrace) (w : Walk) (id : Nat) (rest : List Nat) :
    Except Fault Walk :=
  match t.frame? id with
  | none => .error (.missingFrame id)
  | some f =>
    if w.visited.getD id false then .error (.repeatedFrame id)
    else
      let visited := w.visited.setIfInBounds id true
      if f.failed then .ok { w with visited := visited, stack := rest, pc := w.pc + 1 }
      else do
        let row ← emission txHash id w.pc f
        return {
          visited := visited
          stack := f.children.toList ++ rest
          pc := w.pc + 1
          found := record w.found row }

/-- Visits frames until the stack is empty.  `fresh` is the number of frames not yet visited;
once it is zero, whatever is still on the stack is missing or repeated. -/
def run (txHash : Hash) (t : CallTrace) : (fresh : Nat) → Walk → Except Fault Output
  | 0, w =>
    match w.stack with
    | [] => .ok (rows w.found)
    | id :: _ => .error (if id < t.size then .repeatedFrame id else .missingFrame id)
  | fresh + 1, w =>
    match w.stack with
    | [] => .ok (rows w.found)
    | id :: rest =>
      match w.visit txHash t id rest with
      | .error fault => .error fault
      | .ok next => run txHash t fresh next

end Walk

def extract (txHash : Hash) (t : CallTrace) : Except Fault Output :=
  if t.isEmpty then .error .noRoot
  else (Walk.start t).run txHash t t.size

end ChainIngest.Trace
