import ChainIngest.Importer.Config
import ChainIngest.Importer.Program
/-!
# Calling the node

A call of the node is bounded in time and repeated while its failure may go
away, with growing pauses, up to the permitted number of retries.
-/

namespace ChainIngest.Importer

def callWith (c : Config) (call : NodeCall) : (left : Nat) → Program (Except NodeError call.Answer)
  | 0 => Program.request (.node call c.nodeTimeout)
  | left + 1 => do
    match ← Program.request (.node call c.nodeTimeout) with
    | .ok a => return .ok a
    | .error e =>
      if e.isTransient then
        let retry := c.nodeRetries - left
        Program.request (.count (.nodeRetries call.operation) 1)
        Program.request (.sleep (c.backoff retry))
        callWith c call left
      else return .error e

def callNode (c : Config) (call : NodeCall) : Step call.Answer := do
  match ← ExceptT.lift (callWith c call c.nodeRetries) with
  | .ok a => return a
  | .error e => throw (.node e)

end ChainIngest.Importer
