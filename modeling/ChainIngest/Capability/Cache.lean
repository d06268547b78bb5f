import ChainIngest.Capability.Detect
import ChainIngest.Keccak
/-!
# Remembered detections

Contracts share code, so detections are remembered by the hash of the code.  The
most recently used entries are kept, most recent first.
-/

namespace ChainIngest.Capability

/-- A bounded memory of detections. -/
structure Cache where
  /-- Most entries kept; one at least. -/
  capacity : Nat
  /-- Code hashes and their capabilities, most recently used first. -/
  entries : List (Hash × Capabilities)
deriving DecidableEq, Inhabited

namespace Cache

def defaultCapacity : Nat := 4096

def new (capacity : Nat) : Cache := ⟨max 1 capacity, []⟩

def size (c : Cache) : Nat := c.entries.length

def get? (c : Cache) (h : Hash) : Option Capabilities :=
  (c.entries.find? fun e => e.1 = h).map Prod.snd

/-- The memory with `h` as its most recent entry and the least recent dropped if there are
too many. -/
def use (c : Cache) (h : Hash) (found : Capabilities) : Cache :=
  { c with entries := ((h, found) :: c.entries.filter fun e => e.1 ≠ h).take c.capacity }

structure Answer where
  found : Capabilities
  hit : Bool
deriving DecidableEq, Inhabited

def detect (c : Cache) (code : Bytes) : Answer × Cache :=
  let h := keccak256 code
  match c.get? h with
  | some found => (⟨found, true⟩, c.use h found)
  | none =>
    let found := Capability.detect code
    (⟨found, false⟩, c.use h found)

end Cache

end ChainIngest.Capability
