import ChainIngest.Error
import ChainIngest.Record.Layout
import ChainIngest.Rows
/-!
# Records

Rows travel and are archived as binary records: a tag that tells the type, then
the fields in their layout.  A record of one type is never read as another,
because the tag is checked first.  Bytes after the record are ignored.
-/

namespace ChainIngest.Record

structure Format (α : Type) where
  tag : UInt8
  name : String
  layout : Layout α

namespace Format

def encode {α : Type} (f : Format α) (a : α) : Bytes :=
  f.tag :: f.layout.write a

def decode {α : Type} (f : Format α) (b : Bytes) : Except RecordError α :=
  match b with
  | [] => .error .empty
  | tag :: body =>
    if tag ≠ f.tag then .error (.unexpectedTag tag f.tag f.name)
    else
      match f.layout.read body with
      | some (a, _) => .ok a
      | none => .error .malformed

end Format

/-! ## Field layouts -/

namespace Layout

def capabilities : Layout Capabilities := uint16.via Capabilities.bits Capabilities.mk

def contractType : Layout ContractType := choice ContractType.all

def rewardKind : Layout RewardKind := choice [.block, .ommer]

def internal : Layout InternalTransaction :=
  (hash.pair (uint32.pair (address.pair (address.pair word)))).via
    (fun t => (t.txHash, t.pc, t.sender, t.recipient, t.amount))
    (fun (txHash, pc, sender, recipient, amount) => ⟨txHash, pc, sender, recipient, amount⟩)

def reward : Layout Reward :=
  (hash.pair (hash.pair (address.pair (word.pair rewardKind)))).via
    (fun r => (r.blockHash, r.hash, r.beneficiary, r.amount, r.kind))
    (fun (blockHash, hash, beneficiary, amount, kind) => ⟨blockHash, hash, beneficiary, amount, kind⟩)

def created : Layout ContractCreated :=
  (hash.pair (uint32.pair (address.pair (address.pair (blob.pair (word.pair
    (capabilities.pair contractType))))))).via
    (fun c => (c.txHash, c.pc, c.creator, c.address, c.code, c.amount, c.capabilities,
      c.contractType))
    (fun (txHash, pc, creator, address, code, amount, capabilities, contractType) =>
      ⟨txHash, pc, creator, address, code, amount, capabilities, contractType⟩)

def destroyed : Layout ContractDestroyed :=
  (hash.pair (uint32.pair (address.pair (address.pair word)))).via
    (fun d => (d.txHash, d.pc, d.address, d.refundAddress, d.refundAmount))
    (fun (txHash, pc, address, refundAddress, refundAmount) =>
      ⟨txHash, pc, address, refundAddress, refundAmount⟩)

end Layout

/-! ## Archives -/

/-- The rows of one block that its traces and its schedule gave. -/
structure Archive where
  blockHash : Hash
  internal : List InternalTransaction
  created : List ContractCreated
  destroyed : List ContractDestroyed
  rewards : List Reward
deriving DecidableEq, Inhabited

def Archive.ofRows (rows : BlockRows) : Archive :=
  ⟨rows.block.hash, rows.internal, rows.created, rows.destroyed, rows.rewards⟩

def Layout.archive : Layout Archive :=
  (hash.pair (internal.list.pair (created.list.pair (destroyed.list.pair reward.list)))).via
    (fun a => (a.blockHash, a.internal, a.created, a.destroyed, a.rewards))
    (fun (blockHash, internal, created, destroyed, rewards) =>
      ⟨blockHash, internal, created, destroyed, rewards⟩)

/-! ## Record types -/

def internalFormat : Format InternalTransaction := ⟨0x01, "InternalTransaction", .internal⟩

def rewardFormat : Format Reward := ⟨0x02, "Reward", .reward⟩

def capabilitiesFormat : Format Capabilities := ⟨0x03, "ContractCapabilities", .capabilities⟩

def createdFormat : Format ContractCreated := ⟨0x04, "ContractCreated", .created⟩

def destroyedFormat : Format ContractDestroyed := ⟨0x05, "ContractDestroyed", .destroyed⟩

def archiveFormat : Format Archive := ⟨0x10, "TraceArchive", .archive⟩

end ChainIngest.Record
