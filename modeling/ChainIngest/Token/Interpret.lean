import ChainIngest.Token.Event
/-!
# Rows of a log

Every log makes one row.  A log with the transfer signature and one of the two
transfer shapes is a token movement; every other log is kept as an event.  The
shape with three topics is shared by fungible and non-fungible tokens, so the
emitting contract's capabilities tell what its data word means.
-/

namespace ChainIngest.Token

abbrev Known := Address → Option Capabilities

def isTransfer (log : Log) : Bool := log.topics.head? = some transferSignature

/-- The movement that a log with the transfer signature spells, by its shape. -/
def transferOf? (txHash : Hash) (log : Log) (nonFungible : Bool) : Option TokenTransfer :=
  match log.topics with
  | [signature, sender, recipient] =>
    if signature = transferSignature ∧ log.data.length = 32 then
      let word := Word.ofBytes log.data
      some ⟨txHash, log.index, log.address, topicAddress sender, topicAddress recipient,
        if nonFungible then .nonFungible word else .fungible word⟩
    else none
  | [signature, sender, recipient, tokenId] =>
    if signature = transferSignature ∧ log.data = [] then
      some ⟨txHash, log.index, log.address, topicAddress sender, topicAddress recipient,
        .nonFungible tokenId.word⟩
    else none
  | _ => none

inductive Row where
  | transfer (row : TokenTransfer)
  | event (row : ContractEvent)
deriving DecidableEq, Inhabited

def knownNonFungible (known : Known) (contract : Address) : Bool :=
  (known contract).any Capabilities.isNonFungible

def rowOf (txHash : Hash) (known : Known) (log : Log) : Row :=
  match transferOf? txHash log (knownNonFungible known log.address) with
  | some row => .transfer row
  | none =>
    .event ⟨txHash, log.index, log.address, log.topics, log.data, decodeEvent? log⟩

def Row.transfer? : Row → Option TokenTransfer
  | .transfer row => some row
  | .event _ => none

def Row.event? : Row → Option ContractEvent
  | .transfer _ => none
  | .event row => some row

/-- The rows of several logs, each kind in log order. -/
structure Rows where
  transfers : List TokenTransfer
  events : List ContractEvent
deriving DecidableEq, Inhabited

def interpret (txHash : Hash) (logs : List Log) (known : Known) : Rows :=
  let rows := logs.map (rowOf txHash known)
  ⟨rows.filterMap Row.transfer?, rows.filterMap Row.event?⟩

end ChainIngest.Token
