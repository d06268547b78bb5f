import ChainIngest.Calendar
import ChainIngest.Json.Basic
import ChainIngest.Metrics
import ChainIngest.Store.Basic
import ChainIngest.Trace.Basic
/-!
# Models as JSON

The JSON form of everything the library hands out.  Addresses, hashes and byte
strings are lower-case hexadecimal in full, words the shortest hexadecimal,
signed words decimal; what is absent is null.
-/

namespace ChainIngest

/-! ## Scalars -/

namespace Json

def nat (n : Nat) : Json := .int n

def u32 (n : UInt32) : Json := nat n.toNat

def opt {α : Type} (f : α → Json) : Option α → Json
  | none => .null
  | some a => f a

def list {α : Type} (f : α → Json) (as : List α) : Json := .arr (as.map f)

def timestamp (t : Int) : Json := .str (Calendar.timestampText t)

end Json

def Address.toJson (a : Address) : Json := .str a.text

def Hash.toJson (h : Hash) : Json := .str h.text

def Word.toJson (w : Word) : Json := .str (Word.hexText w)

def Word.toSignedJson (w : Word) : Json := .str (Word.signedText w)

def Bytes.toJson (b : Bytes) : Json := .str b.toHex

def BlockId.toJson (id : BlockId) : Json := .obj [("number", Json.nat id.number), ("hash", Hash.toJson id.hash)]

def Ommer.toJson (o : Ommer) : Json :=
  .obj [("hash", Hash.toJson o.hash), ("number", Json.nat o.number), ("miner", Address.toJson o.miner)]

def Transaction.toJson (t : Transaction) : Json :=
  .obj [("hash", Hash.toJson t.hash), ("block_hash", Hash.toJson t.blockHash), ("index", Json.nat t.index),
    ("from", Address.toJson t.sender), ("to", Json.opt Address.toJson t.recipient), ("value", Word.toJson t.value),
    ("nonce", Json.nat t.nonce), ("gas_price", Word.toJson t.gasPrice), ("gas_limit", Json.nat t.gasLimit),
    ("input", Bytes.toJson t.input),
    ("signature", .obj [("v", Json.nat t.signature.v), ("r", Word.toJson t.signature.r),
      ("s", Word.toJson t.signature.s)])]

def Block.toJson (b : Block) : Json :=
  .obj [("number", Json.nat b.number), ("hash", Hash.toJson b.hash), ("parent_hash", Hash.toJson b.parentHash),
    ("timestamp", Json.timestamp b.timestamp), ("miner", Address.toJson b.miner), ("gas_used", Json.nat b.gasUsed),
    ("gas_limit", Json.nat b.gasLimit), ("base_fee_per_gas", Json.opt Word.toJson b.baseFee),
    ("ommers", Json.list Ommer.toJson b.ommers), ("transactions", Json.list Transaction.toJson b.transactions)]

def Log.toJson (l : Log) : Json :=
  .obj [("address", Address.toJson l.address), ("topics", Json.list Hash.toJson l.topics), ("data", Bytes.toJson l.data),
    ("log_index", Json.u32 l.index)]

def Receipt.toJson (r : Receipt) : Json :=
  .obj [("transaction_hash", Hash.toJson r.txHash), ("success", .bool r.success),
    ("gas_used", Json.nat r.gasUsed), ("cumulative_gas_used", Json.nat r.cumulativeGasUsed),
    ("effective_gas_price", Json.opt Word.toJson r.effectiveGasPrice),
    ("contract_address", Json.opt Address.toJson r.contractAddress),
    ("revert_reason", Json.opt Json.str r.revertReason), ("logs", Json.list Log.toJson r.logs)]

def InternalTransaction.toJson (t : InternalTransaction) : Json :=
  .obj [("transaction_hash", Hash.toJson t.txHash), ("pc", Json.u32 t.pc), ("from", Address.toJson t.sender),
    ("to", Address.toJson t.recipient), ("amount", Word.toJson t.amount)]

def Capabilities.toJson (c : Capabilities) : Json := Json.nat c.bits.toNat

def ContractCreated.toJson (c : ContractCreated) : Json :=
  .obj [("transaction_hash", Hash.toJson c.txHash), ("pc", Json.u32 c.pc), ("creator", Address.toJson c.creator),
    ("address", Address.toJson c.address), ("code", Bytes.toJson c.code), ("amount", Word.toJson c.amount),
    ("capabilities", Capabilities.toJson c.capabilities), ("contract_type", .str c.contractType.name)]

def ContractDestroyed.toJson (d : ContractDestroyed) : Json :=
  .obj [("transaction_hash", Hash.toJson d.txHash), ("pc", Json.u32 d.pc), ("address", Address.toJson d.address),
    ("refund_address", Address.toJson d.refundAddress), ("refund_amount", Word.toJson d.refundAmount)]

def ClassifiedContract.toJson (c : ClassifiedContract) : Json :=
  .obj [("address", Address.toJson c.address), ("code_hash", Hash.toJson c.codeHash),
    ("capabilities", Capabilities.toJson c.capabilities), ("contract_type", .str c.contractType.name),
    ("block_number", Json.nat c.blockNumber)]

def Reward.toJson (r : Reward) : Json :=
  .obj [("block_hash", Hash.toJson r.blockHash), ("hash", Hash.toJson r.hash),
    ("beneficiary", Address.toJson r.beneficiary), ("amount", Word.toJson r.amount), ("kind", .str r.kind.name)]

def BalanceDelta.toJson (d : BalanceDelta) : Json :=
  .obj [("block_hash", Hash.toJson d.blockHash), ("block_number", Json.nat d.blockNumber),
    ("index", Json.u32 d.index), ("account", Address.toJson d.account), ("amount", Word.toSignedJson d.amount),
    ("reason", .str d.reason.name), ("transaction_hash", Json.opt Hash.toJson d.txHash)]

def Account.toJson (a : Account) : Json :=
  .obj [("address", Address.toJson a.address), ("first_seen_block", Json.nat a.firstSeenBlock),
    ("destroyed_block", Json.opt Json.nat a.destroyedBlock)]

def TransferValue.toJson : TransferValue → Json
  | .fungible amount => .obj [("kind", .str "fungible"), ("amount", Word.toJson amount)]
  | .nonFungible id => .obj [("kind", .str "non_fungible"), ("token_id", Word.toJson id)]

def TokenTransfer.toJson (t : TokenTransfer) : Json :=
  .obj [("transaction_hash", Hash.toJson t.txHash), ("log_index", Json.u32 t.logIndex),
    ("contract", Address.toJson t.contract), ("from", Address.toJson t.sender), ("to", Address.toJson t.recipient),
    ("value", TransferValue.toJson t.value)]

def TokenEvent.toJson : TokenEvent → Json
  | .fungibleApproval owner spender value =>
    .obj [("event", .str "fungible_approval"), ("owner", Address.toJson owner), ("spender", Address.toJson spender),
      ("value", Word.toJson value)]
  | .nonFungibleApproval owner approved id =>
    .obj [("event", .str "non_fungible_approval"), ("owner", Address.toJson owner),
      ("approved", Address.toJson approved), ("token_id", Word.toJson id)]
  | .approvalForAll owner operator approved =>
    .obj [("event", .str "approval_for_all"), ("owner", Address.toJson owner), ("operator", Address.toJson operator),
      ("approved", .bool approved)]
  | .sent operator sender recipient amount data operatorData =>
    .obj [("event", .str "sent"), ("operator", Address.toJson operator), ("from", Address.toJson sender),
      ("to", Address.toJson recipient), ("amount", Word.toJson amount), ("data", Bytes.toJson data),
      ("operator_data", Bytes.toJson operatorData)]
  | .minted operator recipient amount data operatorData =>
    .obj [("event", .str "minted"), ("operator", Address.toJson operator), ("to", Address.toJson recipient),
      ("amount", Word.toJson amount), ("data", Bytes.toJson data), ("operator_data", Bytes.toJson operatorData)]
  | .burned operator sender amount data operatorData =>
    .obj [("event", .str "burned"), ("operator", Address.toJson operator), ("from", Address.toJson sender),
      ("amount", Word.toJson amount), ("data", Bytes.toJson data), ("operator_data", Bytes.toJson operatorData)]
  | .authorizedOperator operator holder =>
    .obj [("event", .str "authorized_operator"), ("operator", Address.toJson operator),
      ("holder", Address.toJson holder)]
  | .revokedOperator operator holder =>
    .obj [("event", .str "revoked_operator"), ("operator", Address.toJson operator),
      ("holder", Address.toJson holder)]
  | .transferSingle operator sender recipient id value =>
    .obj [("event", .str "transfer_single"), ("operator", Address.toJson operator), ("from", Address.toJson sender),
      ("to", Address.toJson recipient), ("id", Word.toJson id), ("value", Word.toJson value)]
  | .transferBatch operator sender recipient ids values =>
    .obj [("event", .str "transfer_batch"), ("operator", Address.toJson operator), ("from", Address.toJson sender),
      ("to", Address.toJson recipient), ("ids", Json.list Word.toJson ids), ("values", Json.list Word.toJson values)]
  | .uri id value => .obj [("event", .str "uri"), ("id", Word.toJson id), ("value", .str value)]

def ContractEvent.toJson (e : ContractEvent) : Json :=
  .obj [("transaction_hash", Hash.toJson e.txHash), ("log_index", Json.u32 e.logIndex),
    ("contract", Address.toJson e.contract), ("topics", Json.list Hash.toJson e.topics), ("data", Bytes.toJson e.data),
    ("decoded", Json.opt TokenEvent.toJson e.decoded)]

/-- An import row, without its time. -/
def ImportEntry.toJson (e : ImportEntry) : Json :=
  .obj [("number", Json.nat e.number), ("hash", Hash.toJson e.hash), ("status", .str e.status.name),
    ("attempts", Json.nat e.attempts), ("canonical", .bool e.canonical),
    ("last_error", Json.opt Json.str e.lastError)]

def Cursor.toJson (c : Cursor) : Json :=
  .obj [("chain_id", Json.nat c.chainId), ("last_block", Json.nat c.lastBlock), ("last_hash", Hash.toJson c.lastHash)]

def Record.Archive.toJson (a : Record.Archive) : Json :=
  .obj [("block_hash", Hash.toJson a.blockHash), ("internal_transactions", Json.list InternalTransaction.toJson a.internal),
    ("contracts_created", Json.list ContractCreated.toJson a.created),
    ("contracts_destroyed", Json.list ContractDestroyed.toJson a.destroyed), ("rewards", Json.list Reward.toJson a.rewards)]

def Frame.toJson (f : Frame) : Json :=
  .obj [("kind", .str f.kind.name), ("from", Address.toJson f.sender), ("to", Json.opt Address.toJson f.target),
    ("value", Word.toJson f.value), ("gas", Json.nat f.gas), ("gas_used", Json.nat f.gasUsed),
    ("input", Bytes.toJson f.input), ("output", Bytes.toJson f.output), ("error", Json.opt Json.str f.error),
    ("children", Json.list Json.nat f.children.toList)]

def CallTrace.toJson (t : CallTrace) : Json := Json.list Frame.toJson t.frames.toList

def Metrics.toJson (m : Metrics) : Json := .obj (m.counts.map fun e => (e.1.name, Json.nat e.2))

def StoredContract.toJson (c : StoredContract) : Json :=
  .obj [("capabilities", c.capabilities.toJson), ("type", .str c.contractType.name),
    ("created", Json.opt ContractCreated.toJson c.created)]

def BlockRows.toJson (r : BlockRows) : Json :=
  .obj [("receipts", Json.list Receipt.toJson r.receipts),
    ("internal_transactions", Json.list InternalTransaction.toJson r.internal),
    ("contracts_created", Json.list ContractCreated.toJson r.created),
    ("contracts_destroyed", Json.list ContractDestroyed.toJson r.destroyed),
    ("classified_contracts", Json.list ClassifiedContract.toJson r.classified),
    ("token_transfers", Json.list TokenTransfer.toJson r.transfers),
    ("contract_events", Json.list ContractEvent.toJson r.events),
    ("rewards", Json.list Reward.toJson r.rewards),
    ("balance_deltas", Json.list BalanceDelta.toJson r.deltas),
    ("accounts", Json.list Account.toJson r.accounts), ("import", r.entry.toJson),
    ("cursor", r.cursor.toJson)]

end ChainIngest
