import ChainIngest.Abi
import ChainIngest.Rows
/-!
# Token events

A log names its event by the hash of the event's signature in its first topic.
Indexed fields are the other topics; the remaining fields are ABI data.  A log
with another number of topics than its event has does not spell that event.
-/

namespace ChainIngest.Token

/-! ## Signatures -/

/-- `Transfer(address,address,uint256)` -/
def transferSignature : Hash :=
  ⟨0xddf252ad1be2c89b69c2b068fc378daa952ba7f163c4a11628f55a4df523b3ef⟩

/-- `Approval(address,address,uint256)` -/
def approvalSignature : Hash :=
  ⟨0x8c5be1e5ebec7d5bd14f71427d1e84f3dd0314c0f7b2291e5b200ac8c7c3b925⟩

/-- `ApprovalForAll(address,address,bool)` -/
def approvalForAllSignature : Hash :=
  ⟨0x17307eab39ab6107e8899845ad3d59bd9653f200f220920489ca2b5937696c31⟩

/-- `Sent(address,address,address,uint256,bytes,bytes)` -/
def sentSignature : Hash :=
  ⟨0x06b541ddaa720db2b10a4d0cdac39b8d360425fc073085fac19bc82614677987⟩

/-- `Minted(address,address,uint256,bytes,bytes)` -/
def mintedSignature : Hash :=
  ⟨0x2fe5be0146f74c5bce36c0b80911af6c7d86ff27e89d5cfa61fc681327954e5d⟩

/-- `Burned(address,address,uint256,bytes,bytes)` -/
def burnedSignature : Hash :=
  ⟨0xa78a9be3a7b862d26933ad85fb11d80ef66b8f972d7cbba06621d583943a4098⟩

/-- `AuthorizedOperator(address,address)` -/
def authorizedOperatorSignature : Hash :=
  ⟨0xf4caeb2d6ca8932a215a353d0703c326ec2d81fc68170f320eb2ab49e9df61f9⟩

/-- `RevokedOperator(address,address)` -/
def revokedOperatorSignature : Hash :=
  ⟨0x50546e66e5f44d728365dc3908c63bc5cfeeab470722c1677e3073a6ac294aa1⟩

/-- `TransferSingle(address,address,address,uint256,uint256)` -/
def transferSingleSignature : Hash :=
  ⟨0xc3d58168c5ae7397731d063d5bbf3d657854427343f4c083240f7aacaa2d0f62⟩

/-- `TransferBatch(address,address,address,uint256[],uint256[])` -/
def transferBatchSignature : Hash :=
  ⟨0x4a39dc06d4c0dbc64b70af90fd698a233a518aa5d07e595d983b8c0526c8f7fb⟩

/-- `URI(string,uint256)` -/
def uriSignature : Hash :=
  ⟨0x6bb7ff708619ba0610cba295a58592e0451dee2622938c8755667688daf3529b⟩

/-! ## Decoding -/

def topicAddress (topic : Hash) : Address := Address.ofWord topic.word

def decodeFields (signature : Hash) (indexed : List Hash) (data : Bytes) : Option TokenEvent :=
  if signature = approvalSignature then
    match indexed with
    | [owner, spender] => do
      let value ← Abi.head? data 0
      return .fungibleApproval (topicAddress owner) (topicAddress spender) value
    | [owner, approved, tokenId] =>
      some (.nonFungibleApproval (topicAddress owner) (topicAddress approved) tokenId.word)
    | _ => none
  else if signature = approvalForAllSignature then
    match indexed with
    | [owner, operator] => do
      let approved ← Abi.head? data 0
      return .approvalForAll (topicAddress owner) (topicAddress operator) (approved != 0)
    | _ => none
  else if signature = sentSignature then
    match indexed with
    | [operator, sender, recipient] => do
      let amount ← Abi.head? data 0
      let content ← Abi.bytes? data 1
      let operatorData ← Abi.bytes? data 2
      return .sent (topicAddress operator) (topicAddress sender) (topicAddress recipient) amount
        content operatorData
    | _ => none
  else if signature = mintedSignature then
    match indexed with
    | [operator, recipient] => do
      let amount ← Abi.head? data 0
      let content ← Abi.bytes? data 1
      let operatorData ← Abi.bytes? data 2
      return .minted (topicAddress operator) (topicAddress recipient) amount content operatorData
    | _ => none
  else if signature = burnedSignature then
    match indexed with
    | [operator, sender] => do
      let amount ← Abi.head? data 0
      let content ← Abi.bytes? data 1
      let operatorData ← Abi.bytes? data 2
      return .burned (topicAddress operator) (topicAddress sender) amount content operatorData
    | _ => none
  else if signature = authorizedOperatorSignature then
    match indexed with
    | [operator, holder] =>
      some (.authorizedOperator (topicAddress operator) (topicAddress holder))
    | _ => none
  else if signature = revokedOperatorSignature then
    match indexed with
    | [operator, holder] => some (.revokedOperator (topicAddress operator) (topicAddress holder))
    | _ => none
  else if signature = transferSingleSignature then
    match indexed with
    | [operator, sender, recipient] => do
      let id ← Abi.head? data 0
      let value ← Abi.head? data 1
      return .transferSingle (topicAddress operator) (topicAddress sender) (topicAddress recipient)
        id value
    | _ => none
  else if signature = transferBatchSignature then
    match indexed with
    | [operator, sender, recipient] => do
      let ids ← Abi.words? data 0
      let values ← Abi.words? data 1
      return .transferBatch (topicAddress operator) (topicAddress sender) (topicAddress recipient)
        ids values
    | _ => none
  else if signature = uriSignature then
    match indexed with
    | [id] => do
      let value ← Abi.string? data 0
      return .uri id.word value
    | _ => none
  else none

def decodeEvent? (log : Log) : Option TokenEvent :=
  match log.topics with
  | [] => none
  | signature :: indexed => decodeFields signature indexed log.data

end ChainIngest.Token
