import ChainIngest.Proofs.DataFields
import Mathlib.Data.List.Forall2
/-!
# Shapes of events

An event's log has a shape: its signature, the number of its other topics, and
the fields of its data.  A log is decoded to an event exactly if it has the
event's shape, its topics name the event's indexed fields, and its data holds the
others.
-/

namespace ChainIngest

open Abi (Kind Value)

namespace Token

/-! ## Shapes -/

inductive Shape where
  | fungibleApproval
  | nonFungibleApproval
  | approvalForAll
  | sent
  | minted
  | burned
  | authorizedOperator
  | revokedOperator
  | transferSingle
  | transferBatch
  | uri
deriving DecidableEq

namespace Shape

def signature : Shape → Hash
  | .fungibleApproval => approvalSignature
  | .nonFungibleApproval => approvalSignature
  | .approvalForAll => approvalForAllSignature
  | .sent => sentSignature
  | .minted => mintedSignature
  | .burned => burnedSignature
  | .authorizedOperator => authorizedOperatorSignature
  | .revokedOperator => revokedOperatorSignature
  | .transferSingle => transferSingleSignature
  | .transferBatch => transferBatchSignature
  | .uri => uriSignature

def indexed : Shape → Nat
  | .fungibleApproval | .approvalForAll | .minted | .burned => 2
  | .authorizedOperator | .revokedOperator => 2
  | .nonFungibleApproval | .sent | .transferSingle | .transferBatch => 3
  | .uri => 1

def kinds : Shape → List Kind
  | .fungibleApproval | .approvalForAll => [.word]
  | .nonFungibleApproval | .authorizedOperator | .revokedOperator => []
  | .sent | .minted | .burned => [.word, .bytes, .bytes]
  | .transferSingle => [.word, .word]
  | .transferBatch => [.words, .words]
  | .uri => [.bytes]

def event : Shape → List Hash → List Value → Option TokenEvent
  | .fungibleApproval, [owner, spender], [.word value] =>
    some (.fungibleApproval (topicAddress owner) (topicAddress spender) value)
  | .nonFungibleApproval, [owner, approved, tokenId], [] =>
    some (.nonFungibleApproval (topicAddress owner) (topicAddress approved) tokenId.word)
  | .approvalForAll, [owner, operator], [.word approved] =>
    some (.approvalForAll (topicAddress owner) (topicAddress operator) (approved != 0))
  | .sent, [operator, sender, recipient], [.word amount, .bytes data, .bytes operatorData] =>
    some (.sent (topicAddress operator) (topicAddress sender) (topicAddress recipient) amount data
      operatorData)
  | .minted, [operator, recipient], [.word amount, .bytes data, .bytes operatorData] =>
    some (.minted (topicAddress operator) (topicAddress recipient) amount data operatorData)
  | .burned, [operator, sender], [.word amount, .bytes data, .bytes operatorData] =>
    some (.burned (topicAddress operator) (topicAddress sender) amount data operatorData)
  | .authorizedOperator, [operator, holder], [] =>
    some (.authorizedOperator (topicAddress operator) (topicAddress holder))
  | .revokedOperator, [operator, holder], [] =>
    some (.revokedOperator (topicAddress operator) (topicAddress holder))
  | .transferSingle, [operator, sender, recipient], [.word id, .word value] =>
    some (.transferSingle (topicAddress operator) (topicAddress sender) (topicAddress recipient) id
      value)
  | .transferBatch, [operator, sender, recipient], [.words ids, .words values] =>
    some (.transferBatch (topicAddress operator) (topicAddress sender) (topicAddress recipient) ids
      values)
  | .uri, [id], [.bytes value] => some (.uri id.word (Text.Utf8.lossy value))
  | _, _, _ => none

end Shape

/-! ## Decoding -/

theorem decodeFields_eq (shape : Shape) {indexed : List Hash} (h : indexed.length = shape.indexed)
    (data : Bytes) : decodeFields shape.signature indexed data =
      (Abi.values? data 0 shape.kinds).bind (shape.event indexed) := by
  unfold decodeFields
  cases shape with
  | fungibleApproval | approvalForAll =>
      obtain ⟨_, _, rfl⟩ := List.length_eq_two.mp h
      repeat rw [if_neg (by decide)]
      rw [if_pos (by decide), Shape.kinds, Abi.values?, Abi.values?, Abi.value?]
      cases Abi.head? data 0 <;> rfl
  | authorizedOperator | revokedOperator =>
      obtain ⟨_, _, rfl⟩ := List.length_eq_two.mp h
      repeat rw [if_neg (by decide)]
      rw [if_pos (by decide)]
      rfl
  | minted | burned =>
      obtain ⟨_, _, rfl⟩ := List.length_eq_two.mp h
      repeat rw [if_neg (by decide)]
      rw [if_pos (by decide), Shape.kinds]
      simp only [Abi.values?, Abi.value?]
      cases Abi.head? data 0 <;> cases Abi.bytes? data 1 <;> cases Abi.bytes? data 2 <;> rfl
  | nonFungibleApproval =>
      obtain ⟨_, _, _, rfl⟩ := List.length_eq_three.mp h
      rfl
  | sent =>
      obtain ⟨_, _, _, rfl⟩ := List.length_eq_three.mp h
      repeat rw [if_neg (by decide)]
      rw [if_pos (by decide), Shape.kinds]
      simp only [Abi.values?, Abi.value?]
      cases Abi.head? data 0 <;> cases Abi.bytes? data 1 <;> cases Abi.bytes? data 2 <;> rfl
  | transferSingle =>
      obtain ⟨_, _, _, rfl⟩ := List.length_eq_three.mp h
      repeat rw [if_neg (by decide)]
      rw [if_pos (by decide), Shape.kinds]
      simp only [Abi.values?, Abi.value?]
      cases Abi.head? data 0 <;> cases Abi.head? data 1 <;> rfl
  | transferBatch =>
      obtain ⟨_, _, _, rfl⟩ := List.length_eq_three.mp h
      repeat rw [if_neg (by decide)]
      rw [if_pos (by decide), Shape.kinds]
      simp only [Abi.values?, Abi.value?]
      cases Abi.words? data 0 <;> cases Abi.words? data 1 <;> rfl
  | uri =>
      obtain ⟨_, rfl⟩ := List.length_eq_one_iff.mp h
      repeat rw [if_neg (by decide)]
      rw [if_pos (by decide), Shape.kinds, Abi.values?, Abi.values?, Abi.value?, Abi.string?]
      cases Abi.bytes? data 0 <;> rfl

theorem exists_shape {signature : Hash} {indexed : List Hash} {data : Bytes}
    (h : decodeFields signature indexed data ≠ none) :
    ∃ shape : Shape, signature = shape.signature ∧ indexed.length = shape.indexed := by
  unfold decodeFields at h
  split_ifs at h with happroval happrovalForAll hsent hminted hburned hauthorized hrevoked hsingle
    hbatch huri
  all_goals try split at h
  all_goals try exact absurd rfl h
  · exact ⟨.fungibleApproval, happroval, rfl⟩
  · exact ⟨.nonFungibleApproval, happroval, rfl⟩
  · exact ⟨.approvalForAll, happrovalForAll, rfl⟩
  · exact ⟨.sent, hsent, rfl⟩
  · exact ⟨.minted, hminted, rfl⟩
  · exact ⟨.burned, hburned, rfl⟩
  · exact ⟨.authorizedOperator, hauthorized, rfl⟩
  · exact ⟨.revokedOperator, hrevoked, rfl⟩
  · exact ⟨.transferSingle, hsingle, rfl⟩
  · exact ⟨.transferBatch, hbatch, rfl⟩
  · exact ⟨.uri, huri, rfl⟩

/-! ## What a log says -/

inductive Indexed where
  | account (a : Address)
  | word (w : Word)
deriving DecidableEq

/-- A topic names an account with its last twenty bytes, and a number with all of them. -/
def Names : Indexed → Hash → Prop
  | .account a, topic => a.toBytes = topic.toBytes.drop 12
  | .word w, topic => topic.toBytes = w.toBytes

theorem names_account_iff {a : Address} {topic : Hash} :
    Names (.account a) topic ↔ topicAddress topic = a := by
  rw [Names, ← toBytes_topicAddress]
  constructor
  · intro h
    rw [← Address.ofBytes_toBytes a, h, Address.ofBytes_toBytes]
  · rintro rfl
    rfl

theorem names_word_iff {w : Word} {topic : Hash} : Names (.word w) topic ↔ topic.word = w := by
  constructor
  · intro h
    rw [← Word.ofBytes_toBytes w, ← h, Hash.toBytes, Word.ofBytes_toBytes]
  · rintro rfl
    rfl

end Token

namespace TokenEvent

open Token (Shape Indexed)

def shape : TokenEvent → Shape
  | .fungibleApproval .. => .fungibleApproval
  | .nonFungibleApproval .. => .nonFungibleApproval
  | .approvalForAll .. => .approvalForAll
  | .sent .. => .sent
  | .minted .. => .minted
  | .burned .. => .burned
  | .authorizedOperator .. => .authorizedOperator
  | .revokedOperator .. => .revokedOperator
  | .transferSingle .. => .transferSingle
  | .transferBatch .. => .transferBatch
  | .uri .. => .uri

def indexed : TokenEvent → List Indexed
  | .fungibleApproval owner spender _ => [.account owner, .account spender]
  | .nonFungibleApproval owner approved tokenId =>
    [.account owner, .account approved, .word tokenId]
  | .approvalForAll owner operator _ => [.account owner, .account operator]
  | .sent operator sender recipient _ _ _ =>
    [.account operator, .account sender, .account recipient]
  | .minted operator recipient _ _ _ => [.account operator, .account recipient]
  | .burned operator sender _ _ _ => [.account operator, .account sender]
  | .authorizedOperator operator holder => [.account operator, .account holder]
  | .revokedOperator operator holder => [.account operator, .account holder]
  | .transferSingle operator sender recipient _ _ =>
    [.account operator, .account sender, .account recipient]
  | .transferBatch operator sender recipient _ _ =>
    [.account operator, .account sender, .account recipient]
  | .uri id _ => [.word id]

/-- The other fields, as data has them, say what the event says: any number but zero is true, and
a text is the lenient reading of its bytes. -/
def Says : TokenEvent → List Value → Prop
  | .fungibleApproval _ _ value, vs => vs = [.word value]
  | .nonFungibleApproval .., vs | .authorizedOperator .., vs | .revokedOperator .., vs => vs = []
  | .approvalForAll _ _ approved, vs => ∃ w : Word, vs = [.word w] ∧ (w != 0) = approved
  | .sent _ _ _ amount data operatorData, vs | .minted _ _ amount data operatorData, vs
  | .burned _ _ amount data operatorData, vs =>
    vs = [.word amount, .bytes data, .bytes operatorData]
  | .transferSingle _ _ _ id value, vs => vs = [.word id, .word value]
  | .transferBatch _ _ _ ids values, vs => vs = [.words ids, .words values]
  | .uri _ value, vs => ∃ b, vs = [.bytes b] ∧ Text.Utf8.lossy b = value

theorem Says.kinds {e : TokenEvent} {vs : List Value} (h : e.Says vs) :
    vs.map Value.kind = e.shape.kinds := by
  cases e with
  | approvalForAll | uri =>
      obtain ⟨_, rfl, _⟩ := h
      rfl
  | _ =>
      cases h
      rfl

end TokenEvent

namespace Token

variable {shape : Shape} {e : TokenEvent} {vs : List Value}

theorem length_indexed (e : TokenEvent) : e.indexed.length = e.shape.indexed := by
  cases e <;> rfl

theorem event_eq_some_iff {indexed : List Hash} : shape.event indexed vs = some e ↔
    e.shape = shape ∧ List.Forall₂ Names e.indexed indexed ∧ e.Says vs := by
  constructor
  · intro h
    unfold Shape.event at h
    split at h <;> cases h <;>
      simp [TokenEvent.shape, TokenEvent.indexed, TokenEvent.Says, names_account_iff,
        names_word_iff]
  · rintro ⟨rfl, hindexed, hfields⟩
    cases e <;>
      simp only [TokenEvent.indexed, List.forall₂_cons_left_iff, List.forall₂_nil_left_iff,
        names_account_iff, names_word_iff] at hindexed
    case approvalForAll =>
      obtain ⟨_, _, rfl, ⟨_, _, rfl, rfl, rfl⟩, rfl⟩ := hindexed
      obtain ⟨_, rfl, rfl⟩ := hfields
      rfl
    case uri =>
      obtain ⟨_, _, rfl, rfl, rfl⟩ := hindexed
      obtain ⟨_, rfl, rfl⟩ := hfields
      rfl
    case fungibleApproval | minted | burned | authorizedOperator | revokedOperator =>
      obtain ⟨_, _, rfl, ⟨_, _, rfl, rfl, rfl⟩, rfl⟩ := hindexed
      cases hfields
      rfl
    case nonFungibleApproval | sent | transferSingle | transferBatch =>
      obtain ⟨_, _, rfl, ⟨_, _, rfl, ⟨_, _, rfl, rfl, rfl⟩, rfl⟩, rfl⟩ := hindexed
      cases hfields
      rfl

/-- A log is decoded to an event exactly if it has the event's signature, topics that name the
indexed fields, and data that holds the others. -/
theorem decodeEvent_eq_some_iff {log : Log} : decodeEvent? log = some e ↔
    ∃ indexed vs, log.topics = e.shape.signature :: indexed ∧
      List.Forall₂ Names e.indexed indexed ∧ e.Says vs ∧
      ∀ (i : Nat) v, vs[i]? = some v → Abi.Holds log.data i v := by
  constructor
  · intro h
    unfold decodeEvent? at h
    split at h
    · cases h
    · next signature indexed htopics =>
      obtain ⟨shape, rfl, hlength⟩ := exists_shape (h ▸ Option.some_ne_none e)
      rw [decodeFields_eq shape hlength, Option.bind_eq_some_iff] at h
      obtain ⟨vs, hvs, hevent⟩ := h
      obtain ⟨rfl, hindexed, hfields⟩ := event_eq_some_iff.mp hevent
      refine ⟨indexed, vs, htopics, hindexed, hfields, fun i v hv => ?_⟩
      rw [← Nat.zero_add i]
      exact (Abi.values?_eq_some_iff.mp hvs).2 i v hv
  · rintro ⟨indexed, vs, htopics, hindexed, hfields, hholds⟩
    have hlength : indexed.length = e.shape.indexed := by
      rw [← hindexed.length_eq, length_indexed]
    have hvs : Abi.values? log.data 0 e.shape.kinds = some vs := by
      refine Abi.values?_eq_some_iff.mpr ⟨hfields.kinds, fun i v hv => ?_⟩
      rw [Nat.zero_add]
      exact hholds i v hv
    rw [decodeEvent?, htopics]
    dsimp only
    rw [decodeFields_eq e.shape hlength, hvs]
    exact event_eq_some_iff.mpr ⟨rfl, hindexed, hfields⟩

end Token

end ChainIngest
