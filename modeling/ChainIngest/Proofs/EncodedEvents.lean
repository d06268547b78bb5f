import ChainIngest.Proofs.EncodedText
import ChainIngest.Proofs.EventShapes
/-!
# Encoded events

A contract's log of an event has the hash of the event's signature and the
indexed fields as topics, and the ABI encoding of the other fields as data: a
row of head words, then the tails that some of them point at, each but for the
last up to a whole number of words.  Reading such a log gives the event back,
and so it does if the unused bytes of topics are not zero, if the last tail is
padded with anything or not at all, and if there is more data.
-/

namespace ChainIngest

namespace Abi

/-! ## Encoding -/

/-- The zeros that a byte string lacks to be a row of words. -/
def padding (b : Bytes) : Bytes := List.replicate ((32 - b.length % 32) % 32) 0

namespace Value

/-- The head word of a field: a number itself, or else where the tail begins. -/
def head (offset : Nat) : Value → Word
  | .word w => w
  | .bytes _ | .words _ => BitVec.ofNat 256 offset

/-- The length word and what it counts; a number has no tail. -/
def tail : Value → Bytes
  | .word _ => []
  | v => Word.toBytes (BitVec.ofNat 256 v.count) ++ v.content

def padded (v : Value) : Bytes := v.tail ++ padding v.tail

end Value

def heads : (offset : Nat) → List Value → Bytes
  | _, [] => []
  | offset, v :: vs => (v.head offset).toBytes ++ heads (offset + v.padded.length) vs

/-- The tails of fields, the last of them without its padding. -/
def tails : List Value → Bytes
  | [] => []
  | [v] => v.tail
  | v :: next :: vs => v.padded ++ tails (next :: vs)

def encode (vs : List Value) : Bytes := heads (32 * vs.length) vs ++ vs.flatMap Value.padded

/-- The encoding without the padding behind the last tail. -/
def bare (vs : List Value) : Bytes := heads (32 * vs.length) vs ++ tails vs

variable {v : Value} {vs front back : List Value} {offset : Nat}

theorem length_heads : (heads offset vs).length = 32 * vs.length := by
  induction vs generalizing offset with
  | nil => rfl
  | cons v vs ih => simp [heads, ih]; omega

theorem heads_append : heads offset (front ++ back) =
    heads offset front ++ heads (offset + (front.flatMap Value.padded).length) back := by
  induction front generalizing offset with
  | nil => rfl
  | cons v front ih => simp [heads, ih, Nat.add_assoc]

theorem tails_cons (h : vs ≠ []) : tails (v :: vs) = v.padded ++ tails vs := by
  cases vs with
  | nil => exact absurd rfl h
  | cons next vs => rfl

theorem tails_append (front : List Value) (h : back ≠ []) :
    tails (front ++ back) = front.flatMap Value.padded ++ tails back := by
  induction front with
  | nil => rfl
  | cons v front ih =>
      rw [List.cons_append, tails_cons (by simp [h]), ih, List.flatMap_cons, List.append_assoc]

theorem tail_prefix_tails (v : Value) (vs : List Value) : v.tail <+: tails (v :: vs) := by
  cases vs with
  | nil => exact List.prefix_rfl
  | cons next vs =>
      rw [tails, Value.padded, List.append_assoc]
      exact List.prefix_append ..

theorem encode_concat (vs : List Value) (v : Value) :
    encode (vs ++ [v]) = bare (vs ++ [v]) ++ padding v.tail := by
  rw [encode, bare, tails_append vs (List.cons_ne_nil v []), tails]
  simp [Value.padded]

theorem bare_prefix_encode (vs : List Value) : bare vs <+: encode vs := by
  rcases List.eq_nil_or_concat vs with rfl | ⟨vs, v, rfl⟩
  · exact List.prefix_rfl
  · rw [List.concat_eq_append, encode_concat]
    exact List.prefix_append ..

/-! ## Reading what was encoded -/

theorem Value.length_tail_bound (h : v.kind ≠ .word) : 32 + v.count ≤ v.tail.length := by
  cases v with
  | word => exact absurd rfl h
  | bytes b => simp [tail, count, content]
  | words ws =>
      simp only [tail, count, content, List.length_append, Word.length_toBytes,
        length_flatMap_toBytes]
      omega

theorem Value.tail_eq (h : v.kind ≠ .word) :
    v.tail = Word.toBytes (BitVec.ofNat 256 v.count) ++ v.content := by
  cases v with
  | word => exact absurd rfl h
  | bytes | words => rfl

theorem Value.head_eq (h : v.kind ≠ .word) (offset : Nat) :
    v.head offset = BitVec.ofNat 256 offset := by
  cases v with
  | word => exact absurd rfl h
  | bytes | words => rfl

def tailOffset (front back : List Value) : Nat :=
  32 * (front ++ back).length + (front.flatMap Value.padded).length

theorem lies_head (front : List Value) (v : Value) (back : List Value) :
    Lies (bare (front ++ v :: back)) (32 * front.length)
      (v.head (tailOffset front (v :: back))).toBytes := by
  refine ⟨heads (32 * (front ++ v :: back).length) front,
    heads (tailOffset front (v :: back) + v.padded.length) back ++ tails (front ++ v :: back), ?_,
    length_heads⟩
  rw [bare, heads_append, heads, tailOffset]
  simp

theorem lies_tail (front : List Value) (v : Value) (back : List Value) :
    Lies (bare (front ++ v :: back)) (tailOffset front (v :: back)) v.tail := by
  obtain ⟨rest, hrest⟩ := tail_prefix_tails v back
  refine ⟨heads (32 * (front ++ v :: back).length) (front ++ v :: back) ++
    front.flatMap Value.padded, rest, ?_, ?_⟩
  · rw [bare, tails_append front (by simp), ← hrest]
    simp
  · rw [List.length_append, length_heads, tailOffset]

theorem holds_of_fits {front back : List Value} (hkind : v.kind ≠ .word)
    (hoffset : tailOffset front (v :: back) < Word.bound) (hcount : v.count < Word.bound) :
    Holds (bare (front ++ v :: back)) front.length v := by
  have hhead := lies_head front v back
  have htail := lies_tail front v back
  rw [Value.head_eq hkind] at hhead
  rw [Value.tail_eq hkind] at htail
  have hword {n : Nat} (h : n < Word.bound) : (BitVec.ofNat 256 n).toNat = n := by
    rw [BitVec.toNat_ofNat]
    exact Nat.mod_eq_of_lt h
  exact .tail hkind hhead (hword hcount) ((hword hoffset).symm ▸ htail)

theorem holds_bare (hfits : (encode vs).length < Word.bound) {i : Nat} (hv : vs[i]? = some v) :
    Holds (bare vs) i v := by
  obtain ⟨hi, hget⟩ := List.getElem?_eq_some_iff.mp hv
  have hsplit : vs = vs.take i ++ v :: vs.drop (i + 1) := by
    rw [← hget, List.getElem_cons_drop, List.take_append_drop]
  have hplace : (vs.take i).length = i := by simp; omega
  generalize vs.take i = front at hsplit hplace
  generalize vs.drop (i + 1) = back at hsplit
  subst hsplit hplace
  by_cases hkind : v.kind = .word
  · cases v with
    | word w => exact .word (lies_head front (.word w) back)
    | bytes | words => cases hkind
  have hbound : (bare (front ++ v :: back)).length < Word.bound :=
    Nat.lt_of_le_of_lt (bare_prefix_encode _).length_le hfits
  have hend := (lies_tail front v back).le
  have hcount := Value.length_tail_bound hkind
  exact holds_of_fits hkind (by omega) (by omega)

end Abi

/-! ## Logs of events -/

namespace Token

namespace Indexed

/-- The topic of a field: an account has zeros before it. -/
def topic : Indexed → Hash
  | .account a => Hash.ofBytes (List.replicate 12 0 ++ a.toBytes)
  | .word w => ⟨w⟩

theorem names_topic (x : Indexed) : Names x x.topic := by
  cases x with
  | account a => rw [Names, topic, Hash.toBytes_ofBytes (by simp), List.drop_left' (by simp)]
  | word w => rfl

end Indexed

end Token

namespace TokenEvent

open Abi (Value)

/-- The fields that do not stand in topics. -/
def fields : TokenEvent → List Value
  | .fungibleApproval _ _ value => [.word value]
  | .nonFungibleApproval .. | .authorizedOperator .. | .revokedOperator .. => []
  | .approvalForAll _ _ approved => [.word (if approved then 1 else 0)]
  | .sent _ _ _ amount data operatorData | .minted _ _ amount data operatorData
  | .burned _ _ amount data operatorData => [.word amount, .bytes data, .bytes operatorData]
  | .transferSingle _ _ _ id value => [.word id, .word value]
  | .transferBatch _ _ _ ids values => [.words ids, .words values]
  | .uri _ value => [.bytes (Text.Utf8.encode value)]

theorem says_fields (e : TokenEvent) : e.Says e.fields := by
  cases e with
  | approvalForAll _ _ approved => exact ⟨_, rfl, by cases approved <;> rfl⟩
  | uri _ value => exact ⟨_, rfl, Text.Utf8.lossy_encode value⟩
  | _ => rfl

def topics (e : TokenEvent) : List Hash :=
  e.shape.signature :: e.indexed.map Token.Indexed.topic

end TokenEvent

namespace Token

theorem forall₂_names_topic (xs : List Indexed) :
    List.Forall₂ Names xs (xs.map Indexed.topic) := by
  rw [List.forall₂_map_right_iff, List.forall₂_same]
  exact fun x _ => x.names_topic

/-! ## Reading the logs of events -/

/-- Among the logs of any transaction, the log makes one row, and this row says the event. -/
def Conveys (log : Log) (e : TokenEvent) : Prop :=
  ∀ (txHash : Hash) (known : Known) (before after : List Log),
    let earlier := interpret txHash before known
    let later := interpret txHash after known
    interpret txHash (before ++ log :: after) known =
      ⟨earlier.transfers ++ later.transfers,
        earlier.events ++
          ⟨txHash, log.index, log.address, log.topics, log.data, some e⟩ :: later.events⟩

variable {log : Log} {e : TokenEvent}

theorem rowOf_of_decodeEvent (h : decodeEvent? log = some e) (txHash : Hash) (known : Known) :
    rowOf txHash known log =
      .event ⟨txHash, log.index, log.address, log.topics, log.data, some e⟩ := by
  unfold rowOf
  split
  · next row hrow =>
    have hnone := decodeEvent_transfer (transferOf_some hrow).1.1
    rw [h] at hnone
    cases hnone
  · rw [h]

theorem conveys_of_decodeEvent (h : decodeEvent? log = some e) : Conveys log e := by
  intro txHash known before after
  simp only [interpret, List.map_append, List.map_cons, List.filterMap_append,
    rowOf_of_decodeEvent h]
  rfl

theorem conveys_of_bare {topics : List Hash} (hfits : (Abi.encode e.fields).length < Word.bound)
    (htopics : log.topics = e.shape.signature :: topics)
    (hindexed : List.Forall₂ Names e.indexed topics) (hdata : Abi.bare e.fields <+: log.data) :
    Conveys log e := by
  apply conveys_of_decodeEvent
  refine decodeEvent_eq_some_iff.mpr ⟨topics, e.fields, htopics, hindexed, e.says_fields, ?_⟩
  intro i v hv
  exact (Abi.holds_bare hfits hv).extend hdata

/-- Every event is read back from its log, as long as a word can count the bytes of its data.  So
it is if the bytes of the topics that name no part of an account are not zero, and whatever stands
behind the last tail, padding or not. -/
theorem conveys_encoded {e : TokenEvent} (hfits : (Abi.encode e.fields).length < Word.bound)
    (log : Log) :
    (log.topics = e.topics → log.data = Abi.encode e.fields → Conveys log e) ∧
      ∀ (topics : List Hash) (rest : Bytes), log.topics = e.shape.signature :: topics →
        List.Forall₂ Names e.indexed topics → log.data = Abi.bare e.fields ++ rest →
        Conveys log e := by
  constructor
  · intro htopics hdata
    refine conveys_of_bare hfits htopics (forall₂_names_topic e.indexed) ?_
    rw [hdata]
    exact Abi.bare_prefix_encode e.fields
  · intro topics rest htopics hindexed hdata
    refine conveys_of_bare hfits htopics hindexed ?_
    rw [hdata]
    exact List.prefix_append ..

theorem conveys_encoded_dirty :
    let e : TokenEvent := .sent ⟨9⟩ ⟨1⟩ ⟨2⟩ 8 (List.replicate 33 0x68) [0x6f, 0x70]
    let written : Log := ⟨⟨7⟩, e.topics, Abi.encode e.fields, 0⟩
    let dirty : Log := ⟨⟨7⟩, [sentSignature,
      ⟨0xff0000000000000000000000000000000000000009⟩,
      ⟨0xff0000000000000000000000000000000000000001⟩,
      ⟨0xff0000000000000000000000000000000000000002⟩], Abi.bare e.fields ++ [0xff], 0⟩
    (Abi.encode e.fields).length < Word.bound ∧ Conveys written e ∧ Conveys dirty e := by
  intro e written dirty
  have hfits : (Abi.encode e.fields).length < Word.bound := by decide +kernel
  have hindexed : List.Forall₂ Names e.indexed dirty.topics.tail :=
    .cons (names_account_iff.mpr rfl) (.cons (names_account_iff.mpr rfl)
      (.cons (names_account_iff.mpr rfl) .nil))
  exact ⟨hfits, (conveys_encoded hfits written).1 rfl rfl,
    (conveys_encoded hfits dirty).2 _ _ rfl hindexed rfl⟩

end Token

end ChainIngest
