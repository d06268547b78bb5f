import ChainIngest.Token.Interpret
import Mathlib.Data.List.Basic
/-!
# One row a log

Reading a list of logs splits it: each log goes, in its turn, either to the token
movements or to the events, and what it says stands in its row.  The shape of a log
decides where it goes; whether its word is an amount or the name of a token depends
on the number of topics and on what is known of the emitter.
-/

namespace ChainIngest

namespace Bytes

theorem ofNatLE_add (a b n : Nat) : ofNatLE (a + b) n = ofNatLE a n ++ ofNatLE b (n / 256 ^ a) := by
  induction a generalizing n with
  | zero => simp [ofNatLE]
  | succ a ih =>
      rw [Nat.succ_add, ofNatLE, ofNatLE, ih, List.cons_append, Nat.div_div_eq_div_mul,
        Nat.pow_succ']

theorem ofNatLE_mod (width n : Nat) : ofNatLE width (n % 256 ^ width) = ofNatLE width n := by
  have hback := ofNatLE_toNatLE (ofNatLE width n)
  rwa [length_ofNatLE, toNatLE_ofNatLE] at hback

theorem drop_ofNatBE (high low n : Nat) : (ofNatBE (low + high) n).drop high = ofNatBE low n := by
  rw [ofNatBE, ofNatLE_add, List.reverse_append]
  exact List.drop_left' (by simp)

end Bytes

namespace Token

/-! ## What the rows say -/

/-- A log with the transfer signature in one of the two shapes of a transfer. -/
def IsTransferLog (log : Log) : Prop :=
  log.topics.head? = some transferSignature ∧
    (log.topics.length = 3 ∧ log.data.length = 32 ∨ log.topics.length = 4 ∧ log.data = [])

instance (log : Log) : Decidable (IsTransferLog log) :=
  inferInstanceAs (Decidable (_ ∧ (_ ∨ _)))

/-- A contract that is known to have a token interface whose transfers name tokens. -/
def MovesIds (known : Known) (contract : Address) : Prop :=
  ∃ set, known contract = some set ∧ (set.contains .erc721 = true ∨ set.contains .erc1155 = true)

/-- What a transfer log moves: the token of its fourth topic, or the token or the amount that its
data word names. -/
inductive Carries (known : Known) (log : Log) : TransferValue → Prop where
  | topic {id : Hash} : log.topics.length = 4 → log.topics[3]? = some id →
      Carries known log (.nonFungible id.word)
  | id {id : Word} : log.topics.length = 3 → MovesIds known log.address → id.toBytes = log.data →
      Carries known log (.nonFungible id)
  | amount {amount : Word} : log.topics.length = 3 → ¬ MovesIds known log.address →
      amount.toBytes = log.data → Carries known log (.fungible amount)

def NamedBy (topic? : Option Hash) (account : Address) : Prop :=
  ∃ topic, topic? = some topic ∧ account.toBytes = topic.toBytes.drop 12

structure TransferOf (txHash : Hash) (known : Known) (log : Log) (row : TokenTransfer) : Prop where
  txHash : row.txHash = txHash
  index : row.logIndex = log.index
  contract : row.contract = log.address
  sender : NamedBy log.topics[1]? row.sender
  recipient : NamedBy log.topics[2]? row.recipient
  value : Carries known log row.value

/-- The event of a log: the log itself, with no meaning if it has the transfer signature. -/
structure EventOf (txHash : Hash) (log : Log) (row : ContractEvent) : Prop where
  txHash : row.txHash = txHash
  index : row.logIndex = log.index
  contract : row.contract = log.address
  topics : row.topics = log.topics
  data : row.data = log.data
  undecoded : log.topics.head? = some transferSignature → row.decoded = none

/-- Logs with their movements and their events: merged at each position from the list that the
log's shape tells, these are rows of all the logs in order. -/
inductive Splits (txHash : Hash) (known : Known) :
    List Log → List TokenTransfer → List ContractEvent → Prop where
  | nil : Splits txHash known [] [] []
  | transfer {log : Log} {logs : List Log} {row : TokenTransfer} {transfers : List TokenTransfer}
      {events : List ContractEvent} : IsTransferLog log → TransferOf txHash known log row →
      Splits txHash known logs transfers events →
      Splits txHash known (log :: logs) (row :: transfers) events
  | event {log : Log} {logs : List Log} {row : ContractEvent} {transfers : List TokenTransfer}
      {events : List ContractEvent} : ¬ IsTransferLog log → EventOf txHash log row →
      Splits txHash known logs transfers events →
      Splits txHash known (log :: logs) transfers (row :: events)

variable {txHash : Hash} {known : Known} {log : Log}

theorem Splits.length {logs : List Log} {transfers : List TokenTransfer}
    {events : List ContractEvent} (h : Splits txHash known logs transfers events) :
    transfers.length + events.length = logs.length := by
  induction h with
  | nil => rfl
  | transfer _ _ _ ih => rw [List.length_cons, List.length_cons, ← ih, Nat.add_right_comm]
  | event _ _ _ ih => rw [List.length_cons, List.length_cons, ← ih, Nat.add_assoc]

/-! ## One log -/

theorem toBytes_topicAddress (topic : Hash) :
    (topicAddress topic).toBytes = topic.toBytes.drop 12 := by
  have hlow : ((topic.word.setWidth 160).toNat) = topic.word.toNat % 256 ^ 20 :=
    BitVec.toNat_setWidth ..
  rw [topicAddress, Address.ofWord, Address.toBytes, Hash.toBytes, Word.toBytes,
    Bytes.drop_ofNatBE 12 20, Bytes.ofNatBE, Bytes.ofNatBE, hlow, Bytes.ofNatLE_mod]

theorem namedBy_topicAddress (topic : Hash) : NamedBy (some topic) (topicAddress topic) :=
  ⟨topic, rfl, toBytes_topicAddress topic⟩

theorem knownNonFungible_iff {contract : Address} :
    knownNonFungible known contract = true ↔ MovesIds known contract := by
  simp [knownNonFungible, MovesIds, Option.any_eq_true, Capabilities.isNonFungible]

theorem carries_data (htopics : log.topics.length = 3) (hdata : log.data.length = 32) :
    Carries known log (if knownNonFungible known log.address then .nonFungible (Word.ofBytes log.data)
      else .fungible (Word.ofBytes log.data)) := by
  have hword := Word.toBytes_ofBytes hdata
  split
  · next hknown => exact .id htopics (knownNonFungible_iff.mp hknown) hword
  · next hknown => exact .amount htopics (fun hids => hknown (knownNonFungible_iff.mpr hids)) hword

theorem Carries.nonFungible_iff {value : TransferValue} (h : Carries known log value)
    (hthree : log.topics.length = 3) :
    (∃ id, value = .nonFungible id) ↔ MovesIds known log.address := by
  cases h with
  | topic hfour _ => omega
  | id _ hmoves _ => exact ⟨fun _ => hmoves, fun _ => ⟨_, rfl⟩⟩
  | amount _ hmoves _ =>
      refine ⟨?_, fun hids => absurd hids hmoves⟩
      rintro ⟨_, hid⟩
      cases hid

theorem transferOf_of_topics {sender recipient : Hash} {indexed : List Hash} {value : TransferValue}
    (htopics : log.topics = transferSignature :: sender :: recipient :: indexed)
    (hvalue : Carries known log value) :
    TransferOf txHash known log
      ⟨txHash, log.index, log.address, topicAddress sender, topicAddress recipient, value⟩ where
  txHash := rfl
  index := rfl
  contract := rfl
  sender := by
    rw [htopics]
    exact namedBy_topicAddress sender
  recipient := by
    rw [htopics]
    exact namedBy_topicAddress recipient
  value := hvalue

theorem transferOf_some {row : TokenTransfer}
    (h : transferOf? txHash log (knownNonFungible known log.address) = some row) :
    IsTransferLog log ∧ TransferOf txHash known log row := by
  unfold transferOf? at h
  split at h
  · next signature sender recipient htopics =>
    split at h
    · next hshape =>
      cases h
      obtain ⟨rfl, hdata⟩ := hshape
      have hthree : log.topics.length = 3 := by rw [htopics]; rfl
      exact ⟨⟨by rw [htopics]; rfl, .inl ⟨hthree, hdata⟩⟩,
        transferOf_of_topics htopics (carries_data hthree hdata)⟩
    · cases h
  · next signature sender recipient tokenId htopics =>
    split at h
    · next hshape =>
      cases h
      obtain ⟨rfl, hdata⟩ := hshape
      have hfour : log.topics.length = 4 := by rw [htopics]; rfl
      have hid : log.topics[3]? = some tokenId := by rw [htopics]; rfl
      exact ⟨⟨by rw [htopics]; rfl, .inr ⟨hfour, hdata⟩⟩,
        transferOf_of_topics htopics (.topic hfour hid)⟩
    · cases h
  · cases h

theorem transferOf_ne_none {nonFungible : Bool} (h : IsTransferLog log) :
    transferOf? txHash log nonFungible ≠ none := by
  obtain ⟨hsignature, ⟨hlength, hdata⟩ | ⟨hlength, hdata⟩⟩ := h
  · obtain ⟨signature, sender, recipient, htopics⟩ := List.length_eq_three.mp hlength
    rw [htopics, List.head?_cons, Option.some.injEq] at hsignature
    simp [transferOf?, htopics, hsignature, hdata]
  · obtain ⟨signature, indexed, htopics⟩ := List.exists_cons_of_length_eq_add_one hlength
    rw [htopics, List.length_cons, Nat.succ_inj] at hlength
    obtain ⟨sender, recipient, tokenId, rfl⟩ := List.length_eq_three.mp hlength
    rw [htopics, List.head?_cons, Option.some.injEq] at hsignature
    simp [transferOf?, htopics, hsignature, hdata]

theorem decodeEvent_transfer (h : log.topics.head? = some transferSignature) :
    decodeEvent? log = none := by
  obtain ⟨indexed, htopics⟩ := List.head?_eq_some_iff.mp h
  rw [decodeEvent?, htopics]
  dsimp only
  unfold decodeFields
  repeat rw [if_neg (by decide)]

theorem rowOf_cases (txHash : Hash) (known : Known) (log : Log) :
    (∃ row, rowOf txHash known log = .transfer row ∧ IsTransferLog log ∧
      TransferOf txHash known log row) ∨
    ∃ row, rowOf txHash known log = .event row ∧ ¬ IsTransferLog log ∧ EventOf txHash log row := by
  unfold rowOf
  split
  · next row hrow => exact .inl ⟨row, rfl, transferOf_some hrow⟩
  · next hnone =>
    refine .inr ⟨_, rfl, fun hshape => transferOf_ne_none hshape hnone, ?_⟩
    exact ⟨rfl, rfl, rfl, rfl, rfl, decodeEvent_transfer⟩

/-! ## All logs -/

/-- Every log makes one row, in its turn, and the row says what the log says. -/
theorem interpret_splits (txHash : Hash) (logs : List Log) (known : Known) :
    let rows := interpret txHash logs known
    Splits txHash known logs rows.transfers rows.events ∧
      rows.transfers.length + rows.events.length = logs.length := by
  have hsplits : Splits txHash known logs (interpret txHash logs known).transfers
      (interpret txHash logs known).events := by
    unfold interpret
    dsimp only
    induction logs with
    | nil => exact .nil
    | cons log logs ih =>
        rcases rowOf_cases txHash known log with ⟨row, hrow, hshape, hof⟩ | ⟨row, hrow, hshape, hof⟩
        · rw [List.map_cons, hrow]
          exact .transfer hshape hof ih
        · rw [List.map_cons, hrow]
          exact .event hshape hof ih
  exact ⟨hsplits, hsplits.length⟩

/-- The logs that are token movements, with their transactions, in the order of the block. -/
def transferLogs (receipts : List Receipt) : List (Hash × Log) :=
  receipts.flatMap fun r => (r.logs.filter fun log => IsTransferLog log).map (Prod.mk r.txHash)

theorem transferOf_interpret (txHash : Hash) (known : Known) (logs : List Log) :
    List.Forall₂ (fun log row => TransferOf txHash known log row)
      (logs.filter fun log => IsTransferLog log) (interpret txHash logs known).transfers := by
  unfold interpret
  dsimp only
  induction logs with
  | nil => exact .nil
  | cons log logs ih =>
      rcases rowOf_cases txHash known log with ⟨row, hrow, hshape, hof⟩ | ⟨row, hrow, hshape, _⟩
      · rw [List.map_cons, hrow, List.filter_cons_of_pos (by simpa using hshape)]
        exact .cons hof ih
      · rw [List.map_cons, hrow, List.filter_cons_of_neg (by simpa using hshape)]
        exact ih

end Token

end ChainIngest
