import ChainIngest.Proofs.Conservation
import ChainIngest.Proofs.Recommit
import Mathlib.Algebra.Order.BigOperators.Group.List
import Mathlib.Tactic.Ring
/-!
# The accounting rule

A block's changes told again as movements of exact amounts: who gives, who receives, and
how much, in numbers that neither wrap nor have a sign.  The net change of an account is
what it receives less what it gives, as a signed word; an account that no movement touches
has none.  As long as all amounts of the block add up to less than half a word the signed
word is the exact difference.
-/

namespace ChainIngest

namespace Word

theorem ofNat_eq_zero {n : Nat} (h : n < bound) : BitVec.ofNat 256 n = 0 ↔ n = 0 := by
  have hmod : n % 2 ^ 256 = n := Nat.mod_eq_of_lt h
  rw [← BitVec.toNat_inj, BitVec.toNat_ofNat, hmod]
  rfl

theorem foldl_some_add (ws : List Word) (w : Word) :
    ws.foldl (fun old w => some (old.getD 0 + w)) (some w) = some (w + ws.sum) := by
  induction ws generalizing w with
  | nil => simp
  | cons v ws ih => rw [List.foldl_cons, Option.getD_some, ih, List.sum_cons, add_assoc]

theorem foldl_none_add (ws : List Word) :
    ws.foldl (fun old w => some (old.getD 0 + w)) none =
      if ws = [] then none else some ws.sum := by
  cases ws with
  | nil => rfl
  | cons w ws =>
      rw [List.foldl_cons, foldl_some_add, if_neg (List.cons_ne_nil w ws), List.sum_cons]
      simp

end Word

namespace Balance

/-! ## Movements -/

/-- An amount on its way between two accounts.  Nobody gives what is issued, and nobody
receives what is burned. -/
structure Movement where
  giver : Option Address
  receiver : Option Address
  amount : Nat
deriving DecidableEq

namespace Movement

def issue (receiver : Address) (amount : Nat) : Movement := ⟨none, some receiver, amount⟩

def burn (giver : Address) (amount : Nat) : Movement := ⟨some giver, none, amount⟩

def move (giver receiver : Address) (amount : Nat) : Movement :=
  ⟨some giver, some receiver, amount⟩

def Touches (account : Address) (m : Movement) : Prop :=
  m.amount ≠ 0 ∧ (m.giver = some account ∨ m.receiver = some account)

def inflow (account : Address) (m : Movement) : Nat :=
  if m.receiver = some account then m.amount else 0

def outflow (account : Address) (m : Movement) : Nat :=
  if m.giver = some account then m.amount else 0

theorem inflow_le (account : Address) (m : Movement) : m.inflow account ≤ m.amount := by
  unfold inflow
  split <;> omega

theorem outflow_le (account : Address) (m : Movement) : m.outflow account ≤ m.amount := by
  unfold outflow
  split <;> omega

end Movement

def received (account : Address) (ms : List Movement) : Nat :=
  (ms.map (Movement.inflow account)).sum

def given (account : Address) (ms : List Movement) : Nat :=
  (ms.map (Movement.outflow account)).sum

def volume (ms : List Movement) : Nat :=
  (ms.map Movement.amount).sum

theorem received_le_volume (account : Address) (ms : List Movement) :
    received account ms ≤ volume ms :=
  List.sum_le_sum fun m _ => m.inflow_le account

theorem given_le_volume (account : Address) (ms : List Movement) :
    given account ms ≤ volume ms :=
  List.sum_le_sum fun m _ => m.outflow_le account

/-! ## The movements of a block -/

def gasOf (receipt : Receipt) : Nat := receipt.gasUsed % Word.bound

def priceOf (tx : Transaction) (receipt : Receipt) : Nat :=
  (receipt.effectiveGasPrice.getD tx.gasPrice).toNat

def feeAmount (tx : Transaction) (receipt : Receipt) : Nat :=
  min (gasOf receipt * priceOf tx receipt) (Word.bound - 1)

/-- The miner's part of a fee; a price below the base fee leaves it nothing. -/
def tipAmount (baseFee : Option Word) (tx : Transaction) (receipt : Receipt) : Nat :=
  match baseFee with
  | some base => min (gasOf receipt * (priceOf tx receipt - base.toNat)) (Word.bound - 1)
  | none => feeAmount tx receipt

def payee? (tx : Transaction) (receipt : Receipt) : Option Address :=
  if receipt.success then tx.recipient.or receipt.contractAddress else none

def executionMovements (block : Block) (execution : Transaction × Receipt) : List Movement :=
  let (tx, receipt) := execution
  [.burn tx.sender (feeAmount tx receipt),
    .issue block.miner (tipAmount block.baseFee tx receipt)] ++
    (payee? tx receipt).toList.map fun account => .move tx.sender account tx.value.toNat

/-- Everything that moves in a block whose rewards are `paid`: the rewards, the fees, tips and
values of its transactions, its internal transfers, the endowments of contracts that other
contracts deployed, and the refunds of contracts that were destroyed. -/
def movements (input : Input) (paid : List Reward) : List Movement :=
  (paid.map fun r => .issue r.beneficiary r.amount.toNat) ++
    (input.block.transactions.zip input.receipts).flatMap (executionMovements input.block) ++
    (input.internal.map fun t => .move t.sender t.recipient t.amount.toNat) ++
    ((input.created.filter fun c => !c.isTopLevel).map fun c =>
      .move c.creator c.address c.amount.toNat) ++
    input.destroyed.map fun d => .move d.address d.refundAddress d.refundAmount.toNat

theorem feeAmount_eq (tx : Transaction) (receipt : Receipt) :
    feeAmount tx receipt = (fee tx receipt).toNat := by
  rw [fee, Word.toNat_satMul, BitVec.toNat_ofNat]
  rfl

theorem tipAmount_eq (baseFee : Option Word) (tx : Transaction) (receipt : Receipt) :
    tipAmount baseFee tx receipt = (tip baseFee tx receipt).toNat := by
  cases baseFee with
  | none => exact feeAmount_eq tx receipt
  | some base =>
      rw [tip, Word.toNat_satMul, Word.toNat_satSub, BitVec.toNat_ofNat]
      rfl

theorem payee?_eq (tx : Transaction) (receipt : Receipt) :
    payee? tx receipt = (recipient? tx receipt).map Prod.fst := by
  unfold payee? recipient?
  split
  · cases tx.recipient with
    | some account => rfl
    | none => cases receipt.contractAddress <;> rfl
  · rfl

theorem amount_lt_bound {input : Input} {paid : List Reward} {m : Movement}
    (h : m ∈ movements input paid) : m.amount < Word.bound := by
  have hexecution {e : Transaction × Receipt} (he : m ∈ executionMovements input.block e) :
      m.amount < Word.bound := by
    obtain ⟨tx, receipt⟩ := e
    simp only [executionMovements, List.mem_append, List.mem_cons, List.not_mem_nil, or_false,
      List.mem_map, feeAmount_eq, tipAmount_eq] at he
    rcases he with (rfl | rfl) | ⟨account, -, rfl⟩ <;> exact BitVec.isLt _
  simp only [movements, List.mem_append, List.mem_map, List.mem_flatMap] at h
  rcases h with (((⟨r, -, rfl⟩ | ⟨e, -, he⟩) | ⟨t, -, rfl⟩) | ⟨c, -, rfl⟩) | ⟨d, -, rfl⟩
  · exact r.amount.isLt
  · exact hexecution he
  · exact t.amount.isLt
  · exact c.amount.isLt
  · exact d.refundAmount.isLt

/-! ## What is booked -/

def Movement.entries (m : Movement) : List (Address × Word) :=
  m.giver.toList.map (fun account => (account, -BitVec.ofNat 256 m.amount)) ++
    m.receiver.toList.map fun account => (account, BitVec.ofNat 256 m.amount)

def Change.entry (c : Change) : Address × Word := (c.account, c.amount)

theorem entries_issue (account : Address) (amount : Word) (reason : DeltaReason)
    (tx : Option Hash) :
    (Movement.issue account amount.toNat).entries = [(credit account amount reason tx).entry] := by
  simp [Movement.issue, Movement.entries, Change.entry, credit]

theorem entries_burn (account : Address) (amount : Word) (reason : DeltaReason)
    (tx : Option Hash) :
    (Movement.burn account amount.toNat).entries = [(debit account amount reason tx).entry] := by
  simp [Movement.burn, Movement.entries, Change.entry, debit]

theorem entries_move (sender recipient : Address) (amount : Word) (reason : DeltaReason)
    (tx : Option Hash) :
    (Movement.move sender recipient amount.toNat).entries =
      (transfer sender recipient amount reason tx).map Change.entry := by
  simp [Movement.move, Movement.entries, Change.entry, transfer, debit, credit]

theorem entries_execution (block : Block) (e : Transaction × Receipt) :
    (executionMovements block e).flatMap Movement.entries =
      (ofExecution block e).map Change.entry := by
  obtain ⟨tx, receipt⟩ := e
  have hfee := entries_burn tx.sender (fee tx receipt) .feePayment (some tx.hash)
  have htip := entries_issue block.miner (tip block.baseFee tx receipt) .feeReceipt (some tx.hash)
  simp only [executionMovements, ofExecution, feeAmount_eq, tipAmount_eq, payee?_eq]
  cases recipient? tx receipt with
  | none => simp [hfee, htip]
  | some found =>
      have hvalue := entries_move tx.sender found.1 tx.value found.2 (some tx.hash)
      simp [hfee, htip, hvalue]

theorem entries_reward (r : Reward) :
    (Movement.issue r.beneficiary r.amount.toNat).entries = [(ofReward r).entry] :=
  entries_issue ..

theorem entries_internal (t : InternalTransaction) :
    (Movement.move t.sender t.recipient t.amount.toNat).entries =
      (ofInternal t).map Change.entry :=
  entries_move ..

theorem entries_destroyed (d : ContractDestroyed) :
    (Movement.move d.address d.refundAddress d.refundAmount.toNat).entries =
      (ofDestroyed d).map Change.entry :=
  entries_move ..

/-- Movements that are booked item by item are booked as a whole. -/
theorem entries_map {α : Type} {movement : α → Movement} {booked : α → List Change}
    (h : ∀ x, (movement x).entries = (booked x).map Change.entry) (xs : List α) :
    (xs.map movement).flatMap Movement.entries = (xs.flatMap booked).map Change.entry := by
  rw [List.flatMap_map, List.map_flatMap]
  exact List.flatMap_congr fun x _ => h x

theorem flatMap_ofCreated (cs : List ContractCreated) :
    cs.flatMap ofCreated = (cs.filter fun c => !c.isTopLevel).flatMap fun c =>
      transfer c.creator c.address c.amount .contractCreation (some c.txHash) := by
  induction cs with
  | nil => rfl
  | cons c cs ih =>
      rw [List.flatMap_cons, ih, List.filter_cons, ofCreated]
      cases c.isTopLevel <;> simp

/-- The movements of a block book what its changes book, in the same order. -/
theorem entries_movements (input : Input) (paid : List Reward) :
    (movements input paid).flatMap Movement.entries = (changes input paid).map Change.entry := by
  have hrewards : (paid.map fun r => Movement.issue r.beneficiary r.amount.toNat).flatMap
      Movement.entries = (paid.map ofReward).map Change.entry := by
    simp only [List.flatMap_map, entries_reward, List.map_map]
    exact List.flatMap_pure_eq_map (Change.entry ∘ ofReward) paid
  have hexecutions : ((input.block.transactions.zip input.receipts).flatMap
      (executionMovements input.block)).flatMap Movement.entries =
      (input.executions.flatMap (ofExecution input.block)).map Change.entry := by
    rw [List.flatMap_assoc, List.map_flatMap, Input.executions]
    exact List.flatMap_congr fun e _ => entries_execution input.block e
  simp only [movements, changes, List.flatMap_append, List.map_append, hrewards, hexecutions,
    flatMap_ofCreated]
  rw [entries_map fun t => entries_internal t, entries_map fun c => entries_move ..,
    entries_map fun d => entries_destroyed d]

/-! ## What is booked for an account -/

/-- The amounts booked for an account, zeros left out. -/
def amountsFor (account : Address) (es : List (Address × Word)) : List Word :=
  ((es.filter fun e => e.2 ≠ 0).filter fun e => e.1 = account).map Prod.snd

theorem amountsFor_append (account : Address) (es fs : List (Address × Word)) :
    amountsFor account (es ++ fs) = amountsFor account es ++ amountsFor account fs := by
  simp [amountsFor]

theorem sum_amountsFor (account : Address) (es : List (Address × Word)) :
    (amountsFor account es).sum = ((es.filter fun e => e.1 = account).map Prod.snd).sum := by
  rw [amountsFor, List.filter_comm, Word.sum_filter_ne_zero]

theorem amountsFor_eq_nil {account : Address} {es : List (Address × Word)} :
    amountsFor account es = [] ↔ ∀ e ∈ es, e.1 = account → e.2 = 0 := by
  simp only [amountsFor, List.map_eq_nil_iff, List.filter_eq_nil_iff, List.mem_filter,
    decide_eq_true_eq, and_imp]
  constructor
  · intro h e he hown
    by_contra hzero
    exact h e he hzero hown
  · intro h e he hzero hown
    exact hzero (h e he hown)

theorem mem_entries {m : Movement} {e : Address × Word} :
    e ∈ m.entries ↔
      (m.giver = some e.1 ∧ e.2 = -BitVec.ofNat 256 m.amount) ∨
        (m.receiver = some e.1 ∧ e.2 = BitVec.ofNat 256 m.amount) := by
  obtain ⟨account, w⟩ := e
  simp only [Movement.entries, List.mem_append, List.mem_map, Option.mem_toList, Prod.mk.injEq]
  constructor
  · rintro (⟨_, hgiver, rfl, rfl⟩ | ⟨_, hreceiver, rfl, rfl⟩)
    · exact .inl ⟨hgiver, rfl⟩
    · exact .inr ⟨hreceiver, rfl⟩
  · rintro (⟨hgiver, rfl⟩ | ⟨hreceiver, rfl⟩)
    · exact .inl ⟨account, hgiver, rfl, rfl⟩
    · exact .inr ⟨account, hreceiver, rfl, rfl⟩

theorem not_touches_iff {account : Address} {m : Movement} (h : m.amount < Word.bound) :
    (∀ e ∈ m.entries, e.1 = account → e.2 = 0) ↔ ¬ m.Touches account := by
  have hzero := Word.ofNat_eq_zero h
  constructor
  · rintro hentries ⟨hamount, hgiver | hreceiver⟩
    · have := hentries (account, -BitVec.ofNat 256 m.amount)
        (mem_entries.mpr (.inl ⟨hgiver, rfl⟩)) rfl
      exact hamount (hzero.mp (neg_eq_zero.mp this))
    · have := hentries (account, BitVec.ofNat 256 m.amount)
        (mem_entries.mpr (.inr ⟨hreceiver, rfl⟩)) rfl
      exact hamount (hzero.mp this)
  · rintro huntouched e he rfl
    by_cases hamount : m.amount = 0
    · rcases mem_entries.mp he with ⟨-, hword⟩ | ⟨-, hword⟩ <;> simp [hword, hzero.mpr hamount]
    · refine absurd ⟨hamount, ?_⟩ huntouched
      exact (mem_entries.mp he).imp And.left And.left

/-- Nothing is booked for an account just if no movement touches it. -/
theorem amountsFor_entries_eq_nil {account : Address} {ms : List Movement}
    (h : ∀ m ∈ ms, m.amount < Word.bound) :
    amountsFor account (ms.flatMap Movement.entries) = [] ↔ ∀ m ∈ ms, ¬ m.Touches account := by
  simp only [amountsFor_eq_nil, List.mem_flatMap]
  constructor
  · intro hentries m hm
    exact (not_touches_iff (h m hm)).mp fun e he => hentries e ⟨m, hm, he⟩
  · rintro huntouched e ⟨m, hm, he⟩
    exact (not_touches_iff (h m hm)).mpr (huntouched m hm) e he

theorem sum_side (account : Address) (side : Option Address) (w : Word) :
    (((side.toList.map fun x => (x, w)).filter fun e => e.1 = account).map Prod.snd).sum =
      if side = some account then w else 0 := by
  cases side with
  | none => simp
  | some x => by_cases h : x = account <;> simp [h]

theorem sum_entries (account : Address) (m : Movement) :
    (amountsFor account m.entries).sum =
      BitVec.ofInt 256 (m.inflow account - m.outflow account) := by
  rw [sum_amountsFor, Movement.entries, List.filter_append, List.map_append, List.sum_append,
    sum_side, sum_side, sub_eq_add_neg, add_comm, BitVec.ofInt_add, BitVec.ofInt_neg,
    BitVec.ofInt_natCast, BitVec.ofInt_natCast, Movement.inflow, Movement.outflow]
  congr 1
  · split <;> rfl
  · split <;> simp

theorem sum_amountsFor_entries (account : Address) (ms : List Movement) :
    (amountsFor account (ms.flatMap Movement.entries)).sum =
      BitVec.ofInt 256 (received account ms - given account ms) := by
  induction ms with
  | nil => rfl
  | cons m ms ih =>
      have hsplit : (received account (m :: ms) - given account (m :: ms) : Int) =
          (m.inflow account - m.outflow account) + (received account ms - given account ms) := by
        simp only [received, given, List.map_cons, List.sum_cons, Nat.cast_add]
        ring
      rw [List.flatMap_cons, amountsFor_append, List.sum_append, ih, sum_entries, hsplit,
        BitVec.ofInt_add]

/-! ## The net change of an account -/

theorem entries_deltasOf (block : BlockId) (cs : List Change) :
    (deltasOf block cs).map (fun d => (d.account, d.amount)) =
      (cs.map Change.entry).filter fun e => e.2 ≠ 0 := by
  have hnumber : (deltasOf block cs).map (fun d => (d.account, d.amount)) =
      (cs.filter fun c => c.amount ≠ 0).map Change.entry := map_deltasOf (fun _ _ => rfl) cs
  rw [hnumber, List.filter_map]
  rfl

/-- An account's net change is the sum of what is booked for it, if anything is. -/
theorem get?_net (input : Input) (schedule : Schedule) (account : Address) :
    let own := amountsFor account
      ((movements input (rewards input.block schedule)).flatMap Movement.entries)
    (compute input schedule).net.get? account = if own = [] then none else some own.sum := by
  intro own
  have hown : own = ((compute input schedule).deltas.filter
      fun d => d.account = account).map BalanceDelta.amount := by
    have hfilter := entries_deltasOf input.block.id (changes input (rewards input.block schedule))
    simp only [own, amountsFor, entries_movements, ← hfilter, List.filter_map, List.map_map]
    rfl
  have hrow := Store.Table.rowwise_foldl_alter BalanceDelta.account
    (fun d old => old.getD 0 + d.amount) (compute input schedule).deltas .empty account
  rw [Sheet.net, hrow, hown, ← Word.foldl_none_add, List.foldl_map]
  rfl

/-- An account has a net change just if something moves to or from it.  The change is what it
receives less what it gives, modulo the words, and exactly that, with its sign, while all that
moves in the block adds up to less than half a word. -/
theorem net_compute (input : Input) (schedule : Schedule) (account : Address) :
    let ms := movements input (rewards input.block schedule)
    let change := (compute input schedule).net.get? account
    (change = none ↔ ∀ m ∈ ms, ¬ m.Touches account) ∧
      change.getD 0 = BitVec.ofInt 256 (received account ms - given account ms) ∧
      (volume ms < 2 ^ 255 →
        (change.getD 0).toInt = received account ms - given account ms) := by
  intro ms change
  have hnet : change = if amountsFor account (ms.flatMap Movement.entries) = [] then none
      else some (amountsFor account (ms.flatMap Movement.entries)).sum :=
    get?_net input schedule account
  have hsum := sum_amountsFor_entries account ms
  have hword : change.getD 0 = BitVec.ofInt 256 (received account ms - given account ms) := by
    rw [hnet, ← hsum]
    split
    · next hnil => rw [hnil]; rfl
    · rfl
  refine ⟨?_, hword, fun hvolume => ?_⟩
  · rw [← amountsFor_entries_eq_nil fun m hm => amount_lt_bound hm, hnet]
    split
    · next hnil => exact iff_of_true rfl hnil
    · next hbooked => exact iff_of_false (Option.some_ne_none _) hbooked
  · have hin := received_le_volume account ms
    have hout := given_le_volume account ms
    rw [hword]
    exact BitVec.toInt_ofInt_eq_self (by decide) (by omega) (by omega)

/-- The miner sends all three transactions: it deploys a contract, which deploys another, it
sends to itself, and it fails. -/
def tangledInput : Input :=
  let miner : Address := ⟨7⟩
  let tx (n : BitVec 256) (recipient : Option Address) (value price : Word) : Transaction :=
    ⟨⟨n⟩, ⟨1⟩, 0, miner, recipient, value, 0, price, 0, [], ⟨0, 0, 0⟩⟩
  { block := ⟨1, ⟨1⟩, ⟨0⟩, 0, miner, 0, 0, some 10, [⟨⟨2⟩, 0, ⟨9⟩⟩],
      [tx 11 none 4000 12, tx 12 (some miner) 5 3, tx 13 (some ⟨8⟩) 77 10]⟩
    receipts := [{ Receipt.plain ⟨11⟩ true 100 with contractAddress := some ⟨8⟩ },
      { Receipt.plain ⟨12⟩ true 10 with effectiveGasPrice := some 15 },
      .plain ⟨13⟩ false 7]
    internal := [⟨⟨11⟩, 1, ⟨8⟩, miner, 30⟩]
    created := [⟨⟨11⟩, 0, miner, ⟨8⟩, [], 4000, default, default⟩,
      ⟨⟨11⟩, 2, ⟨8⟩, ⟨9⟩, [], 40, default, default⟩]
    destroyed := [⟨⟨11⟩, 3, ⟨9⟩, miner, 40⟩] }

theorem net_compute_tangled :
    volume (movements tangledInput (rewards tangledInput.block (.constant 3200))) < 2 ^ 255 ∧
      (((compute tangledInput (.constant 3200)).net.get? ⟨7⟩).getD 0).toInt =
        3300 + (200 + 50) - (1200 + 150 + 70) + (5 - 5) - 4000 + 30 + 40 := by
  have hvolume : volume (movements tangledInput
      (rewards tangledInput.block (.constant 3200))) < 2 ^ 255 := by decide +kernel
  refine ⟨hvolume, ((net_compute tangledInput (.constant 3200) ⟨7⟩).2.2 hvolume).trans ?_⟩
  decide +kernel

end Balance

end ChainIngest
