import ChainIngest.Balance.Ledger
import ChainIngest.Proofs.Tables
import Mathlib.Algebra.BigOperators.Group.List.Basic
import Mathlib.Data.BitVec
import Mathlib.Tactic.Abel
/-!
# Conservation of value

Sums of signed words wrap, so they are sums in the ring of words, where every
debit cancels its credit whatever the amounts and whichever accounts coincide.
What is left of a block's changes is what it issues less what it burns.  Rewards
and burned fees are added up with saturation instead; the two ways of adding
agree as long as the exact sums fit a word.
-/

namespace ChainIngest

namespace Word

theorem satSub_eq_sub {a b : Word} (h : b.toNat ≤ a.toNat) : satSub a b = a - b := by
  apply BitVec.eq_of_toNat_eq
  rw [toNat_satSub, BitVec.toNat_sub_of_le (BitVec.le_def.mpr h)]

theorem satMul_le_satMul {a b c : Word} (h : b.toNat ≤ c.toNat) :
    (satMul a b).toNat ≤ (satMul a c).toNat := by
  have hmul : a.toNat * b.toNat ≤ a.toNat * c.toNat := Nat.mul_le_mul_left _ h
  rw [toNat_satMul, toNat_satMul]
  omega

theorem satAdd_eq_add {a b : Word} (h : a.toNat + b.toNat < bound) : satAdd a b = a + b := by
  apply BitVec.eq_of_toNat_eq
  rw [toNat_satAdd, BitVec.toNat_add_of_lt h]
  omega

/-- Adding up with saturation is adding up with wrapping while the exact sum fits a word. -/
theorem foldl_satAdd_eq {α : Type} (f : α → Word) (xs : List α) (a : Word)
    (h : a.toNat + (xs.map fun x => (f x).toNat).sum < bound) :
    xs.foldl (fun sum x => satAdd sum (f x)) a = a + (xs.map f).sum := by
  induction xs generalizing a with
  | nil => simp
  | cons x xs ih =>
      simp only [List.map_cons, List.sum_cons] at h ⊢
      have hstep : satAdd a (f x) = a + f x := satAdd_eq_add (by omega)
      have hnat : (a + f x).toNat = a.toNat + (f x).toNat :=
        BitVec.toNat_add_of_lt (by unfold bound at h; omega)
      rw [List.foldl_cons, hstep, ih (a + f x) (by omega), add_assoc]

theorem foldl_add_eq_sum {α : Type} (f : α → Word) (xs : List α) (a : Word) :
    xs.foldl (fun sum x => sum + f x) a = a + (xs.map f).sum := by
  induction xs generalizing a with
  | nil => simp
  | cons x xs ih => rw [List.foldl_cons, ih, List.map_cons, List.sum_cons, add_assoc]

theorem sum_filter_ne_zero {α : Type} (f : α → Word) (xs : List α) :
    ((xs.filter fun x => f x ≠ 0).map f).sum = (xs.map f).sum := by
  induction xs with
  | nil => rfl
  | cons x xs ih =>
      rw [List.filter_cons, List.map_cons, List.sum_cons, ← ih]
      split
      · rw [List.map_cons, List.sum_cons]
      · next hzero =>
        have hzero : f x = 0 := by simpa using hzero
        rw [hzero, zero_add]

end Word

namespace Balance

/-! ## Fees -/

theorem tip_le_fee (baseFee : Option Word) (tx : Transaction) (receipt : Receipt) :
    (tip baseFee tx receipt).toNat ≤ (fee tx receipt).toNat := by
  cases baseFee with
  | none => exact Nat.le_refl _
  | some base =>
      apply Word.satMul_le_satMul
      rw [Word.toNat_satSub]
      exact Nat.sub_le _ _

theorem burned_eq_sub (baseFee : Option Word) (tx : Transaction) (receipt : Receipt) :
    burned baseFee tx receipt = fee tx receipt - tip baseFee tx receipt :=
  Word.satSub_eq_sub (tip_le_fee baseFee tx receipt)

theorem toNat_burned (baseFee : Option Word) (tx : Transaction) (receipt : Receipt) :
    ((burned baseFee tx receipt).toNat : Int) =
      (fee tx receipt).toNat - (tip baseFee tx receipt).toNat := by
  have hle := tip_le_fee baseFee tx receipt
  rw [burned, Word.toNat_satSub]
  omega

/-! ## Sums of changes -/

def sumOf (cs : List Change) : Word := (cs.map Change.amount).sum

@[simp] theorem sumOf_nil : sumOf [] = 0 := rfl

@[simp] theorem sumOf_cons (c : Change) (cs : List Change) :
    sumOf (c :: cs) = c.amount + sumOf cs := by
  simp [sumOf]

@[simp] theorem sumOf_append (cs ds : List Change) : sumOf (cs ++ ds) = sumOf cs + sumOf ds := by
  simp [sumOf]

theorem sumOf_flatMap {α : Type} (f : α → List Change) (xs : List α) :
    sumOf (xs.flatMap f) = (xs.map fun x => sumOf (f x)).sum := by
  induction xs with
  | nil => rfl
  | cons x xs ih => rw [List.flatMap_cons, sumOf_append, ih, List.map_cons, List.sum_cons]

/-- A source whose every item moves value between accounts adds nothing. -/
theorem sumOf_flatMap_eq_zero {α : Type} {f : α → List Change} (h : ∀ x, sumOf (f x) = 0)
    (xs : List α) : sumOf (xs.flatMap f) = 0 := by
  rw [sumOf_flatMap]
  apply List.sum_eq_zero
  intro w hw
  obtain ⟨x, _, rfl⟩ := List.mem_map.mp hw
  exact h x

theorem sumOf_transfer (sender recipient : Address) (amount : Word) (reason : DeltaReason)
    (tx : Option Hash) : sumOf (transfer sender recipient amount reason tx) = 0 := by
  simp [transfer, debit, credit]

theorem sumOf_ofInternal (t : InternalTransaction) : sumOf (ofInternal t) = 0 :=
  sumOf_transfer ..

theorem sumOf_ofCreated (c : ContractCreated) : sumOf (ofCreated c) = 0 := by
  unfold ofCreated
  split
  · rfl
  · exact sumOf_transfer ..

theorem sumOf_ofDestroyed (d : ContractDestroyed) : sumOf (ofDestroyed d) = 0 :=
  sumOf_transfer ..

/-- A transaction loses the burned part of its fee, whether or not it moves its value. -/
theorem sumOf_ofExecution (block : Block) (e : Transaction × Receipt) :
    sumOf (ofExecution block e) = -burned block.baseFee e.1 e.2 := by
  obtain ⟨tx, receipt⟩ := e
  rw [burned_eq_sub]
  simp only [ofExecution]
  cases recipient? tx receipt with
  | none => simp only [sumOf_cons, sumOf_nil, debit, credit]; abel
  | some found => simp only [sumOf_cons, sumOf_transfer, debit, credit]; abel

theorem sumOf_ofReward (paid : List Reward) :
    sumOf (paid.map ofReward) = (paid.map Reward.amount).sum := by
  simp only [sumOf, List.map_map]
  rfl

/-- All changes of a block add up to the rewards less the burned parts of the fees. -/
theorem sumOf_changes (input : Input) (paid : List Reward) :
    sumOf (changes input paid) = (paid.map Reward.amount).sum -
      (input.executions.map fun e => burned input.block.baseFee e.1 e.2).sum := by
  have hfees : sumOf (input.executions.flatMap (ofExecution input.block)) =
      -(input.executions.map fun e => burned input.block.baseFee e.1 e.2).sum := by
    rw [sumOf_flatMap]
    simp only [sumOf_ofExecution]
    induction input.executions with
    | nil => simp
    | cons e es ih => rw [List.map_cons, List.sum_cons, ih, List.map_cons, List.sum_cons]; abel
  simp only [changes, sumOf_append, sumOf_ofReward, hfees,
    sumOf_flatMap_eq_zero sumOf_ofInternal, sumOf_flatMap_eq_zero sumOf_ofCreated,
    sumOf_flatMap_eq_zero sumOf_ofDestroyed]
  abel

/-! ## The balance sheet -/

theorem getElem?_deltasOf (block : BlockId) (cs : List Change) (i : Nat) :
    (deltasOf block cs)[i]? =
      (cs.filter fun c => c.amount ≠ 0)[i]?.map (Change.toDelta block i) := by
  rw [deltasOf, List.getElem?_mapIdx]

theorem map_deltasOf {α : Type} {f : BalanceDelta → α} {g : Change → α} {block : BlockId}
    (h : ∀ i c, f (Change.toDelta block i c) = g c) (cs : List Change) :
    (deltasOf block cs).map f = (cs.filter fun c => c.amount ≠ 0).map g := by
  apply List.ext_getElem?
  intro i
  simp only [List.getElem?_map, getElem?_deltasOf, Option.map_map]
  congr 1
  funext c
  exact h i c

theorem blockHash_of_deltasOf {block : BlockId} {cs : List Change} {d : BalanceDelta}
    (h : d ∈ deltasOf block cs) : d.blockHash = block.hash := by
  obtain ⟨i, hi, rfl⟩ := List.mem_mapIdx.mp h
  rfl

/-- A change has its place for a number, as far as there are numbers. -/
theorem index_of_deltasOf {block : BlockId} {cs : List Change} {i : Nat} {d : BalanceDelta}
    (h : (deltasOf block cs)[i]? = some d) : d.index = UInt32.ofNat i := by
  rw [getElem?_deltasOf, Option.map_eq_some_iff] at h
  obtain ⟨change, _, rfl⟩ := h
  rfl

/-- Leaving out the changes of zero and numbering the others keeps the sum. -/
theorem sum_deltasOf (block : BlockId) (cs : List Change) :
    ((deltasOf block cs).map BalanceDelta.amount).sum = sumOf cs := by
  have hnumber : (deltasOf block cs).map BalanceDelta.amount =
      (cs.filter fun c => c.amount ≠ 0).map Change.amount := map_deltasOf (fun _ _ => rfl) cs
  rw [hnumber, Word.sum_filter_ne_zero, sumOf]

theorem total_eq_sum (s : Sheet) : s.total = (s.deltas.map BalanceDelta.amount).sum := by
  rw [Sheet.total, Word.foldl_add_eq_sum, zero_add]

theorem total_compute (input : Input) (schedule : Schedule) :
    (compute input schedule).total = ((rewards input.block schedule).map Reward.amount).sum -
      (input.executions.map fun e => burned input.block.baseFee e.1 e.2).sum := by
  rw [total_eq_sum, compute, sum_deltasOf, sumOf_changes]

theorem sum_rows_alter {κ : Type} [Store.Key κ] (t : Store.Table κ Word) (key : κ)
    (amount : Word) :
    (t.alter key fun old => old.getD 0 + amount).rows.sum = t.rows.sum + amount := by
  obtain ⟨es, hordered⟩ := t
  simp only [Store.Table.alter, Store.Table.rows]
  clear hordered
  induction es with
  | nil => simp [Store.Entries.alter]
  | cons x rest ih =>
      obtain ⟨k, v⟩ := x
      simp only [Store.Entries.alter]
      split
      · simp only [List.map_cons, List.sum_cons, Option.getD_none]; abel
      · split
        · simp only [List.map_cons, List.sum_cons, Option.getD_some]; abel
        · simp only [List.map_cons, List.sum_cons, ih]; abel

theorem sum_rows_foldl (ds : List BalanceDelta) (t : Store.Table Address Word) :
    (ds.foldl (fun sums d => sums.alter d.account fun old => old.getD 0 + d.amount) t).rows.sum =
      t.rows.sum + (ds.map BalanceDelta.amount).sum := by
  induction ds generalizing t with
  | nil => simp
  | cons d ds ih => rw [List.foldl_cons, ih, sum_rows_alter, List.map_cons, List.sum_cons, add_assoc]

theorem sum_net (s : Sheet) : s.net.rows.sum = s.total := by
  rw [total_eq_sum, Sheet.net, sum_rows_foldl]
  simp [Store.Table.rows, Store.Table.empty]

/-! ## What is checked before a block is stored -/

theorem issuance_compute (input : Input) (schedule : Schedule)
    (h : ((rewards input.block schedule).map fun r => r.amount.toNat).sum < Word.bound) :
    (compute input schedule).issuance =
      ((rewards input.block schedule).map Reward.amount).sum := by
  have hfold := Word.foldl_satAdd_eq Reward.amount (rewards input.block schedule) 0
    (by simpa using h)
  rwa [zero_add] at hfold

theorem sum_fee_sub_tip (input : Input) :
    (input.executions.map fun e =>
        ((fee e.1 e.2).toNat : Int) - (tip input.block.baseFee e.1 e.2).toNat).sum =
      ((input.executions.map fun e => (burned input.block.baseFee e.1 e.2).toNat).sum : Nat) := by
  simp only [← toNat_burned]
  induction input.executions with
  | nil => rfl
  | cons e es ih => simp only [List.map_cons, List.sum_cons, ih, Nat.cast_add]

theorem feesBurned_compute (input : Input) (schedule : Schedule)
    (h : (input.executions.map fun e =>
      ((fee e.1 e.2).toNat : Int) - (tip input.block.baseFee e.1 e.2).toNat).sum < Word.bound) :
    (compute input schedule).feesBurned =
      (input.executions.map fun e => burned input.block.baseFee e.1 e.2).sum := by
  rw [sum_fee_sub_tip] at h
  have hexact := Int.ofNat_lt.mp h
  have hfold := Word.foldl_satAdd_eq (fun e => burned input.block.baseFee e.1 e.2)
    input.executions 0 (by simpa using hexact)
  rwa [zero_add] at hfold

theorem verify_compute (input : Input) (schedule : Schedule)
    (hrewards : ((rewards input.block schedule).map fun r => r.amount.toNat).sum < Word.bound)
    (hfees : (input.executions.map fun e =>
      ((fee e.1 e.2).toNat : Int) - (tip input.block.baseFee e.1 e.2).toNat).sum < Word.bound) :
    (compute input schedule).verify = .ok () := by
  have hsheet : (compute input schedule).expectedTotal = (compute input schedule).total := by
    rw [Sheet.expectedTotal, issuance_compute input schedule hrewards,
      feesBurned_compute input schedule hfees, total_compute]
  rw [Sheet.verify, if_pos hsheet]

/-- A sheet that was worked out passes the check as long as its rewards and its burned fees have
exact sums that fit a word.  The net changes of the accounts always add up like the changes
themselves. -/
theorem compute_conserves (input : Input) (schedule : Schedule) :
    (((rewards input.block schedule).map fun r => r.amount.toNat).sum < Word.bound →
      (input.executions.map fun e =>
        ((fee e.1 e.2).toNat : Int) - (tip input.block.baseFee e.1 e.2).toNat).sum < Word.bound →
      (compute input schedule).verify = .ok ()) ∧
    (compute input schedule).net.rows.sum = (compute input schedule).total :=
  ⟨verify_compute input schedule, sum_net _⟩

/-- One account mines, sends and receives; the first fee saturates, the second price is below
the base fee, and the first value is beyond the signed range. -/
def extremeInput : Input :=
  let account : Address := ⟨7⟩
  let tx (n : BitVec 256) (value price : Word) : Transaction :=
    ⟨⟨n⟩, ⟨1⟩, 0, account, some account, value, 0, price, 0, [], ⟨0, 0, 0⟩⟩
  { block := ⟨1, ⟨1⟩, ⟨0⟩, 0, account, 0, 0, some 10, [],
      [tx 11 (2 ^ 255 + 5) (2 ^ 250), tx 12 3 3]⟩
    receipts := [.plain ⟨11⟩ true (2 ^ 63), .plain ⟨12⟩ true 21000]
    internal := [⟨⟨12⟩, 1, account, account, 2 ^ 255 + 1⟩]
    created := []
    destroyed := [⟨⟨12⟩, 2, account, account, 2 ^ 256 - 1⟩] }

theorem compute_conserves_extremes :
    ((rewards extremeInput.block (.constant (2 ^ 255))).map fun r => r.amount.toNat).sum <
        Word.bound ∧
      (extremeInput.executions.map fun e =>
        ((fee e.1 e.2).toNat : Int) -
          (tip extremeInput.block.baseFee e.1 e.2).toNat).sum < Word.bound ∧
      (compute extremeInput (.constant (2 ^ 255))).verify = .ok () := by
  have hrewards : ((rewards extremeInput.block (.constant (2 ^ 255))).map
      fun r => r.amount.toNat).sum < Word.bound := by decide +kernel
  have hfees : (extremeInput.executions.map fun e =>
      ((fee e.1 e.2).toNat : Int) -
        (tip extremeInput.block.baseFee e.1 e.2).toNat).sum < Word.bound := by decide +kernel
  exact ⟨hrewards, hfees, (compute_conserves extremeInput _).1 hrewards hfees⟩

end Balance

end ChainIngest
