import ChainIngest.Proofs.Conservation
import Mathlib.Algebra.Order.BigOperators.Group.List
/-!
# Exact rewards

Rewards are worked out on words, where products and sums wrap and a difference
stops at zero.  A base reward below `2 ^ 128` leaves so much room that every
amount is the one of the rule on natural numbers.  An ommer eight blocks below
or further has lost all its eighths; a nearer one keeps at least one unit.
-/

namespace ChainIngest

namespace Word

theorem toNat_sum_of_lt {α : Type} {f : α → Word} {xs : List α}
    (h : (xs.map fun x => (f x).toNat).sum < bound) :
    (xs.map f).sum.toNat = (xs.map fun x => (f x).toNat).sum := by
  induction xs with
  | nil => rfl
  | cons x xs ih =>
      simp only [List.map_cons, List.sum_cons] at h ⊢
      have htail := ih (by omega)
      rw [BitVec.toNat_add_of_lt (by unfold bound at h; omega), htail]

end Word

namespace Balance

/-! ## The rule on natural numbers -/

/-- The loss of at most seven eighths, rounded down, is never everything. -/
theorem share_pos {base distance : Nat} (hbase : base ≠ 0) (h : distance ≤ 7) :
    1 ≤ base - base * distance / 8 := by
  have hloss : base * distance ≤ base * 7 := Nat.mul_le_mul_left base h
  omega

theorem share_eq_zero {base distance : Nat} (h : 7 < distance) :
    base - base * distance / 8 = 0 := by
  have hloss : base * 8 ≤ base * distance := Nat.mul_le_mul_left base h
  omega

theorem mul_lt_bound {base n : Nat} (hbase : base < 2 ^ 128) (hn : n < 2 ^ 64) :
    base * n < 2 ^ 192 :=
  calc base * n < 2 ^ 128 * 2 ^ 64 := Nat.mul_lt_mul'' hbase hn
    _ = 2 ^ 192 := (Nat.pow_add 2 128 64).symm

/-! ## Amounts in words -/

section Amounts

variable {base : Word}

theorem toNat_mul_ofNat (hbase : base.toNat < 2 ^ 128) {n : Nat} (hn : n < 2 ^ 64) :
    (base * BitVec.ofNat 256 n).toNat = base.toNat * n := by
  have hword : (BitVec.ofNat 256 n).toNat = n := by
    rw [BitVec.toNat_ofNat]
    omega
  have hproduct := mul_lt_bound hbase hn
  rw [BitVec.toNat_mul_of_lt (by rw [hword]; omega), hword]

theorem toNat_minerReward (hbase : base.toNat < 2 ^ 128) {ommers : Nat} (h : ommers < 2 ^ 64) :
    (minerReward base ommers).toNat = base.toNat + base.toNat * ommers / 32 := by
  have hproduct := mul_lt_bound hbase h
  have hshare : (base * BitVec.ofNat 256 ommers / 32).toNat = base.toNat * ommers / 32 := by
    rw [BitVec.toNat_udiv, toNat_mul_ofNat hbase h]
    rfl
  rw [minerReward, BitVec.toNat_add_of_lt (by omega), hshare]

theorem toNat_ommerReward (hbase : base.toNat < 2 ^ 128) {distance : Nat}
    (h : distance < 2 ^ 64) :
    (ommerReward base distance).toNat = base.toNat - base.toNat * distance / 8 := by
  rw [ommerReward, Word.toNat_satSub, BitVec.toNat_udiv, toNat_mul_ofNat hbase h]
  rfl

end Amounts

theorem Schedule.toNat_blockReward_lt {schedule : Schedule}
    (h : ∀ era ∈ schedule.eras, era.reward.toNat < 2 ^ 128) (number : Nat) :
    (schedule.blockReward number).toNat < 2 ^ 128 := by
  unfold Schedule.blockReward
  split
  · next era hera =>
    apply h
    exact List.mem_reverse.mp (List.mem_of_find?_eq_some hera)
  · decide

/-! ## Who is paid -/

structure Pays (block : Block) (kind : RewardKind) (hash : Hash) (beneficiary : Address)
    (amount : Nat) (r : Reward) : Prop where
  blockHash : r.blockHash = block.hash
  kind : r.kind = kind
  hash : r.hash = hash
  beneficiary : r.beneficiary = beneficiary
  amount : r.amount.toNat = amount

/-- The ommer does not lie above the block, and at most seven blocks below it. -/
def IsNear (block : Block) (ommer : Ommer) : Prop :=
  ommer.number ≤ block.number ∧ block.number - ommer.number ≤ 7

instance (block : Block) (ommer : Ommer) : Decidable (IsNear block ommer) :=
  inferInstanceAs (Decidable (_ ∧ _))

def share (base : Nat) (block : Block) (ommer : Ommer) : Nat :=
  base - base * (block.number - ommer.number) / 8

section Paid

variable {block : Block} {base : Word}

theorem ommerReward?_of_near (hbase : base.toNat < 2 ^ 128) (hpositive : base ≠ 0) {ommer : Ommer}
    (h : IsNear block ommer) : ∃ r, ommerReward? block base ommer = some r ∧
      Pays block .ommer ommer.hash ommer.miner (share base.toNat block ommer) r := by
  obtain ⟨hbelow, hnear⟩ := h
  have hamount := toNat_ommerReward hbase (show block.number - ommer.number < 2 ^ 64 by omega)
  have hleft := share_pos (by simpa [← BitVec.toNat_inj] using hpositive) hnear
  have hnonzero : ommerReward base (block.number - ommer.number) ≠ 0 := by
    intro hzero
    rw [hzero] at hamount
    simp at hamount
    omega
  refine ⟨⟨block.hash, ommer.hash, ommer.miner, _, .ommer⟩, ?_, rfl, rfl, rfl, rfl, hamount⟩
  rw [ommerReward?, if_pos hbelow]
  exact if_neg hnonzero

theorem ommerReward?_of_not_near (hbase : base.toNat < 2 ^ 128) (hnumber : block.number < 2 ^ 64)
    {ommer : Ommer} (h : ¬ IsNear block ommer) : ommerReward? block base ommer = none := by
  unfold ommerReward?
  split
  · next hbelow =>
    have hfar : 7 < block.number - ommer.number := by
      by_contra hnear
      exact h ⟨hbelow, by omega⟩
    have hzero : ommerReward base (block.number - ommer.number) = 0 := by
      apply BitVec.eq_of_toNat_eq
      rw [toNat_ommerReward hbase (by omega), share_eq_zero hfar]
      rfl
    rw [hzero, if_pos rfl]
  · rfl

theorem pays_near (hbase : base.toNat < 2 ^ 128) (hpositive : base ≠ 0)
    (hnumber : block.number < 2 ^ 64) (ommers : List Ommer) :
    List.Forall₂ (fun ommer r =>
        Pays block .ommer ommer.hash ommer.miner (share base.toNat block ommer) r)
      (ommers.filter fun ommer => IsNear block ommer)
      (ommers.filterMap (ommerReward? block base)) := by
  induction ommers with
  | nil => exact .nil
  | cons ommer ommers ih =>
      by_cases hnear : IsNear block ommer
      · obtain ⟨r, hr, hpays⟩ := ommerReward?_of_near hbase hpositive hnear
        rw [List.filter_cons_of_pos (by simpa using hnear), List.filterMap_cons_some hr]
        exact .cons hpays ih
      · rw [List.filter_cons_of_neg (by simpa using hnear),
          List.filterMap_cons_none (ommerReward?_of_not_near hbase hnumber hnear)]
        exact ih

theorem sum_amounts_le {near : List Ommer} {paid : List Reward} {base : Nat}
    (h : List.Forall₂ (fun ommer r =>
      Pays block .ommer ommer.hash ommer.miner (share base block ommer) r) near paid) :
    (paid.map fun r => r.amount.toNat).sum ≤ near.length * base := by
  induction h with
  | nil => simp
  | @cons ommer r near paid hpays _ ih =>
      have hle : r.amount.toNat ≤ base := hpays.amount ▸ Nat.sub_le ..
      simp only [List.map_cons, List.sum_cons, List.length_cons, Nat.add_mul]
      omega

end Paid

/-! ## The rewards of a block -/

/-- With base rewards below `2 ^ 128` the rewards of a block are exactly those of the rule on
natural numbers, and they are issued exactly. -/
theorem rewards_exact (input : Input) (schedule : Schedule)
    (hrewards : ∀ era ∈ schedule.eras, era.reward.toNat < 2 ^ 128)
    (hnumber : input.block.number < 2 ^ 64) (hommers : input.block.ommers.length < 2 ^ 64) :
    let block := input.block
    let base := (schedule.blockReward block.number).toNat
    let n := block.ommers.length
    let paid := rewards block schedule
    let near := block.ommers.filter fun ommer => IsNear block ommer
    let issuance := (compute input schedule).issuance.toNat
    (block.number = 0 ∨ base = 0 → paid = []) ∧
    (block.number ≠ 0 → base ≠ 0 →
      (base * n < Word.bound ∧ base + base * n / 32 < Word.bound ∧
        ∀ ommer ∈ block.ommers, base * (block.number - ommer.number) < Word.bound) ∧
      (∃ first rest, paid = first :: rest ∧
        Pays block .block block.hash block.miner (base + base * n / 32) first ∧
        List.Forall₂ (fun ommer r => Pays block .ommer ommer.hash ommer.miner
          (base - base * (block.number - ommer.number) / 8) r) near rest) ∧
      ∀ ommer ∈ near, 1 ≤ base - base * (block.number - ommer.number) / 8) ∧
    issuance = (paid.map fun r => r.amount.toNat).sum ∧
    issuance ≤ base + base * n / 32 + n * base := by
  intro block base n paid near issuance
  have hbase : base < 2 ^ 128 := schedule.toNat_blockReward_lt hrewards block.number
  have hproduct : base * n < 2 ^ 192 := mul_lt_bound hbase hommers
  have hnothing (h : block.number = 0 ∨ base = 0) : paid = [] := by
    apply if_pos
    simpa [base, ← BitVec.toNat_inj] using h
  have hsomething (hnonzero : block.number ≠ 0) (hpositive : base ≠ 0) :
      ∃ first rest, paid = first :: rest ∧
        Pays block .block block.hash block.miner (base + base * n / 32) first ∧
        List.Forall₂ (fun ommer r =>
          Pays block .ommer ommer.hash ommer.miner (share base block ommer) r) near rest := by
    have hword : schedule.blockReward block.number ≠ 0 := by
      simpa [base, ← BitVec.toNat_inj] using hpositive
    refine ⟨_, _, if_neg (not_or.mpr ⟨hnonzero, hword⟩), ?_, pays_near hbase hword hnumber _⟩
    exact ⟨rfl, rfl, rfl, rfl, toNat_minerReward hbase hommers⟩
  -- all rewards together are far from what a word holds
  have hsum : (paid.map fun r => r.amount.toNat).sum ≤ base + base * n / 32 + n * base := by
    by_cases hzero : block.number = 0 ∨ base = 0
    · rw [hnothing hzero]
      exact Nat.zero_le _
    · obtain ⟨hnonzero, hpositive⟩ := not_or.mp hzero
      obtain ⟨first, rest, hpaid, hfirst, hrest⟩ := hsomething hnonzero hpositive
      have hnear : near.length * base ≤ n * base :=
        Nat.mul_le_mul_right base (List.length_filter_le ..)
      have hommers := sum_amounts_le hrest
      rw [hpaid, List.map_cons, List.sum_cons, hfirst.amount]
      omega
  have hissuance : issuance = (paid.map fun r => r.amount.toNat).sum := by
    have hfits : (paid.map fun r => r.amount.toNat).sum < Word.bound := by
      rw [Nat.mul_comm n base] at hsum
      unfold Word.bound
      omega
    calc issuance = (paid.map Reward.amount).sum.toNat := by
          simp only [issuance, paid, block, issuance_compute input schedule hfits]
      _ = (paid.map fun r => r.amount.toNat).sum := Word.toNat_sum_of_lt hfits
  refine ⟨hnothing, fun hnonzero hpositive => ⟨⟨?_, ?_, ?_⟩, hsomething hnonzero hpositive, ?_⟩,
    hissuance, hissuance ▸ hsum⟩
  · unfold Word.bound
    omega
  · unfold Word.bound
    omega
  · intro ommer _
    have hdistance := mul_lt_bound hbase
      (lt_of_le_of_lt (Nat.sub_le block.number ommer.number) hnumber)
    unfold Word.bound
    omega
  · intro ommer hommer
    have hnear : IsNear block ommer := of_decide_eq_true (List.mem_filter.mp hommer).2
    exact share_pos hpositive hnear.2

/-- The largest base reward there is room for, and ommers at its height, one, seven and eight
blocks below it, and above it. -/
def ommeredInput : Input :=
  let ommer (n : BitVec 256) (number : Nat) : Ommer := ⟨⟨n⟩, number, ⟨n.setWidth 160⟩⟩
  { block := ⟨100, ⟨1⟩, ⟨0⟩, 0, ⟨7⟩, 0, 0, none,
      [ommer 11 100, ommer 12 92, ommer 13 93, ommer 14 101, ommer 15 99], []⟩
    receipts := []
    internal := []
    created := []
    destroyed := [] }

theorem rewards_exact_distances :
    (∀ era ∈ (Schedule.constant (2 ^ 128 - 1)).eras, era.reward.toNat < 2 ^ 128) ∧
      ommeredInput.block.number < 2 ^ 64 ∧ ommeredInput.block.ommers.length < 2 ^ 64 ∧
      (rewards ommeredInput.block (.constant (2 ^ 128 - 1))).map (fun r => r.hash) =
        [⟨1⟩, ⟨11⟩, ⟨13⟩, ⟨15⟩] ∧
      (compute ommeredInput (.constant (2 ^ 128 - 1))).issuance.toNat =
        (2 ^ 128 - 1) + (2 ^ 128 - 1) * 5 / 32 + (2 ^ 128 - 1) +
          ((2 ^ 128 - 1) - (2 ^ 128 - 1) * 7 / 8) + ((2 ^ 128 - 1) - (2 ^ 128 - 1) / 8) := by
  have hrewards : ∀ era ∈ (Schedule.constant (2 ^ 128 - 1)).eras, era.reward.toNat < 2 ^ 128 := by
    decide +kernel
  obtain ⟨_, _, hissuance, _⟩ :=
    rewards_exact ommeredInput (.constant (2 ^ 128 - 1)) hrewards (by decide) (by decide)
  refine ⟨hrewards, by decide, by decide, by decide +kernel, hissuance.trans ?_⟩
  decide +kernel

end Balance

end ChainIngest
