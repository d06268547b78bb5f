import ChainIngest.Proofs.NestedRetries
import ChainIngest.Proofs.Scenes
import ChainIngest.Proofs.StoredDeltas
/-!
# What the balances of a store add up to

Every block that was ever stored had passed its check: its balance changes add
up to what it issues less what it burns.  The store keeps these changes once and
counts those of canonical blocks, so all balances together are what the canonical
chain has issued less what it has burned.

A block's changes are filed under 32-bit numbers.  What is beyond them is lost,
and the sum is short by it.
-/

namespace ChainIngest.Importer

variable {tree : BlockTree} {node : Conduct} {c : Config} {schedule : Balance.Schedule}
  {s : Store} {w w' : World}

/-! ## Balance sheets of blocks -/

def BlockTree.netIssue (tree : BlockTree) (schedule : Balance.Schedule) (b : Block) : Word :=
  ((tree.sheet? schedule b).map fun sheet => sheet.issuance - sheet.feesBurned).getD 0

theorem verified_of_normalize {block : Block} {entry : ImportEntry} {rows : BlockRows}
    (h : Runs node (normalize c block entry) w (some (.ok rows)) w') :
    (Balance.compute (.ofRows rows) c.schedule).verify = .ok () := by
  obtain ⟨log, hsays⟩ := exists_says h
  cases worksOut_of_normalize hsays with
  | intro _ _ _ _ _ _ hverifies _ _ => exact hverifies

/-! ## Every stored block was checked -/

/-- Stored blocks whose balance sheets all passed the check. -/
def Checked (tree : BlockTree) (schedule : Balance.Schedule) (s : Store) : Prop :=
  ∀ hash row, s.blocks.get? hash = some row →
    ∃ sheet, tree.sheet? schedule row.block = some sheet ∧ sheet.verify = .ok ()

theorem Checked.commit {rows : BlockRows} {sheet : Balance.Sheet} (h : Checked tree schedule s)
    (hsheet : tree.sheet? schedule rows.block = some sheet) (hverified : sheet.verify = .ok ()) :
    Checked tree schedule (s.commit rows) := by
  intro hash row hrow
  rcases stored_of_commit hrow with ⟨_, hblock⟩ | ⟨old, hold, hblock⟩
  · rw [hblock]
    exact ⟨sheet, hsheet, hverified⟩
  · rw [hblock]
    exact h hash old hold

theorem Checked.markReorg (h : Checked tree schedule s) (ancestor : BlockId) (id : Nat)
    (now : Int) : Checked tree schedule (s.markReorg ancestor id now) := by
  intro hash row hrow
  obtain ⟨old, hold, hblock⟩ := stored_of_markReorg hrow
  rw [hblock]
  exact h hash old hold

theorem checked_of_reach {kind : Config → Prop} {at_work : Option Config}
    (hnode : tree.Admits node) (hkind : ∀ c, kind c → c.schedule = schedule)
    (h : Reach node kind at_work w) : Checked tree schedule w.store := by
  refine h.invariant (P := Checked tree schedule) ?_ ?_ ?_ ?_
  · intro hash row hrow
    cases hrow
  · intro id s s' htouched hchecked hash row hrow
    rw [htouched.blocks] at hrow
    exact hchecked hash row hrow
  · exact fun ancestor id now hchecked => hchecked.markReorg ancestor id now
  · intro c w w₁ w₂ entry rows hreach _ _ hrows hchecked
    have hsheet := sheet_of_derived hnode (derived_of_normalize hrows)
    rw [hkind c hreach.kind] at hsheet
    have hverified := verified_of_normalize hrows
    rw [hkind c hreach.kind] at hverified
    exact hchecked.commit hsheet hverified

/-! ## The changes that are counted -/

/-- The changes of a block that have a number of their own. -/
def BlockTree.numbered (tree : BlockTree) (schedule : Balance.Schedule) (b : Block) :
    List BalanceDelta :=
  (tree.deltas schedule b).take (2 ^ 32)

theorem index_of_deltas {b : Block} {i : Nat} {d : BalanceDelta}
    (h : (tree.deltas schedule b)[i]? = some d) : d.index = UInt32.ofNat i := by
  obtain ⟨cs, hcs⟩ := exists_deltasOf tree schedule b
  rw [hcs] at h
  exact Balance.index_of_deltasOf h

/-- The first change under a number is the one whose position it is. -/
theorem find?_deltas (b : Block) (i : UInt32) :
    ((tree.deltas schedule b).find? fun d => (d.blockHash, d.index) = (b.hash, i)) =
      (tree.deltas schedule b)[i.toNat]? := by
  have hi := i.toNat_lt
  -- below 2 ^ 32 a number tells the position; beyond, the numbers come round again
  have hkey : ∀ j d, (tree.deltas schedule b)[j]? = some d → j < 2 ^ 32 →
      ((d.blockHash, d.index) = (b.hash, i) ↔ j = i.toNat) := by
    intro j d hj hlt
    rw [Prod.mk.injEq, blockHash_of_mem_deltas (List.mem_of_getElem? hj), index_of_deltas hj,
      ← UInt32.toNat_inj, UInt32.toNat_ofNat_of_lt' hlt]
    exact and_iff_right rfl
  cases hfound : (tree.deltas schedule b)[i.toNat]? with
  | none =>
      rw [List.find?_eq_none]
      intro d hd
      obtain ⟨j, hj, rfl⟩ := List.getElem_of_mem hd
      have hlength := List.getElem?_eq_none_iff.mp hfound
      rw [decide_eq_true_eq, hkey j _ (List.getElem?_eq_getElem hj) (by omega)]
      omega
  | some d =>
      obtain ⟨hlength, hd⟩ := List.getElem?_eq_some_iff.mp hfound
      rw [List.find?_eq_some_iff_getElem]
      refine ⟨decide_eq_true ((hkey _ d hfound hi).mpr rfl), i.toNat, hlength, hd, ?_⟩
      intro j hj
      have hother := hkey j _ (List.getElem?_eq_getElem (by omega)) (by omega)
      rw [Bool.not_eq_true', decide_eq_false_iff_not, hother]
      omega

/-- The changes that count are the numbered ones of the canonical blocks. -/
theorem mem_canonicalDeltas (hfiled : Filed tree s) (hkept : Kept tree schedule s)
    {d : BalanceDelta} : d ∈ s.canonicalDeltas ↔
      d ∈ s.canonicalBlocks.flatMap (tree.numbered schedule) := by
  have hcanonical : ∀ {hash row}, s.blocks.get? hash = some row →
      (row.canonical = true ↔ row.block ∈ s.canonicalBlocks) := by
    intro hash row hrow
    obtain ⟨rfl, _⟩ := hfiled hash row hrow
    rw [hfiled.mem_canonicalBlocks, hrow, Option.some.injEq]
    cases row
    simp
  rw [hkept.canonicalDeltas_eq, Store.Table.mem_rows_iff, List.mem_flatMap]
  simp only [Store.Table.get?_filterKeys, Store.isCanonical?]
  constructor
  · rintro ⟨⟨hash, i⟩, hrow⟩
    split at hrow
    · next hflag =>
      obtain ⟨row, hstored, hcanon⟩ := Option.map_eq_some_iff.mp (of_decide_eq_true hflag)
      obtain ⟨rfl, _⟩ := hfiled hash row hstored
      rw [hkept, hstored, Option.bind_some, find?_deltas] at hrow
      refine ⟨row.block, (hcanonical hstored).mp hcanon, ?_⟩
      rw [BlockTree.numbered, List.mem_take_iff_getElem]
      obtain ⟨hlength, hd⟩ := List.getElem?_eq_some_iff.mp hrow
      exact ⟨i.toNat, lt_min i.toNat_lt hlength, hd⟩
    · cases hrow
  · rintro ⟨b, hb, hd⟩
    have hstored := hfiled.mem_canonicalBlocks.mp hb
    rw [BlockTree.numbered, List.mem_take_iff_getElem] at hd
    obtain ⟨i, hi, hd⟩ := hd
    have hsmall : (UInt32.ofNat i).toNat = i :=
      UInt32.toNat_ofNat_of_lt' (lt_of_lt_of_le hi (min_le_left _ _))
    refine ⟨(b.hash, UInt32.ofNat i), ?_⟩
    rw [if_pos (by simp [hstored]), hkept, hstored, Option.bind_some, find?_deltas, hsmall]
    exact List.getElem?_eq_some_iff.mpr ⟨_, hd⟩

theorem index_of_numbered {b : Block} {i : Nat} {d : BalanceDelta}
    (h : (tree.numbered schedule b)[i]? = some d) : d.index.toNat = i := by
  rw [BlockTree.numbered, List.getElem?_take] at h
  split at h
  · next hi => rw [index_of_deltas h, UInt32.toNat_ofNat_of_lt' hi]
  · cases h

theorem nodup_numbered (b : Block) : (tree.numbered schedule b).Nodup := by
  rw [List.nodup_iff_pairwise_ne, List.pairwise_iff_getElem]
  intro i j hi hj hlt hsame
  have hindex := index_of_numbered (List.getElem?_eq_getElem hi)
  have hindex' := index_of_numbered (List.getElem?_eq_getElem hj)
  rw [hsame] at hindex
  omega

theorem canonicalDeltas_perm (hfiled : Filed tree s) (hkept : Kept tree schedule s) :
    s.canonicalDeltas.Perm (s.canonicalBlocks.flatMap (tree.numbered schedule)) := by
  have hrows : s.canonicalDeltas.Nodup := by
    unfold Store.canonicalDeltas Store.Table.rows
    rw [List.filter_map]
    refine List.Nodup.map_on ?_ ((Store.Entries.nodup_of_ordered s.deltas.ordered).filter _)
    rintro ⟨key, d⟩ hentry ⟨key', d'⟩ hentry' hsame
    have hkey : ∀ {key d}, (key, d) ∈ s.deltas.entries → (d.blockHash, d.index) = key := by
      intro key d hmem
      have hrow := (hkept key).symm.trans (Store.Table.mem_entries_iff.mp hmem)
      obtain ⟨row, _, hfind⟩ := Option.bind_eq_some_iff.mp hrow
      have hfound := List.find?_some hfind
      exact of_decide_eq_true hfound
    obtain rfl : d = d' := hsame
    rw [← hkey (List.mem_of_mem_filter hentry), ← hkey (List.mem_of_mem_filter hentry')]
  have hblocks : (s.canonicalBlocks.flatMap (tree.numbered schedule)).Nodup := by
    rw [List.nodup_flatMap]
    refine ⟨fun b _ => nodup_numbered b, ?_⟩
    apply List.Pairwise.imp_of_mem _ hfiled.nodup_canonicalBlocks
    intro a b ha hb hne d hda hdb
    have ha := hfiled.mem_canonicalBlocks.mp ha
    have hb := hfiled.mem_canonicalBlocks.mp hb
    have hhash : a.hash = b.hash := (blockHash_of_mem_deltas (List.mem_of_mem_take hda)).symm.trans
      (blockHash_of_mem_deltas (List.mem_of_mem_take hdb))
    rw [hhash, hb] at ha
    cases ha
    exact hne rfl
  exact (List.perm_ext_iff_of_nodup hrows hblocks).mpr fun d => mem_canonicalDeltas hfiled hkept

/-! ## The sum of all balances -/

/-- Balances are sums of the changes that count; leaving out those of zero changes nothing. -/
theorem sum_canonicalBalances (s : Store) :
    (s.canonicalBalances.map Prod.snd).sum = (s.canonicalDeltas.map BalanceDelta.amount).sum := by
  have hsums := Balance.sum_rows_foldl s.canonicalDeltas .empty
  rw [show (Store.Table.empty : Store.Table Address Word).rows.sum = 0 from rfl, zero_add] at hsums
  rw [← hsums, Store.canonicalBalances, Store.Table.rows]
  exact Word.sum_filter_ne_zero Prod.snd _

theorem Checked.sum_deltas (h : Checked tree schedule s) (hfiled : Filed tree s) {b : Block}
    (hb : b ∈ s.canonicalBlocks) :
    ((tree.deltas schedule b).map BalanceDelta.amount).sum = tree.netIssue schedule b := by
  obtain ⟨sheet, hsheet, hverified⟩ := h _ _ (hfiled.mem_canonicalBlocks.mp hb)
  have htotal : sheet.expectedTotal = sheet.total := by
    unfold Balance.Sheet.verify at hverified
    split at hverified
    · assumption
    · cases hverified
  rw [deltas_of_sheet hsheet, ← Balance.total_eq_sum, ← htotal, BlockTree.netIssue, hsheet]
  rfl

/-- All balances, with what is lost for want of a number, are what the canonical blocks issue less
what they burn. -/
theorem Checked.sum_canonicalBalances_add_lost (h : Checked tree schedule s) (hfiled : Filed tree s)
    (hkept : Kept tree schedule s) :
    (s.canonicalBalances.map Prod.snd).sum +
        (s.canonicalBlocks.map fun b =>
          (((tree.deltas schedule b).drop (2 ^ 32)).map BalanceDelta.amount).sum).sum =
      (s.canonicalBlocks.map (tree.netIssue schedule)).sum := by
  have hbalances : (s.canonicalBalances.map Prod.snd).sum =
      (s.canonicalBlocks.map fun b =>
        ((tree.numbered schedule b).map BalanceDelta.amount).sum).sum := by
    rw [sum_canonicalBalances, ((canonicalDeltas_perm hfiled hkept).map _).sum_eq, List.map_flatMap,
      List.flatMap, List.sum_flatten, List.map_map]
    rfl
  rw [hbalances, ← List.sum_map_add]
  refine congrArg List.sum (List.map_congr_left fun b hb => ?_)
  rw [← h.sum_deltas hfiled hb, BlockTree.numbered, ← List.sum_append, ← List.map_append,
    List.take_append_drop]

theorem sum_canonicalBalances_of_reach {at_work : Option Config} (hnode : tree.Admits node)
    (h : Reach node (fun c => c.schedule = schedule) at_work w) :
    (w.store.canonicalBalances.map Prod.snd).sum +
        (w.store.canonicalBlocks.map fun b =>
          (((tree.deltas schedule b).drop (2 ^ 32)).map BalanceDelta.amount).sum).sum =
      (w.store.canonicalBlocks.map (tree.netIssue schedule)).sum := by
  have hchecked := checked_of_reach hnode (fun _ hc => hc) h
  have hkept := kept_of_reach hnode (fun _ hc => hc) h
  exact hchecked.sum_canonicalBalances_add_lost (filed_of_reach hnode h) hkept

/-- Whatever branches a consistent node showed, whatever failed and wherever steps were broken off:
all balances together are what the canonical blocks have issued less what they have burned.  Every
canonical block has a balance sheet that passes its check, and of a block with more changes than
there are numbers the sum lacks those without one. -/
theorem canonicalBalances_conserved {at_work : Option Config} (hnode : tree.Admits node)
    (h : Reach node (fun c => c.schedule = schedule) at_work w) :
    (∀ b ∈ w.store.canonicalBlocks, ∃ sheet, tree.sheet? schedule b = some sheet ∧
      sheet.verify = .ok () ∧ tree.netIssue schedule b = sheet.issuance - sheet.feesBurned) ∧
    (w.store.canonicalBalances.map Prod.snd).sum +
        (w.store.canonicalBlocks.map fun b =>
          (((tree.deltas schedule b).drop (2 ^ 32)).map BalanceDelta.amount).sum).sum =
      (w.store.canonicalBlocks.map (tree.netIssue schedule)).sum ∧
    ((∀ b ∈ w.store.canonicalBlocks, (tree.deltas schedule b).length ≤ 2 ^ 32) →
      (w.store.canonicalBalances.map Prod.snd).sum =
        (w.store.canonicalBlocks.map (tree.netIssue schedule)).sum) := by
  have hfiled := filed_of_reach hnode h
  have hchecked := checked_of_reach hnode (fun _ hc => hc) h
  have hissued := sum_canonicalBalances_of_reach hnode h
  refine ⟨fun b hb => ?_, hissued, fun hfew => ?_⟩
  · obtain ⟨sheet, hsheet, hverified⟩ := hchecked _ _ (hfiled.mem_canonicalBlocks.mp hb)
    exact ⟨sheet, hsheet, hverified, by rw [BlockTree.netIssue, hsheet]; rfl⟩
  · rw [← hissued, left_eq_add]
    apply List.sum_eq_zero
    intro lost hlost
    obtain ⟨b, hb, rfl⟩ := List.mem_map.mp hlost
    rw [List.drop_eq_nil_of_le (hfew b hb)]
    rfl

/-! Three blocks are canonical at last, and a fee was partly burned in one of them. -/

theorem canonicalBalances_conserved_fork : ∃ w,
    Reach movingNode (fun c => c.schedule = evenSettings.schedule) (some evenSettings) w ∧
      w.store.canonicalBlocks = lateBlocks ∧ w.store.blockCount = 4 ∧
      (∀ b ∈ w.store.canonicalBlocks,
        (movingTree.deltas evenSettings.schedule b).length ≤ 2 ^ 32) ∧
      (w.store.canonicalBalances.map Prod.snd).sum = 2 * 5 - 21000 * 10 := by
  obtain ⟨focus, hreach⟩ :=
    reach_afterMove (fun c => c.schedule = evenSettings.schedule) (c := evenSettings) rfl
  have hends : (afterMove evenSettings).outside.canonicalBlocks = lateBlocks ∧
      (afterMove evenSettings).outside.blockCount = 4 := by decide +kernel
  have hfew : ∀ b ∈ (afterMove evenSettings).outside.canonicalBlocks,
      (movingTree.deltas evenSettings.schedule b).length ≤ 2 ^ 32 := by
    rw [hends.1]
    decide +kernel
  have hsum : (lateBlocks.map (movingTree.netIssue evenSettings.schedule)).sum =
      2 * 5 - 21000 * 10 := by decide +kernel
  obtain ⟨_, _, hconserved⟩ := canonicalBalances_conserved admits_movingNode hreach
  refine ⟨_, hreach, hends.1, hends.2, hfew, (hconserved hfew).trans ?_⟩
  change ((afterMove evenSettings).outside.canonicalBlocks.map _).sum = _
  rw [hends.1, hsum]

/-! ## A block with more changes than numbers -/

theorem exists_runs_processBlock {block : Block} (hempty : block.transactions = [])
    (hsheet : (Balance.compute ⟨block, [], [], [], []⟩ c.schedule).verify = .ok ()) :
    ∃ w, Runs (promptConduct [block]) (processBlock c block) (.fresh c)
        (some (.ok (.committed block.id))) w ∧
      w.store.blocks.get? block.hash = some ⟨block, true⟩ := by
  have hnormalizes : Normalizes (promptConduct [block]) c block .empty :=
    normalizes_of_empty hempty (fun _ _ hreply => hreply) hsheet
  have hnew : NotImported block .empty := fun _ hnone => nomatch hnone
  obtain ⟨r, s', hendures⟩ :=
    exists_endures (responds_prompt _) (processBlock c block) ⟨.fresh c, 0, 0, 0⟩
  have hruns := runs_of_endures rfl rfl hendures
  cases settled_of_processBlock (serves_prompt _ _) hnormalizes hnew hendures with
  | exhausted hleft => simp [Strain.doomed] at hleft
  | committed _ _ hid _ hnormalized hstore =>
      refine ⟨_, hruns, ?_⟩
      rw [hstore]
      exact (stored_of_settled hid hnormalized).1

theorem exists_reach_of_verified {kind : Config → Prop} {block : Block} (hkind : kind c)
    (hempty : block.transactions = []) (hnumber : block.number = c.startBlock)
    (hsheet : (Balance.compute ⟨block, [], [], [], []⟩ c.schedule).verify = .ok ()) :
    ∃ w, Reach (promptConduct [block]) kind (some c) w ∧
      w.store.blocks.get? block.hash = some ⟨block, true⟩ := by
  obtain ⟨w, hprocess, hstored⟩ := exists_runs_processBlock hempty hsheet
  have hhead : Runs (promptConduct [block]) (Step.request .head) (.fresh c) (some (.ok none))
      (.fresh c) := .ask ⟨rfl, rfl⟩ .done
  have hlatest : plainAnswer [block] .latestBlockNumber = .ok block.number := rfl
  have habove : ¬ block.number < c.startBlock := by omega
  have hserved : plainAnswer [block] (.block (.number c.startBlock)) = .ok block := by
    simp [plainAnswer, hnumber]
  have hset : Runs (promptConduct [block]) (Step.request (.setHead (some block.id))) w
      (some (.ok ())) { w with head := some block.id } := .ask rfl .done
  have hstep : Runs (promptConduct [block]) (importNext c) (.fresh c)
      (some (.ok (.committed block.id))) { w with head := some block.id } := by
    refine hhead.bind ((runs_callNode_at_once hlatest.symm).bind ?_)
    dsimp only
    rw [if_neg habove]
    refine (runs_callNode_at_once hserved.symm).bind ?_
    exact hprocess.bind (hset.bind (runs_pure_iff.mpr ⟨.inr rfl, rfl⟩))
  exact ⟨_, (reach_start hkind).step hstep, hstored⟩

def crowdedBlock (ommers : Nat) : Block :=
  { plainBlock 1 ⟨1⟩ ⟨0⟩ with ommers := List.replicate ommers ⟨⟨9⟩, 0, ⟨0xb1⟩⟩ }

def crowdedTree (ommers : Nat) : BlockTree where
  Holds b := b = crowdedBlock ommers
  receipts _ := []
  trace _ _ := movedTrace
  unique := by
    rintro _ _ rfl rfl _
    rfl
  parent := by
    rintro _ _ rfl rfl h
    cases h

def crowdedSettings : Config :=
  { Config.standard with startBlock := 1, schedule := .constant 8 }

theorem rewards_crowdedBlock (n : Nat) : Balance.rewards (crowdedBlock n) (.constant 8) =
    ⟨⟨1⟩, ⟨1⟩, ⟨0⟩, Balance.minerReward 8 n, .block⟩ ::
      List.replicate n ⟨⟨1⟩, ⟨9⟩, ⟨0xb1⟩, 7, .ommer⟩ := by
  have hbase : (Balance.Schedule.constant 8).blockReward (crowdedBlock n).number = 8 := by
    change (Balance.Schedule.constant 8).blockReward 1 = 8
    decide +kernel
  have hamount : Balance.ommerReward 8 1 = 7 := by decide +kernel
  have hommer : Balance.ommerReward? (crowdedBlock n) 8 ⟨⟨9⟩, 0, ⟨0xb1⟩⟩ =
      some ⟨⟨1⟩, ⟨9⟩, ⟨0xb1⟩, 7, .ommer⟩ := by
    unfold Balance.ommerReward?
    rw [if_pos (Nat.zero_le _)]
    change (if Balance.ommerReward 8 1 = 0 then none
      else some (Reward.mk ⟨1⟩ ⟨9⟩ ⟨0xb1⟩ (Balance.ommerReward 8 1) .ommer)) = _
    rw [hamount]
    rfl
  have hpaid : ¬ ((crowdedBlock n).number = 0 ∨ (8 : Word) = 0) :=
    not_or.mpr ⟨Nat.one_ne_zero, by decide⟩
  have hommers : (crowdedBlock n).ommers = List.replicate n ⟨⟨9⟩, 0, ⟨0xb1⟩⟩ := rfl
  unfold Balance.rewards
  rw [hbase]
  dsimp only
  rw [if_neg hpaid, hommers, List.length_replicate, List.filterMap_replicate_of_some hommer]
  rfl

theorem sheet_crowdedBlock (n : Nat) : (crowdedTree n).sheet? (.constant 8) (crowdedBlock n) =
    some (Balance.compute ⟨crowdedBlock n, [], [], [], []⟩ (.constant 8)) := rfl

theorem amounts_crowdedBlock (n : Nat) (hreward : Balance.minerReward 8 n ≠ 0) :
    ((crowdedTree n).deltas (.constant 8) (crowdedBlock n)).map BalanceDelta.amount =
      Balance.minerReward 8 n :: List.replicate n 7 := by
  have hchanges (paid : List Reward) : Balance.changes ⟨crowdedBlock n, [], [], [], []⟩ paid =
      paid.map Balance.ofReward := by
    simp [Balance.changes, Balance.Input.executions]
  have hall : ∀ change ∈ (Balance.rewards (crowdedBlock n) (.constant 8)).map Balance.ofReward,
      decide (change.amount ≠ 0) = true := by
    intro change hchange
    rw [rewards_crowdedBlock, List.map_cons, List.map_replicate, List.mem_cons,
      List.mem_replicate] at hchange
    rcases hchange with rfl | ⟨_, rfl⟩
    · exact decide_eq_true hreward
    · decide
  rw [deltas_of_sheet (sheet_crowdedBlock n), Balance.compute,
    Balance.map_deltasOf (g := Balance.Change.amount) fun _ _ => rfl, hchanges,
    List.filter_eq_self.mpr hall, rewards_crowdedBlock, List.map_cons, List.map_replicate,
    List.map_cons, List.map_replicate]
  rfl

theorem lost_crowdedBlock {n : Nat} (hn : 0 < n) (hreward : Balance.minerReward 8 n ≠ 0) :
    ((((crowdedTree n).deltas (.constant 8) (crowdedBlock n)).drop n).map
      BalanceDelta.amount).sum = 7 := by
  obtain ⟨m, rfl⟩ := Nat.exists_eq_add_of_lt hn
  rw [List.map_drop, amounts_crowdedBlock _ hreward, List.drop_succ_cons, List.drop_replicate,
    Nat.zero_add, Nat.add_sub_cancel_left]
  rfl

theorem verify_crowdedBlock {n : Nat} (h : (Balance.minerReward 8 n).toNat + n * 7 < Word.bound) :
    (Balance.compute ⟨crowdedBlock n, [], [], [], []⟩ (.constant 8)).verify = .ok () := by
  apply Balance.verify_compute
  · rw [rewards_crowdedBlock, List.map_cons, List.sum_cons, List.map_replicate, List.sum_replicate]
    exact h
  · exact Int.natCast_pos.mpr (by decide)

theorem admits_crowded (n : Nat) : (crowdedTree n).Admits (promptConduct [crowdedBlock n]) := by
  intro focus call a ha
  have hheld : ∀ b ∈ [crowdedBlock n], (crowdedTree n).Holds b := by simp [crowdedTree]
  exact BlockTree.admits_plain hheld (fun _ => rfl) focus call a (.inl ha)

/-- An importer stores the block, and all balances lack what goes beyond the numbers. -/
theorem exists_reach_crowded {n : Nat}
    (h : (Balance.minerReward 8 n).toNat + n * 7 < Word.bound) :
    ∃ w, Reach (promptConduct [crowdedBlock n]) (fun c => c.schedule = .constant 8)
        (some crowdedSettings) w ∧
      w.store.canonicalBlocks = [crowdedBlock n] ∧
      (w.store.canonicalBalances.map Prod.snd).sum +
          ((((crowdedTree n).deltas (.constant 8) (crowdedBlock n)).drop (2 ^ 32)).map
            BalanceDelta.amount).sum =
        (crowdedTree n).netIssue (.constant 8) (crowdedBlock n) := by
  obtain ⟨w, hreach, hstored⟩ := @exists_reach_of_verified crowdedSettings
    (fun c => c.schedule = .constant 8) (crowdedBlock n) rfl rfl rfl (verify_crowdedBlock h)
  have hfiled := filed_of_reach (admits_crowded n) hreach
  have honly : w.store.canonicalBlocks = [crowdedBlock n] := by
    refine List.perm_singleton.mp ((List.perm_ext_iff_of_nodup hfiled.nodup_canonicalBlocks
      (List.nodup_singleton _)).mpr fun b => ?_)
    rw [List.mem_singleton, hfiled.mem_canonicalBlocks]
    constructor
    · exact fun hb => (hfiled _ _ hb).2
    · rintro rfl
      exact hstored
  refine ⟨w, hreach, honly, ?_⟩
  have hsum := sum_canonicalBalances_of_reach (admits_crowded n) hreach
  rw [honly] at hsum
  simpa using hsum

/-- Of a block with one change more than there are numbers the last one is lost. -/
theorem not_conserved_crowded :
    (crowdedTree (2 ^ 32)).Admits (promptConduct [crowdedBlock (2 ^ 32)]) ∧
    ∃ w, Reach (promptConduct [crowdedBlock (2 ^ 32)]) (fun c => c.schedule = .constant 8)
        (some crowdedSettings) w ∧
      (w.store.canonicalBalances.map Prod.snd).sum ≠
        (w.store.canonicalBlocks.map ((crowdedTree (2 ^ 32)).netIssue (.constant 8))).sum := by
  -- for each ommer the miner gets a thirty-second part of the base reward
  have hreward : Balance.minerReward 8 (2 ^ 32) = 2 ^ 30 + 8 := by decide +kernel
  obtain ⟨w, hreach, honly, hsum⟩ := exists_reach_crowded (n := 2 ^ 32) (by
    rw [hreward]
    decide +kernel)
  rw [lost_crowdedBlock (by decide) (by rw [hreward]; decide +kernel)] at hsum
  refine ⟨admits_crowded _, w, hreach, fun hsame => ?_⟩
  rw [honly, List.map_singleton, List.sum_singleton, ← hsum, left_eq_add] at hsame
  cases hsame

end ChainIngest.Importer
