import ChainIngest.Proofs.CommittedRows
import ChainIngest.Proofs.CommonAncestors
import ChainIngest.Proofs.Movements
/-!
# What a reorg changes

A reorg takes flags and moves one cursor.  Balances are not stored but added up over the
canonical blocks, so they follow the flags: an account loses what the blocks that were
flagged had booked for it, and no other account's balance moves.  All this holds of any
tables, whether their canonical blocks stand one on the other or not.
-/

namespace ChainIngest.Store

variable {s : Store} {ancestor : BlockId} {chain : Nat} {now : Int} {account : Address}

/-! ## Balances account by account -/

def bookedFor (s : Store) (account : Address) : Word :=
  ((s.canonicalDeltas.filter fun d => d.account = account).map BalanceDelta.amount).sum

def balance (s : Store) (account : Address) : Word :=
  ((s.canonicalBalances.find? fun e => e.1 = account).map Prod.snd).getD 0

theorem mem_canonicalBalances {v : Word} :
    (account, v) ∈ s.canonicalBalances ↔ v ≠ 0 ∧ v = s.bookedFor account := by
  have hsum := Table.rowwise_foldl_alter BalanceDelta.account
    (fun d old => old.getD 0 + d.amount) s.canonicalDeltas .empty account
  have hbooked : (s.canonicalDeltas.filter fun d => d.account = account).foldl
      (fun old d => some (old.getD 0 + d.amount)) none =
      if (s.canonicalDeltas.filter fun d => d.account = account).map BalanceDelta.amount = []
        then none else some (s.bookedFor account) := by
    rw [bookedFor, ← Word.foldl_none_add, List.foldl_map]
  simp only [canonicalBalances, List.mem_filter, Table.mem_entries_iff, decide_eq_true_eq]
  rw [and_comm, hsum.trans hbooked]
  refine and_congr_right fun hv => ?_
  split
  · next hnone =>
    have hzero : s.bookedFor account = 0 := by rw [bookedFor, hnone, List.sum_nil]
    rw [hzero]
    exact iff_of_false (Option.some_ne_none v).symm hv
  · rw [Option.some.injEq, eq_comm]

theorem nodup_canonicalBalances (s : Store) : (s.canonicalBalances.map Prod.fst).Nodup := by
  unfold canonicalBalances
  refine List.Nodup.map_on ?_ ((Entries.nodup_of_ordered (Table.ordered _)).filter _)
  rintro ⟨account, v⟩ hv ⟨other, v'⟩ hv' hsame
  obtain rfl : account = other := hsame
  obtain rfl := (mem_canonicalBalances.mp hv).2.trans (mem_canonicalBalances.mp hv').2.symm
  rfl

theorem balance_eq (s : Store) (account : Address) : s.balance account = s.bookedFor account := by
  have hfind : ∀ e, (s.canonicalBalances.find? fun e => e.1 = account) = some e ↔
      e ∈ s.canonicalBalances ∧ e.1 = account :=
    fun _ => Table.find?_eq_some_iff_of_nodup s.nodup_canonicalBalances
  unfold balance
  cases hfound : s.canonicalBalances.find? fun e => e.1 = account with
  | some e =>
      obtain ⟨hmem, rfl⟩ := (hfind e).mp hfound
      exact (mem_canonicalBalances.mp hmem).2
  | none =>
      by_contra hbooked
      have hlisted : (account, s.bookedFor account) ∈ s.canonicalBalances :=
        mem_canonicalBalances.mpr ⟨fun hzero => hbooked hzero.symm, rfl⟩
      rw [(hfind _).mpr ⟨hlisted, rfl⟩] at hfound
      cases hfound

/-! ## Flagged blocks -/

def orphans (s : Store) (ancestor : BlockId) : List Hash :=
  (s.blocks.entries.filter fun e => isOrphaned ancestor e.2).map Prod.fst

theorem mem_orphans {hash : Hash} : hash ∈ s.orphans ancestor ↔
    ∃ row, s.blocks.get? hash = some row ∧ row.canonical = true ∧
      ancestor.number < row.block.number := by
  simp [orphans, isOrphaned, Table.mem_entries_iff, and_comm]

theorem length_orphans (s : Store) (ancestor : BlockId) :
    (s.orphans ancestor).length = s.orphanCount ancestor := by
  rw [orphans, orphanCount, Table.rows, List.countP_map, List.length_map,
    List.countP_eq_length_filter]
  rfl

theorem isCanonical?_eq_true_of_orphan {hash : Hash} (h : hash ∈ s.orphans ancestor) :
    s.isCanonical? hash = some true := by
  obtain ⟨row, hrow, hcanonical, _⟩ := mem_orphans.mp h
  rw [isCanonical?, hrow, Option.map_some, hcanonical]

theorem get?_blocks_markReorg_eq (s : Store) (ancestor : BlockId) (chain : Nat) (now : Int)
    (hash : Hash) : (s.markReorg ancestor chain now).blocks.get? hash =
      (s.blocks.get? hash).map fun row =>
        { row with canonical := row.canonical && row.block.number ≤ ancestor.number } := by
  rw [Importer.get?_blocks_markReorg]
  congr 1
  funext ⟨block, canonical⟩
  simp only [isOrphaned]
  rcases Nat.lt_or_ge ancestor.number block.number with habove | hbelow
  · cases canonical <;> simp [habove]
  · simp [hbelow, Nat.not_lt.mpr hbelow]

theorem get?_queue_markReorg (s : Store) (ancestor : BlockId) (chain : Nat) (now : Int)
    (number : Nat) (hash : Hash) : (s.markReorg ancestor chain now).queue.get? (number, hash) =
      (s.queue.get? (number, hash)).map fun row =>
        { row with canonical := row.canonical && number ≤ ancestor.number } := by
  rw [markReorg, Table.get?_map]
  congr 1
  funext row
  rcases Nat.lt_or_ge ancestor.number number with habove | hbelow
  · simp [habove]
  · simp [hbelow, Nat.not_lt.mpr hbelow]

theorem isCanonical?_markReorg (hash : Hash) :
    (s.markReorg ancestor chain now).isCanonical? hash = some true ↔
      s.isCanonical? hash = some true ∧ hash ∉ s.orphans ancestor := by
  rw [isCanonical?, get?_blocks_markReorg_eq, isCanonical?, mem_orphans]
  cases s.blocks.get? hash with
  | none => simp
  | some row =>
      cases hcanonical : row.canonical <;> simp [hcanonical]

/-! ## Balances after a reorg -/

theorem canonicalDeltas_markReorg (s : Store) (ancestor : BlockId) (chain : Nat) (now : Int) :
    (s.markReorg ancestor chain now).canonicalDeltas =
      s.canonicalDeltas.filter fun d => d.blockHash ∉ s.orphans ancestor := by
  rw [canonicalDeltas, canonicalDeltas, List.filter_filter]
  refine List.filter_congr fun d _ => ?_
  simp only [isCanonical?_markReorg, Bool.decide_and, Bool.and_comm]

/-- What the flagged blocks had booked for an account is what it loses. -/
theorem bookedFor_markReorg (s : Store) (ancestor : BlockId) (chain : Nat) (now : Int)
    (account : Address) : (s.markReorg ancestor chain now).bookedFor account =
      s.bookedFor account - ((s.deltas.rows.filter fun d =>
        d.account = account ∧ d.blockHash ∈ s.orphans ancestor).map BalanceDelta.amount).sum := by
  let own := s.canonicalDeltas.filter fun d => d.account = account
  -- every change of a flagged block was canonical
  have hlost : (s.deltas.rows.filter fun d =>
      d.account = account ∧ d.blockHash ∈ s.orphans ancestor) =
      own.filter fun d => d.blockHash ∈ s.orphans ancestor := by
    simp only [own, canonicalDeltas, List.filter_filter]
    refine List.filter_congr fun d _ => ?_
    by_cases horphan : d.blockHash ∈ s.orphans ancestor
    · simp [horphan, isCanonical?_eq_true_of_orphan horphan]
    · simp [horphan]
  have hkept : ((s.markReorg ancestor chain now).canonicalDeltas.filter fun d =>
      d.account = account) = own.filter fun d => ¬ d.blockHash ∈ s.orphans ancestor := by
    rw [canonicalDeltas_markReorg]
    exact List.filter_comm _ _ _
  rw [bookedFor, hkept, hlost, eq_sub_iff_add_eq']
  exact List.sum_map_filter_add_sum_map_filter_not _ BalanceDelta.amount own

/-! ## The effect as a whole -/

theorem orphanCount_markReorg (s : Store) (ancestor : BlockId) (chain : Nat) (now : Int) :
    (s.markReorg ancestor chain now).orphanCount ancestor = 0 := by
  rw [← length_orphans, List.length_eq_zero_iff, List.eq_nil_iff_forall_not_mem]
  intro hash horphan
  obtain ⟨row, hrow, hcanonical, habove⟩ := mem_orphans.mp horphan
  rw [get?_blocks_markReorg_eq] at hrow
  obtain ⟨old, _, rfl⟩ := Option.map_eq_some_iff.mp hrow
  simp only [Bool.and_eq_true, decide_eq_true_eq] at hcanonical habove
  exact Nat.not_lt.mpr hcanonical.2 habove

theorem markReorg_markReorg (s : Store) (ancestor : BlockId) (chain : Nat) (now later : Int) :
    (s.markReorg ancestor chain now).markReorg ancestor chain later =
      { s.markReorg ancestor chain now with
        cursors := (s.markReorg ancestor chain now).cursors.insert chain
          ⟨chain, ancestor.number, ancestor.hash, later⟩ } := by
  have hblocks : ((s.markReorg ancestor chain now).markReorg ancestor chain later).blocks =
      (s.markReorg ancestor chain now).blocks := by
    apply Table.ext_get?
    intro hash
    rw [get?_blocks_markReorg_eq, get?_blocks_markReorg_eq, Option.map_map]
    congr 1
    funext row
    simp
  have hqueue : ((s.markReorg ancestor chain now).markReorg ancestor chain later).queue =
      (s.markReorg ancestor chain now).queue := by
    apply Table.ext_get?
    rintro ⟨number, hash⟩
    rw [get?_queue_markReorg, get?_queue_markReorg, Option.map_map]
    congr 1
    funext row
    simp
  exact congrArg₂ (fun blocks queue => { s.markReorg ancestor chain now with
    blocks := blocks, queue := queue,
    cursors := (s.markReorg ancestor chain now).cursors.insert chain
      ⟨chain, ancestor.number, ancestor.hash, later⟩ }) hblocks hqueue

/-- A reorg to an ancestor answers how many canonical blocks are above it.  It takes the flag
from blocks and import rows above the ancestor, sets the chain's cursor to it, and leaves all
else as it was.  Every account loses, modulo the words, what the blocks that lost the flag had
booked for it, and is listed just if that leaves it a balance.  The same reorg once more flags
nothing and writes nothing but the time into the cursor. -/
theorem markReorg_effect (s : Store) (ancestor : BlockId) (chain : Nat) (now : Int) :
    let flagged := (s.perform (.markReorg ancestor chain) now).1
    let after := (s.perform (.markReorg ancestor chain) now).2
    let lost (account : Address) : Word := ((s.deltas.rows.filter fun d =>
      d.account = account ∧ d.blockHash ∈ s.orphans ancestor).map BalanceDelta.amount).sum
    (flagged = (s.canonicalBlocks.filter fun b => ancestor.number < b.number).length ∧
      flagged = (s.orphans ancestor).length) ∧
    (∀ hash, after.blocks.get? hash = (s.blocks.get? hash).map fun row =>
      { row with canonical := row.canonical && row.block.number ≤ ancestor.number }) ∧
    (∀ number hash, after.queue.get? (number, hash) = (s.queue.get? (number, hash)).map fun row =>
      { row with canonical := row.canonical && number ≤ ancestor.number }) ∧
    (after.cursor? chain = some ⟨chain, ancestor.number, ancestor.hash, now⟩ ∧
      ∀ other, other ≠ chain → after.cursor? other = s.cursor? other) ∧
    after = { s with blocks := after.blocks, queue := after.queue, cursors := after.cursors } ∧
    ((after.canonicalBalances.map Prod.fst).Nodup ∧
      ∀ account, after.balance account = s.balance account - lost account ∧
        ∀ v, (account, v) ∈ after.canonicalBalances ↔
          v ≠ 0 ∧ v = s.balance account - lost account) ∧
    ∀ later, after.perform (.markReorg ancestor chain) later =
      (0, { after with
        cursors :=
          after.cursors.insert chain ⟨chain, ancestor.number, ancestor.hash, later⟩ }) := by
  intro flagged after lost
  have hbooked : ∀ account, after.bookedFor account = s.balance account - lost account :=
    fun account => (bookedFor_markReorg s ancestor chain now account).trans
      (congrArg (· - lost account) (balance_eq s account).symm)
  refine ⟨⟨?_, (length_orphans s ancestor).symm⟩, get?_blocks_markReorg_eq s ancestor chain now,
    get?_queue_markReorg s ancestor chain now, ⟨Table.get?_insert_self _ _ _, ?_⟩, rfl,
    ⟨nodup_canonicalBalances after, fun account => ⟨?_, fun v => ?_⟩⟩, fun later => ?_⟩
  · exact (Importer.orphanCount_eq s ancestor).trans List.countP_eq_length_filter
  · exact fun other hother => Table.get?_insert_of_ne _ _ hother.symm
  · rw [balance_eq, hbooked]
  · rw [mem_canonicalBalances, hbooked]
  · exact Prod.ext (orphanCount_markReorg s ancestor chain now)
      (markReorg_markReorg s ancestor chain now later)

end ChainIngest.Store
