import ChainIngest.Proofs.RecordLayout
import ChainIngest.Proofs.TransactionRows
/-!
# All rows of a block arrive

Every key that the rows of a block are filed under is their own: frames and logs are
numbered within their transactions, changes within the block, and no transaction stands
twice.  So nothing is overwritten or left out when the rows are committed, and the
tables hold under the block and its transactions just these rows.
-/

namespace ChainIngest

namespace Store

/-! ## Rows with keys of their own -/

namespace Table

variable {κ ν : Type} [Key κ] [DecidableEq κ]

omit [Key κ] in
theorem find?_eq_some_iff_of_nodup {key : ν → κ} {rows : List ν} (h : (rows.map key).Nodup)
    {q : κ} {row : ν} : (rows.find? fun r => key r = q) = some row ↔ row ∈ rows ∧ key row = q := by
  constructor
  · intro hfind
    exact ⟨List.mem_of_find?_eq_some hfind, by simpa using List.find?_some hfind⟩
  · rintro ⟨hrow, rfl⟩
    obtain ⟨found, hfound⟩ : ∃ found, (rows.find? fun r => key r = key row) = some found := by
      rw [← Option.isSome_iff_exists, List.find?_isSome]
      exact ⟨row, hrow, decide_eq_true rfl⟩
    have hkey : key found = key row := by simpa using List.find?_some hfound
    rw [hfound, List.inj_on_of_nodup_map h (List.mem_of_find?_eq_some hfound) hrow hkey]

omit [Key κ] in
theorem lastUnder_eq_some_iff_of_nodup {key : ν → κ} {rows : List ν} (h : (rows.map key).Nodup)
    {q : κ} {row : ν} : lastUnder key rows q = some row ↔ row ∈ rows ∧ key row = q := by
  have hreverse : (rows.reverse.map key).Nodup := by
    rw [List.map_reverse, List.nodup_reverse]
    exact h
  rw [lastUnder, find?_eq_some_iff_of_nodup hreverse, List.mem_reverse]

/-- The part of a table whose keys are wanted is made of some rows, each under its own key. -/
def HoldsJust (t : Table κ ν) (keep : κ → Bool) (key : ν → κ) (rows : List ν) : Prop :=
  (t.filterKeys keep).entries.Perm (rows.map fun row => (key row, row))

omit [DecidableEq κ] in
theorem holdsJust_of_get? {t : Table κ ν} {keep : κ → Bool} {key : ν → κ} {rows : List ν}
    (hkeys : (rows.map key).Nodup) (hkeep : ∀ row ∈ rows, keep (key row) = true)
    (h : ∀ q row, keep q = true → (t.get? q = some row ↔ row ∈ rows ∧ key row = q)) :
    t.HoldsJust keep key rows := by
  have hpairs : (rows.map fun row => (key row, row)).Nodup := by
    apply List.Nodup.of_map Prod.fst
    rw [List.map_map]
    exact hkeys
  refine (List.perm_ext_iff_of_nodup
    (Entries.nodup_of_ordered (t.filterKeys keep).ordered) hpairs).mpr ?_
  rintro ⟨q, row⟩
  rw [mem_entries_iff, get?_filterKeys]
  constructor
  · intro hget
    split at hget
    · next hq =>
      obtain ⟨hrow, rfl⟩ := (h q row hq).mp hget
      exact List.mem_map_of_mem hrow
    · cases hget
  · intro hmem
    obtain ⟨row', hrow', hpair⟩ := List.mem_map.mp hmem
    obtain ⟨rfl, rfl⟩ := Prod.mk.inj hpair
    rw [if_pos (hkeep row' hrow')]
    exact (h _ _ (hkeep row' hrow')).mpr ⟨hrow', rfl⟩

theorem holdsJust_of_lastUnder {t : Table κ ν} {keep : κ → Bool} {key : ν → κ} {rows : List ν}
    (hkeys : (rows.map key).Nodup) (hkeep : ∀ row ∈ rows, keep (key row) = true)
    (h : ∀ q, keep q = true → t.get? q = lastUnder key rows q) : t.HoldsJust keep key rows := by
  refine holdsJust_of_get? hkeys hkeep fun q row hq => ?_
  rw [h q hq, lastUnder_eq_some_iff_of_nodup hkeys]

theorem holdsJust_foldl_insertNew {t : Table κ ν} {keep : κ → Bool} {key : ν → κ} {rows : List ν}
    (hkeys : (rows.map key).Nodup) (hkeep : ∀ row ∈ rows, keep (key row) = true)
    (hnone : ∀ q, keep q = true → t.get? q = none) :
    (rows.foldl (fun t row => t.insertNew (key row) row) t).HoldsJust keep key rows := by
  refine holdsJust_of_get? hkeys hkeep fun q row hq => ?_
  rw [get?_foldl_insertNew key (fun row => row), hnone q hq, Option.none_or, Option.map_id',
    find?_eq_some_iff_of_nodup hkeys]

end Table

/-! ## States of the writer -/

/-- Stores that are made from the empty one by writing. -/
inductive Written : Store → Prop where
  | empty : Written .empty
  | commit {s : Store} (rows : BlockRows) : Written s → Written (s.commit rows)
  | recordStatus {s : Store} (entry : ImportEntry) : Written s → Written (s.recordStatus entry)
  | markReorg {s : Store} (ancestor : BlockId) (chainId : Nat) (now : Int) :
      Written s → Written (s.markReorg ancestor chainId now)

/-- Whatever is written, every block stays filed under its own hash. -/
theorem Written.hash_eq {s : Store} (h : s.Written) {hash : Hash} {row : StoredBlock}
    (hrow : s.blocks.get? hash = some row) : row.block.hash = hash := by
  induction h generalizing row with
  | empty => cases hrow
  | commit _ _ ih =>
      rcases Importer.stored_of_commit hrow with ⟨hhash, hblock⟩ | ⟨old, hold, hblock⟩
      · rw [hblock]
        exact hhash
      · rw [hblock]
        exact ih hold
  | recordStatus _ _ ih => exact ih hrow
  | markReorg _ _ _ _ ih =>
      obtain ⟨old, hold, hblock⟩ := Importer.stored_of_markReorg hrow
      rw [hblock]
      exact ih hold

/-- A commit leaves one canonical block at its height. -/
theorem Written.eq_of_canonical {s : Store} (h : s.Written) {rows : BlockRows} {b : Block}
    (hb : b ∈ (s.commit rows).canonicalBlocks) (hnumber : b.number = rows.block.number) :
    b = rows.block := by
  obtain ⟨hash, hget⟩ := Importer.mem_canonicalBlocks_iff.mp hb
  by_cases hhash : rows.block.hash = hash
  · subst hhash
    rw [Importer.get?_blocks_commit_self] at hget
    cases hget
    rfl
  · rw [Importer.get?_blocks_commit_of_ne s hhash] at hget
    obtain ⟨old, hold, hrow⟩ := Option.map_eq_some_iff.mp hget
    split at hrow
    · cases hrow
    · next hkept =>
      subst hrow
      have hother : b.hash ≠ rows.block.hash := fun heq => hhash (heq ▸ h.hash_eq hold)
      exact absurd ⟨hnumber, hother⟩ hkept

end Store

namespace Importer

open Store (Table)

variable {node : Conduct} {c : Config} {block : Block} {entry : ImportEntry} {rows : BlockRows}
  {w w' : World}

/-! ## Keys of the rows of a block -/

/-- No two rows of a kind share a key. -/
structure Distinct (rows : BlockRows) : Prop where
  receipts : (rows.receipts.map Receipt.txHash).Nodup
  internal : (rows.internal.map fun t => (t.txHash, t.pc)).Nodup
  destroyed : (rows.destroyed.map fun d => (d.txHash, d.pc)).Nodup
  transfers : (rows.transfers.map fun t => (t.txHash, t.logIndex)).Nodup
  events : (rows.events.map fun e => (e.txHash, e.logIndex)).Nodup
  rewards : (rows.rewards.map fun r => (r.blockHash, r.hash)).Nodup
  deltas : (rows.deltas.map fun d => (d.blockHash, d.index)).Nodup

theorem map_key_eq {ν : Type} {tx : Hash} {txOf : ν → Hash} {place : ν → UInt32} {xs : List ν}
    (h : ∀ x ∈ xs, txOf x = tx) :
    xs.map (fun x => (txOf x, place x)) = (xs.map place).map (Prod.mk tx) := by
  rw [List.map_map]
  exact List.map_congr_left fun x hx => by rw [h x hx]; rfl

theorem nodup_map_mk {tx : Hash} {places : List UInt32} (h : places.Nodup) :
    (places.map (Prod.mk tx)).Nodup :=
  h.map fun _ _ heq => (Prod.mk.inj heq).2

theorem nodup_keys_append {ν : Type} {tx : Hash} {txs : List Hash} {txOf : ν → Hash}
    {place : ν → UInt32} {first others : List ν} (hfresh : tx ∉ txs)
    (hfirst : ∀ x ∈ first, txOf x = tx) (hplaces : (first.map place).Nodup)
    (hothers : ∀ x ∈ others, txOf x ∈ txs)
    (hrest : (others.map fun x => (txOf x, place x)).Nodup) :
    ((first ++ others).map fun x => (txOf x, place x)).Nodup := by
  rw [List.map_append, List.nodup_append']
  refine ⟨map_key_eq hfirst ▸ nodup_map_mk hplaces, hrest, ?_⟩
  intro key hkey hkey'
  obtain ⟨x, hx, rfl⟩ := List.mem_map.mp hkey
  obtain ⟨x', hx', heq⟩ := List.mem_map.mp hkey'
  have hsame : txOf x' = txOf x := (Prod.mk.inj heq).1
  apply hfresh
  rw [← hfirst x hx, ← hsame]
  exact hothers x' hx'

/-! ## Frames -/

theorem nodup_pc_of_extract {tx : Hash} {t : CallTrace} {out : Trace.Output}
    (hsize : t.size < 2 ^ 32) (h : Trace.extract tx t = .ok out) :
    (out.internal.map InternalTransaction.pc).Nodup ∧
      (out.destroyed.map ContractDestroyed.pc).Nodup := by
  obtain ⟨order, _, hlength, _, hrows⟩ := Trace.order_of_extract h
  have hnumbered := Trace.numbered_number (Nat.lt_of_le_of_lt hlength hsize)
  obtain ⟨hinternal, _, hdestroyed⟩ := Trace.rowsOf_eq_some_iff.mp hrows
  have hnodup : ∀ p, (((Trace.number 0 order).filter p).map Trace.pcOf).Nodup :=
    fun p => (hnumbered.pairwise_pcOf p).imp fun hlt => UInt32.ne_of_lt hlt
  rw [Trace.map_of_mapM (fun _ _ hrow => (Trace.of_internal? hrow).1) hinternal,
    Trace.map_of_mapM (fun _ _ hrow => (Trace.of_destroyed? hrow).1) hdestroyed]
  exact ⟨hnodup _, hnodup _⟩

theorem nodup_keys_of_extractAll {txs : List Hash} {traces : List CallTrace} {out : Trace.Output}
    (hnodup : txs.Nodup) (hsizes : ∀ t ∈ traces, t.size < 2 ^ 32)
    (h : extractAll txs traces = .ok out) :
    (out.internal.map fun t => (t.txHash, t.pc)).Nodup ∧
      (out.destroyed.map fun d => (d.txHash, d.pc)).Nodup := by
  induction txs generalizing traces out with
  | nil =>
      cases h
      exact ⟨.nil, .nil⟩
  | cons tx txs ih =>
      cases traces with
      | nil =>
          cases h
          exact ⟨.nil, .nil⟩
      | cons t traces =>
          obtain ⟨hfresh, hnodup⟩ := List.nodup_cons.mp hnodup
          obtain ⟨hsize, hsizes⟩ := List.forall_mem_cons.mp hsizes
          obtain ⟨first, others, hfirst, hothers, rfl⟩ := ok_of_extractAll_cons h
          obtain ⟨hpcs, hpcs'⟩ := nodup_pc_of_extract hsize hfirst
          obtain ⟨hinternal, hdestroyed⟩ := Trace.txHash_of_extract hfirst
          obtain ⟨htxs, htxs'⟩ := txHash_of_extractAll hothers
          obtain ⟨hrest, hrest'⟩ := ih hnodup hsizes hothers
          exact ⟨nodup_keys_append hfresh hinternal hpcs htxs hrest,
            nodup_keys_append hfresh hdestroyed hpcs' htxs' hrest'⟩

/-! ## Logs -/

theorem map_filterMap_sublist {α β γ : Type} {f : α → Option β} {g : α → γ} {k : β → γ}
    (hf : ∀ a b, f a = some b → k b = g a) (xs : List α) :
    ((xs.filterMap f).map k).Sublist (xs.map g) := by
  induction xs with
  | nil => exact .slnil
  | cons x xs ih =>
      rw [List.map_cons]
      cases hx : f x with
      | none =>
          rw [List.filterMap_cons_none hx]
          exact ih.cons _
      | some y =>
          rw [List.filterMap_cons_some hx, List.map_cons, hf x y hx]
          exact ih.cons_cons _

theorem logIndex_of_transferOf {tx : Hash} {log : Log} {nonFungible : Bool} {row : TokenTransfer}
    (h : Token.transferOf? tx log nonFungible = some row) : row.logIndex = log.index := by
  unfold Token.transferOf? at h
  split at h
  · split at h <;> cases h
    rfl
  · split at h <;> cases h
    rfl
  · cases h

theorem nodup_logIndex_of_interpret {tx : Hash} {logs : List Log} {known : Token.Known}
    (h : (logs.map Log.index).Nodup) :
    ((Token.interpret tx logs known).transfers.map TokenTransfer.logIndex).Nodup ∧
      ((Token.interpret tx logs known).events.map ContractEvent.logIndex).Nodup := by
  simp only [Token.interpret, List.filterMap_map]
  constructor
  · refine h.sublist (map_filterMap_sublist (fun log row hrow => ?_) logs)
    simp only [Function.comp_apply, Token.rowOf] at hrow
    split at hrow
    · next found hfound =>
      cases hrow
      exact logIndex_of_transferOf hfound
    · cases hrow
  · refine h.sublist (map_filterMap_sublist (fun log row hrow => ?_) logs)
    simp only [Function.comp_apply, Token.rowOf] at hrow
    split at hrow
    · cases hrow
    · cases hrow
      rfl

theorem txHash_of_interpretAll {receipts : List Receipt} {known : Token.Known} :
    (∀ t ∈ (interpretAll receipts known).transfers, t.txHash ∈ receipts.map Receipt.txHash) ∧
      ∀ e ∈ (interpretAll receipts known).events, e.txHash ∈ receipts.map Receipt.txHash := by
  constructor
  · intro t ht
    obtain ⟨rows, hrows, ht⟩ := List.mem_flatMap.mp ht
    obtain ⟨r, hr, rfl⟩ := List.mem_map.mp hrows
    exact (txHash_of_interpret.1 t ht) ▸ List.mem_map_of_mem hr
  · intro e he
    obtain ⟨rows, hrows, he⟩ := List.mem_flatMap.mp he
    obtain ⟨r, hr, rfl⟩ := List.mem_map.mp hrows
    exact (txHash_of_interpret.2 e he) ▸ List.mem_map_of_mem hr

theorem nodup_keys_of_interpretAll {receipts : List Receipt} {known : Token.Known}
    (hnodup : (receipts.map Receipt.txHash).Nodup)
    (hlogs : ∀ r ∈ receipts, (r.logs.map Log.index).Nodup) :
    ((interpretAll receipts known).transfers.map fun t => (t.txHash, t.logIndex)).Nodup ∧
      ((interpretAll receipts known).events.map fun e => (e.txHash, e.logIndex)).Nodup := by
  induction receipts with
  | nil => exact ⟨.nil, .nil⟩
  | cons r receipts ih =>
      obtain ⟨hfresh, hnodup⟩ := List.nodup_cons.mp hnodup
      obtain ⟨hlogs, hrest⟩ := List.forall_mem_cons.mp hlogs
      obtain ⟨hindexes, hindexes'⟩ := @nodup_logIndex_of_interpret r.txHash r.logs known hlogs
      obtain ⟨htransfers, hevents⟩ := ih hnodup hrest
      exact ⟨nodup_keys_append hfresh txHash_of_interpret.1 hindexes txHash_of_interpretAll.1 htransfers,
        nodup_keys_append hfresh txHash_of_interpret.2 hindexes' txHash_of_interpretAll.2 hevents⟩

/-! ## Rewards and changes -/

theorem hash_of_ommerReward {base : Word} {ommer : Ommer} {r : Reward}
    (h : Balance.ommerReward? block base ommer = some r) :
    (r.blockHash, r.hash) = (block.hash, ommer.hash) := by
  unfold Balance.ommerReward? at h
  split at h
  · dsimp only at h
    split at h
    · cases h
    · cases h
      rfl
  · cases h

theorem blockHash_of_rewards {schedule : Balance.Schedule} :
    ∀ r ∈ Balance.rewards block schedule, r.blockHash = block.hash := by
  intro r hr
  unfold Balance.rewards at hr
  dsimp only at hr
  split at hr
  · cases hr
  · rcases List.mem_cons.mp hr with rfl | hr
    · rfl
    · obtain ⟨ommer, _, hommer⟩ := List.mem_filterMap.mp hr
      exact (Prod.mk.inj (hash_of_ommerReward hommer)).1

theorem nodup_keys_of_rewards {schedule : Balance.Schedule}
    (h : (block.hash :: block.ommers.map Ommer.hash).Nodup) :
    ((Balance.rewards block schedule).map fun r => (r.blockHash, r.hash)).Nodup := by
  have hkeys : ((block.hash :: block.ommers.map Ommer.hash).map (Prod.mk block.hash)).Nodup :=
    h.map fun _ _ heq => (Prod.mk.inj heq).2
  unfold Balance.rewards
  dsimp only
  split
  · exact .nil
  · refine hkeys.sublist (List.Sublist.cons_cons _ ?_)
    rw [List.map_map]
    exact map_filterMap_sublist (fun _ _ => hash_of_ommerReward) block.ommers

/-- Numbers of fewer changes than there are numbers do not repeat. -/
theorem nodup_keys_of_deltasOf {id : BlockId} {cs : List Balance.Change}
    (h : (Balance.deltasOf id cs).length ≤ 2 ^ 32) :
    ((Balance.deltasOf id cs).map fun d => (d.blockHash, d.index)).Nodup := by
  unfold Balance.deltasOf at h ⊢
  rw [List.length_mapIdx] at h
  rw [List.Nodup, List.pairwise_map, List.pairwise_iff_getElem]
  intro i j hi hj hlt heq
  rw [List.length_mapIdx] at hi hj
  simp only [List.getElem_mapIdx, Balance.Change.toDelta, Prod.mk.injEq, true_and] at heq
  have hnat := congrArg UInt32.toNat heq
  rw [UInt32.toNat_ofNat', UInt32.toNat_ofNat'] at hnat
  omega

/-! ## The commit -/

theorem blockHash_of_derived (h : Derived node c block entry rows) :
    (∀ r ∈ rows.rewards, r.blockHash = block.hash) ∧
      ∀ d ∈ rows.deltas, d.blockHash = block.hash := by
  cases h with
  | intro => exact ⟨blockHash_of_rewards, fun _ => Balance.blockHash_of_deltasOf⟩

theorem distinct_of_derived (h : Derived node c block entry rows)
    (hsizes : ∀ tx ∈ txHashes block, ∀ t, node (some block.hash) (.trace tx) (.ok t) →
      t.size < 2 ^ 32)
    (hlogs : ∀ r ∈ rows.receipts, (r.logs.map Log.index).Nodup)
    (hommers : (block.hash :: block.ommers.map Ommer.hash).Nodup)
    (hdeltas : rows.deltas.length ≤ 2 ^ 32) : Distinct rows := by
  obtain ⟨htxs, hreceipts⟩ := transactions_of_derived h
  have hnodup : (rows.receipts.map Receipt.txHash).Nodup := hreceipts ▸ htxs
  cases h with
  | @intro _ _ traces _ _ _ _ _ _ _ _ htraced hextracts _ _ =>
      have hsmall : ∀ t ∈ traces, t.size < 2 ^ 32 := by
        intro t ht
        obtain ⟨tx, htx, hanswered⟩ := exists_of_forall₂ htraced.flip ht
        exact hsizes tx htx t hanswered
      obtain ⟨hinternal, hdestroyed⟩ := nodup_keys_of_extractAll htxs hsmall hextracts
      obtain ⟨htransfers, hevents⟩ := nodup_keys_of_interpretAll hnodup hlogs
      exact ⟨hnodup, hinternal, hdestroyed, htransfers, hevents, nodup_keys_of_rewards hommers,
        nodup_keys_of_deltasOf hdeltas⟩

/-- A store that holds the rows of a block, all of them and no others: under the block's
transactions those that belong to transactions, under the block itself its rewards and changes. -/
structure HoldsRows (s : Store) (rows : BlockRows) : Prop where
  receipts : s.receipts.HoldsJust (txHashes rows.block).contains Receipt.txHash rows.receipts
  internal : s.internal.HoldsJust (fun k => (txHashes rows.block).contains k.1)
    (fun t => (t.txHash, t.pc)) rows.internal
  destructions : s.destructions.HoldsJust (fun k => (txHashes rows.block).contains k.1)
    (fun d => (d.txHash, d.pc)) rows.destroyed
  transfers : s.transfers.HoldsJust (fun k => (txHashes rows.block).contains k.1)
    (fun t => (t.txHash, t.logIndex)) rows.transfers
  events : s.events.HoldsJust (fun k => (txHashes rows.block).contains k.1)
    (fun e => (e.txHash, e.logIndex)) rows.events
  rewards : s.rewards.HoldsJust (fun k => k.1 = rows.block.hash)
    (fun r => (r.blockHash, r.hash)) rows.rewards
  deltas : s.deltas.HoldsJust (fun k => k.1 = rows.block.hash)
    (fun d => (d.blockHash, d.index)) rows.deltas

theorem holdsRows_commit {s : Store} (hkeyed : Keyed rows) (hdistinct : Distinct rows)
    (hreceipts : rows.receipts.map Receipt.txHash = txHashes rows.block)
    (hrewards : ∀ r ∈ rows.rewards, r.blockHash = rows.block.hash)
    (hdeltas : ∀ d ∈ rows.deltas, d.blockHash = rows.block.hash)
    (hnoRewards : ∀ hash, s.rewards.get? (rows.block.hash, hash) = none)
    (hnoDeltas : ∀ i, s.deltas.get? (rows.block.hash, i) = none) :
    HoldsRows (s.commit rows) rows := by
  have hfiled : ∀ tx, (txHashes rows.block).contains tx = true →
      FiledUnder (s.commit rows) tx rows := by
    intro tx htx
    have htx : tx ∈ txHashes rows.block := by simpa using htx
    refine filedUnder_commit s htx ?_
    rw [← hreceipts] at htx
    exact List.mem_map.mp htx
  refine ⟨Table.holdsJust_of_lastUnder hdistinct.receipts ?_ fun tx htx => (hfiled tx htx).receipt,
    Table.holdsJust_of_lastUnder hdistinct.internal ?_ fun q hq => (hfiled q.1 hq).internal q.2,
    Table.holdsJust_of_lastUnder hdistinct.destroyed ?_ fun q hq => (hfiled q.1 hq).destructions q.2,
    Table.holdsJust_of_lastUnder hdistinct.transfers ?_ fun q hq => (hfiled q.1 hq).transfers q.2,
    Table.holdsJust_of_lastUnder hdistinct.events ?_ fun q hq => (hfiled q.1 hq).events q.2,
    Table.holdsJust_foldl_insertNew hdistinct.rewards ?_ ?_,
    Table.holdsJust_foldl_insertNew hdistinct.deltas ?_ ?_⟩
  · simpa using hkeyed.receipts
  · simpa using hkeyed.internal
  · simpa using hkeyed.destroyed
  · simpa using hkeyed.transfers
  · simpa using hkeyed.events
  · simpa using hrewards
  · rintro ⟨hash, other⟩ hkey
    obtain rfl : hash = rows.block.hash := by simpa using hkey
    exact hnoRewards other
  · simpa using hdeltas
  · rintro ⟨hash, i⟩ hkey
    obtain rfl : hash = rows.block.hash := by simpa using hkey
    exact hnoDeltas i

theorem archive?_commit {s : Store} (h : (Record.Archive.ofRows rows).Countable) :
    (s.commit rows).archive? rows.block.hash = some (.ok (.ofRows rows)) := by
  have hget : (s.commit rows).archives.get? rows.block.hash =
      some (Record.archiveFormat.encode (.ofRows rows)) := Table.get?_insert_self _ _ _
  have hdecode := Record.archiveFormat.decode_encode (Record.Layout.restores_archive h)
  rw [Store.archive?, hget, Option.map_some, hdecode]

/-- Nothing is lost between the rows of a block and the tables.  Where the logs of each receipt and
the ommers are told apart and nothing is counted past its numbers, a commit of what was worked out
for a block, over anything written before that has no reward and no change under this block, leaves
just the block's rows under its transactions and under itself.  It also leaves the block as the one
canonical block of its height, its import row committed, the cursor on it, and an archive that is
read back as it was. -/
theorem commit_holds_rows {s : Store} (h : Runs node (normalize c block entry) w (some (.ok rows)) w')
    (hsizes : ∀ tx ∈ txHashes block, ∀ t, node (some block.hash) (.trace tx) (.ok t) →
      t.size < 2 ^ 32)
    (hlogs : ∀ r ∈ rows.receipts, (r.logs.map Log.index).Nodup)
    (hommers : (block.hash :: block.ommers.map Ommer.hash).Nodup)
    (hdeltas : rows.deltas.length ≤ 2 ^ 32) (hcountable : (Record.Archive.ofRows rows).Countable)
    (hwritten : s.Written) (hnoRewards : ∀ hash, s.rewards.get? (block.hash, hash) = none)
    (hnoDeltas : ∀ i, s.deltas.get? (block.hash, i) = none) :
    rows.block = block ∧ (txHashes block).Nodup ∧ HoldsRows (s.commit rows) rows ∧
      (s.commit rows).blocks.get? block.hash = some ⟨block, true⟩ ∧
      (∀ b ∈ (s.commit rows).canonicalBlocks, b.number = block.number → b = block) ∧
      (s.commit rows).queue.get? (entry.number, entry.hash) = some rows.entry ∧
      rows.entry.id = entry.id ∧ rows.entry.status = .committed ∧
      ((s.commit rows).cursor? c.chainId).map Cursor.head = some block.id ∧
      (s.commit rows).archive? block.hash = some (.ok (.ofRows rows)) := by
  have hderived := derived_of_normalize h
  have hdistinct := distinct_of_derived hderived hsizes hlogs hommers hdeltas
  have hkeyed := keyed_of_derived hderived
  obtain ⟨htxs, hreceipts⟩ := transactions_of_derived hderived
  obtain ⟨hrewardsOf, hdeltasOf⟩ := blockHash_of_derived hderived
  obtain ⟨rfl, hid, _, hstatus, now, hcursor⟩ := hderived.marks
  obtain ⟨hnumber, hhash⟩ : rows.entry.number = entry.number ∧ rows.entry.hash = entry.hash :=
    BlockId.mk.inj hid
  refine ⟨rfl, htxs,
    holdsRows_commit hkeyed hdistinct hreceipts hrewardsOf hdeltasOf hnoRewards hnoDeltas,
    get?_blocks_commit_self s rows, fun b hb => hwritten.eq_of_canonical hb, ?_, hid, hstatus, ?_,
    archive?_commit hcountable⟩
  · rw [← hnumber, ← hhash]
    exact Table.get?_insert_self _ _ _
  · have hget : (s.commit rows).cursor? c.chainId = some rows.cursor := by
      have hchain : c.chainId = rows.cursor.chainId := by rw [hcursor]
      rw [hchain]
      exact Table.get?_insert_self _ _ _
    rw [hget, Option.map_some, hcursor]
    rfl

/-! Another block of the height was committed before, with one of the calls in it. -/

def siblingRows : BlockRows :=
  { (default : BlockRows) with
    block := pricedBlock 1 ⟨3⟩ ⟨1⟩ [mixedCall ⟨0x11⟩ 5]
    internal := [⟨⟨0x11⟩, 9, ⟨0xa2⟩, ⟨0xa4⟩, 3⟩] }

theorem size_trace_mixedScene {failed : Receipt} {focus : Option Hash} {tx : Hash} {t : CallTrace}
    (h : (mixedScene failed).conduct focus (.trace tx) (.ok t)) : t.size < 2 ^ 32 := by
  have hserved : (mixedScene failed).trace tx = t :=
    Except.ok.inj (Scene.answer_of_conduct h)
  subst hserved
  simp only [mixedScene]
  split <;> decide

theorem commit_holds_rows_mixed : ∃ rows s,
    mixedRows evenSettings (.plain ⟨0x12⟩ false 21000) = some rows ∧
      s = Store.empty.commit siblingRows ∧ s.Written ∧
      rows.internal = [⟨⟨0x11⟩, 1, ⟨0xa2⟩, ⟨0xa4⟩, 3⟩] ∧ rows.destroyed.length = 1 ∧
      rows.transfers.length = 1 ∧ rows.events.length = 1 ∧ rows.rewards.length = 2 ∧
      rows.deltas.length = 14 ∧ HoldsRows (s.commit rows) rows ∧
      (∀ b ∈ (s.commit rows).canonicalBlocks, b.number = 1 → b = mixedBlock) ∧
      (s.commit rows).archive? ⟨2⟩ = some (.ok (.ofRows rows)) := by
  have hsome : (mixedRows evenSettings (.plain ⟨0x12⟩ false 21000)).isSome := by decide +kernel
  obtain ⟨rows, hrows⟩ := Option.isSome_iff_exists.mp hsome
  have hfacts : ∀ rows ∈ mixedRows evenSettings (.plain ⟨0x12⟩ false 21000),
      rows.internal = [⟨⟨0x11⟩, 1, ⟨0xa2⟩, ⟨0xa4⟩, 3⟩] ∧ rows.destroyed.length = 1 ∧
      rows.transfers.length = 1 ∧ rows.events.length = 1 ∧ rows.rewards.length = 2 ∧
      rows.deltas.length = 14 ∧ rows.created.length = 1 ∧
      (∀ c ∈ rows.created, c.code.length < 2 ^ 64) ∧
      ∀ r ∈ rows.receipts, (r.logs.map Log.index).Nodup := by decide +kernel
  obtain ⟨hinternal, hdestroyed, htransfers, hevents, hrewards, hdeltas, hcreated, hcode, hlogs⟩ :=
    hfacts rows hrows
  have hcountable : (Record.Archive.ofRows rows).Countable := by
    constructor
    · change rows.internal.length < 2 ^ 64
      rw [hinternal]
      decide
    · change rows.created.length < 2 ^ 64
      omega
    · change rows.destroyed.length < 2 ^ 64
      omega
    · change rows.rewards.length < 2 ^ 64
      omega
    · exact hcode
  obtain ⟨_, _, hruns⟩ := runs_of_mixedRows hrows
  have hwritten : (Store.empty.commit siblingRows).Written := .commit _ .empty
  obtain ⟨_, _, hholds, _, halone, _, _, _, _, harchive⟩ := commit_holds_rows hruns
    (fun _ _ _ => size_trace_mixedScene) hlogs (by decide) (by omega) hcountable
    hwritten (fun _ => rfl) (fun _ => rfl)
  exact ⟨rows, _, hrows, rfl, hwritten, hinternal, hdestroyed, htransfers, hevents, hrewards, hdeltas,
    hholds, halone, harchive⟩

end Importer

end ChainIngest
