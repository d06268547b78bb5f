import ChainIngest.Proofs.CallOrder
import ChainIngest.Proofs.StoredDeltas
import ChainIngest.Proofs.Scenes
/-!
# Rows of transactions

Rows are filed under transactions, and a commit replaces those of the transactions
in its block.  Where no chain of the tree has a transaction twice, the block that
was committed with a transaction last is the canonical one that contains it, so the
rows of its transactions are those of its own last commit.
-/

namespace ChainIngest.Importer

open Store (Table)

variable {tree : BlockTree} {node : Conduct} {c : Config} {chain : Nat} {log : List BlockRows}
  {w w' : World}

def txHashes (b : Block) : List Hash := b.transactions.map Transaction.hash

/-! ## Receipts of a block -/

theorem mem_of_takeReceipt {tx : Hash} {receipts rest : List Receipt} {r : Receipt}
    (h : takeReceipt? tx receipts = some (r, rest)) :
    r ∈ receipts ∧ r.txHash = tx ∧ rest = receipts.filter fun r => r.txHash ≠ tx := by
  unfold takeReceipt? at h
  split at h
  · next found hfind =>
    cases h
    have hfound := List.find?_some hfind
    exact ⟨List.mem_reverse.mp (List.mem_of_find?_eq_some hfind), by simpa using hfound, rfl⟩
  · cases h

theorem receiptsFor_cons {tx : Hash} {txs : List Hash} {receipts aligned : List Receipt}
    (h : receiptsFor (tx :: txs) receipts = .ok aligned) :
    ∃ r others, r ∈ receipts ∧ r.txHash = tx ∧ aligned = r :: others ∧
      receiptsFor txs (receipts.filter fun r => r.txHash ≠ tx) = .ok others := by
  rw [receiptsFor] at h
  split at h
  · cases h
  · next r rest htake =>
    obtain ⟨hr, htx, rfl⟩ := mem_of_takeReceipt htake
    cases hothers : receiptsFor txs (receipts.filter fun r => r.txHash ≠ tx) with
    | error e =>
        rw [hothers] at h
        cases h
    | ok others =>
        rw [hothers] at h
        cases h
        exact ⟨r, others, hr, htx, rfl, rfl⟩

theorem length_filter_txHash (tx : Hash) (receipts : List Receipt) :
    (receipts.filter fun r => r.txHash = tx).length +
      (receipts.filter fun r => r.txHash ≠ tx).length = receipts.length := by
  have hsplit : receipts.length = _ :=
    List.length_eq_countP_add_countP fun r : Receipt => decide (r.txHash = tx)
  rw [← List.countP_eq_length_filter, ← List.countP_eq_length_filter]
  simpa using hsplit.symm

theorem map_txHash_of_receiptsFor {txs : List Hash} {receipts aligned : List Receipt}
    (h : receiptsFor txs receipts = .ok aligned) : aligned.map Receipt.txHash = txs := by
  induction txs generalizing receipts aligned with
  | nil =>
      cases h
      rfl
  | cons tx txs ih =>
      obtain ⟨r, others, _, htx, rfl, hothers⟩ := receiptsFor_cons h
      rw [List.map_cons, htx, ih hothers]

theorem mem_of_receiptsFor {txs : List Hash} {receipts aligned : List Receipt} {r : Receipt}
    (h : receiptsFor txs receipts = .ok aligned) (hr : r ∈ aligned) : r ∈ receipts := by
  induction txs generalizing receipts aligned with
  | nil =>
      cases h
      cases hr
  | cons tx txs ih =>
      obtain ⟨first, others, hfirst, _, rfl, hothers⟩ := receiptsFor_cons h
      rcases List.mem_cons.mp hr with rfl | hr
      · exact hfirst
      · exact List.mem_of_mem_filter (ih hothers hr)

/-- A transaction takes all its receipts away, so none is left for it to stand again. -/
theorem nodup_of_receiptsFor {txs : List Hash} {receipts aligned : List Receipt}
    (h : receiptsFor txs receipts = .ok aligned) : txs.Nodup := by
  induction txs generalizing receipts aligned with
  | nil => exact .nil
  | cons tx txs ih =>
      obtain ⟨_, others, _, _, _, hothers⟩ := receiptsFor_cons h
      refine List.nodup_cons.mpr ⟨fun hmem => ?_, ih hothers⟩
      rw [← map_txHash_of_receiptsFor hothers] at hmem
      obtain ⟨r, hr, htx⟩ := List.mem_map.mp hmem
      have hkept := (List.mem_filter.mp (mem_of_receiptsFor hothers hr)).2
      rw [decide_eq_true_eq] at hkept
      exact hkept htx

theorem length_le_of_receiptsFor {txs : List Hash} {receipts aligned : List Receipt}
    (h : receiptsFor txs receipts = .ok aligned) : txs.length ≤ receipts.length := by
  induction txs generalizing receipts aligned with
  | nil => exact Nat.zero_le _
  | cons tx txs ih =>
      obtain ⟨r, others, hr, htx, _, hothers⟩ := receiptsFor_cons h
      have hrest := ih hothers
      have hmine : r ∈ receipts.filter fun r => r.txHash = tx := by simp [hr, htx]
      have hpositive := List.length_pos_of_mem hmine
      have hlength := length_filter_txHash tx receipts
      rw [List.length_cons]
      omega

/-- As many receipts as transactions, and one for each: then each has one only. -/
theorem single_of_receiptsFor {txs : List Hash} {receipts aligned : List Receipt}
    (h : receiptsFor txs receipts = .ok aligned) (hlength : receipts.length ≤ txs.length) :
    List.Forall₂ (fun tx r => (receipts.filter fun r => r.txHash = tx) = [r]) txs aligned := by
  induction txs generalizing receipts aligned with
  | nil =>
      cases h
      exact .nil
  | cons tx txs ih =>
      obtain ⟨r, others, hr, htx, rfl, hothers⟩ := receiptsFor_cons h
      have hmine : r ∈ receipts.filter fun r => r.txHash = tx := by simp [hr, htx]
      have hpositive := List.length_pos_of_mem hmine
      have hsplit := length_filter_txHash tx receipts
      have hrest := length_le_of_receiptsFor hothers
      rw [List.length_cons] at hlength
      refine .cons ?_ ((ih hothers (by omega)).imp ?_)
      · have hone : (receipts.filter fun r => r.txHash = tx).length = 1 := by omega
        obtain ⟨only, honly⟩ := List.length_eq_one_iff.mp hone
        rw [honly, List.mem_singleton] at hmine
        rw [honly, hmine]
      · intro other r' hr'
        -- receipts of another transaction were not taken away with those of the first
        have hother : r' ∈ (receipts.filter fun r => r.txHash ≠ tx).filter fun r => r.txHash = other := by
          rw [hr']
          exact List.mem_singleton_self r'
        obtain ⟨hother, hsame⟩ := List.mem_filter.mp hother
        have hne : other ≠ tx := by
          have hne := (List.mem_filter.mp hother).2
          rw [decide_eq_true_eq] at hsame hne
          exact hsame ▸ hne
        rw [← hr', List.filter_filter]
        refine List.filter_congr fun r _ => ?_
        by_cases hr : r.txHash = other
        · simp [hr, hne]
        · simp [hr]

theorem length_eq_of_txHashes {block : Block} {receipts : List Receipt}
    (h : receipts.map Receipt.txHash = txHashes block) :
    block.transactions.length = receipts.length := by
  simpa [txHashes] using (congrArg List.length h).symm

theorem exists_mem_zip_left {α β : Type} {p : α → Prop} {xs : List α} {ys : List β}
    (h : xs.length = ys.length) : (∃ e ∈ xs.zip ys, p e.1) ↔ ∃ x ∈ xs, p x := by
  have hfst : (xs.zip ys).map Prod.fst = xs := List.map_fst_zip (Nat.le_of_eq h)
  conv => rhs; rw [← hfst]
  simp only [List.mem_map, exists_exists_and_eq_and]

theorem exists_mem_zip_right {α β : Type} {p : β → Prop} {xs : List α} {ys : List β}
    (h : xs.length = ys.length) : (∃ e ∈ xs.zip ys, p e.2) ↔ ∃ y ∈ ys, p y := by
  have hsnd : (xs.zip ys).map Prod.snd = ys := List.map_snd_zip (Nat.le_of_eq h.symm)
  conv => rhs; rw [← hsnd]
  simp only [List.mem_map, exists_exists_and_eq_and]

/-- The receipt of each transaction is the only one that the node serves for it, with the reason
of its failure. -/
def Receipted (tree : BlockTree) (block tx : Hash) (r : Receipt) : Prop :=
  ∃ served, (tree.receipts block).filter (fun r => r.txHash = tx) = [served] ∧
    r = explain served (tree.trace block tx)

@[simp] theorem txHash_explain (r : Receipt) (t : CallTrace) : (explain r t).txHash = r.txHash := by
  unfold explain
  split <;> rfl

theorem map_txHash_explain {receipts : List Receipt} {traces : List CallTrace}
    (h : receipts.length = traces.length) :
    (List.zipWith explain receipts traces).map Receipt.txHash = receipts.map Receipt.txHash := by
  induction receipts generalizing traces with
  | nil => rfl
  | cons r receipts ih =>
      cases traces with
      | nil => cases h
      | cons t traces =>
          rw [List.zipWith_cons_cons, List.map_cons, List.map_cons, txHash_explain,
            ih (Nat.succ.inj h)]

/-- A block has its transactions once, and a receipt for each in their order. -/
theorem transactions_of_derived {block : Block} {entry : ImportEntry} {rows : BlockRows}
    (h : Derived node c block entry rows) :
    (txHashes block).Nodup ∧ rows.receipts.map Receipt.txHash = txHashes block := by
  cases h with
  | intro _ haligns htraced _ _ _ =>
      unfold alignReceipts at haligns
      split at haligns
      · cases haligns
      · have hlength := congrArg List.length (map_txHash_of_receiptsFor haligns)
        rw [List.length_map] at hlength
        exact ⟨nodup_of_receiptsFor haligns,
          (map_txHash_explain (hlength.trans htraced.length_eq)).trans
            (map_txHash_of_receiptsFor haligns)⟩

theorem Receipted.txHash {block tx : Hash} {r : Receipt} (h : Receipted tree block tx r) :
    r.txHash = tx := by
  obtain ⟨served, hserved, rfl⟩ := h
  have hmem : served ∈ (tree.receipts block).filter fun r => r.txHash = tx := by
    rw [hserved]
    exact List.mem_singleton_self served
  simpa using (List.mem_filter.mp hmem).2

theorem exists_of_forall₂ {α β : Type} {R : α → β → Prop} {xs : List α} {ys : List β}
    (h : List.Forall₂ R xs ys) {x : α} (hx : x ∈ xs) : ∃ y ∈ ys, R x y := by
  induction h with
  | nil => cases hx
  | @cons _ y _ _ hxy _ ih =>
      rcases List.mem_cons.mp hx with rfl | hx
      · exact ⟨y, List.mem_cons_self, hxy⟩
      · obtain ⟨y', hy', hxy'⟩ := ih hx
        exact ⟨y', List.mem_cons_of_mem y hy', hxy'⟩

theorem receipted_of_single {block : Hash} {txs : List Hash} {aligned : List Receipt}
    (h : List.Forall₂ (fun tx r => (tree.receipts block).filter (fun r => r.txHash = tx) = [r])
      txs aligned) :
    List.Forall₂ (Receipted tree block) txs
      (List.zipWith explain aligned (txs.map (tree.trace block))) := by
  induction h with
  | nil => exact .nil
  | cons hone _ ih => exact .cons ⟨_, hone, rfl⟩ ih

theorem receipted_of_derived {block : Block} {entry : ImportEntry} {rows : BlockRows}
    (hnode : tree.Admits node) (h : Derived node c block entry rows) :
    List.Forall₂ (Receipted tree block.hash) (txHashes block) rows.receipts := by
  cases h with
  | @intro fetched aligned traces extracted created _ _ _ _ hanswered haligns htraced _ _ _ =>
      have hreceipts : fetched = tree.receipts block.hash :=
        hnode (some block.hash) (.receipts block.hash) fetched hanswered
      have htraces := traces_of_forall hnode htraced
      subst hreceipts htraces
      unfold alignReceipts at haligns
      split at haligns
      · cases haligns
      · next hlength =>
        exact receipted_of_single (single_of_receiptsFor haligns
          (by rw [txHashes, List.length_map]; exact Nat.le_of_eq (not_not.mp hlength)))

/-! ## Rows of a block belong to its transactions -/

structure Keyed (rows : BlockRows) : Prop where
  receipts : ∀ r ∈ rows.receipts, r.txHash ∈ txHashes rows.block
  internal : ∀ t ∈ rows.internal, t.txHash ∈ txHashes rows.block
  destroyed : ∀ d ∈ rows.destroyed, d.txHash ∈ txHashes rows.block
  transfers : ∀ t ∈ rows.transfers, t.txHash ∈ txHashes rows.block
  events : ∀ e ∈ rows.events, e.txHash ∈ txHashes rows.block

theorem ok_of_extractAll_cons {tx : Hash} {txs : List Hash} {t : CallTrace} {ts : List CallTrace}
    {rows : Trace.Output} (h : extractAll (tx :: txs) (t :: ts) = .ok rows) :
    ∃ first others, Trace.extract tx t = .ok first ∧ extractAll txs ts = .ok others ∧
      rows = first.append others := by
  rw [extractAll] at h
  split at h
  · cases h
  · next first hfirst =>
    cases hothers : extractAll txs ts with
    | error e =>
        rw [hothers] at h
        cases h
    | ok others =>
        rw [hothers] at h
        cases h
        exact ⟨first, others, hfirst, rfl, rfl⟩

theorem txHash_of_extractAll {txs : List Hash} {traces : List CallTrace} {rows : Trace.Output}
    (h : extractAll txs traces = .ok rows) :
    (∀ t ∈ rows.internal, t.txHash ∈ txs) ∧ ∀ d ∈ rows.destroyed, d.txHash ∈ txs := by
  induction txs generalizing traces rows with
  | nil =>
      cases h
      exact ⟨by simp [Trace.Output.empty], by simp [Trace.Output.empty]⟩
  | cons tx txs ih =>
      cases traces with
      | nil =>
          cases h
          exact ⟨by simp [Trace.Output.empty], by simp [Trace.Output.empty]⟩
      | cons t ts =>
          obtain ⟨first, others, hfirst, hothers, rfl⟩ := ok_of_extractAll_cons h
          obtain ⟨hinternal, hdestroyed⟩ := Trace.txHash_of_extract hfirst
          obtain ⟨hinternal', hdestroyed'⟩ := ih hothers
          constructor
          · intro row hrow
            rcases List.mem_append.mp hrow with hrow | hrow
            · exact hinternal row hrow ▸ List.mem_cons_self
            · exact List.mem_cons_of_mem _ (hinternal' row hrow)
          · intro row hrow
            rcases List.mem_append.mp hrow with hrow | hrow
            · exact hdestroyed row hrow ▸ List.mem_cons_self
            · exact List.mem_cons_of_mem _ (hdestroyed' row hrow)

theorem txHash_of_transferOf {tx : Hash} {log : Log} {nonFungible : Bool} {row : TokenTransfer}
    (h : Token.transferOf? tx log nonFungible = some row) : row.txHash = tx := by
  unfold Token.transferOf? at h
  split at h
  · split at h <;> cases h
    rfl
  · split at h <;> cases h
    rfl
  · cases h

theorem txHash_of_interpret {tx : Hash} {logs : List Log} {known : Token.Known} :
    (∀ t ∈ (Token.interpret tx logs known).transfers, t.txHash = tx) ∧
      ∀ e ∈ (Token.interpret tx logs known).events, e.txHash = tx := by
  simp only [Token.interpret, List.mem_filterMap, List.mem_map]
  constructor
  · rintro t ⟨row, ⟨log, _, rfl⟩, ht⟩
    unfold Token.rowOf at ht
    split at ht
    · next found hfound =>
      cases ht
      exact txHash_of_transferOf hfound
    · cases ht
  · rintro e ⟨row, ⟨log, _, rfl⟩, he⟩
    unfold Token.rowOf at he
    split at he
    · cases he
    · cases he
      rfl

theorem keyed_of_derived {block : Block} {entry : ImportEntry} {rows : BlockRows}
    (h : Derived node c block entry rows) : Keyed rows := by
  have hreceipts : ∀ r ∈ rows.receipts, r.txHash ∈ txHashes block := by
    intro r hr
    exact (transactions_of_derived h).2 ▸ List.mem_map_of_mem hr
  cases h with
  | intro _ _ _ hextracts _ _ =>
      obtain ⟨hinternal, hdestroyed⟩ := txHash_of_extractAll hextracts
      refine ⟨hreceipts, hinternal, hdestroyed, ?_, ?_⟩
      · intro t ht
        obtain ⟨rows, hrows, ht⟩ := List.mem_flatMap.mp ht
        obtain ⟨r, hr, rfl⟩ := List.mem_map.mp hrows
        exact (txHash_of_interpret.1 t ht) ▸ hreceipts r hr
      · intro e he
        obtain ⟨rows, hrows, he⟩ := List.mem_flatMap.mp he
        obtain ⟨r, hr, rfl⟩ := List.mem_map.mp hrows
        exact (txHash_of_interpret.2 e he) ▸ hreceipts r hr

/-! ## Rows in the tables -/

/-- Tables that hold under a transaction what a block's rows hold under it, and nothing else. -/
structure FiledUnder (s : Store) (tx : Hash) (rows : BlockRows) : Prop where
  block : s.transactions.get? tx = some rows.block.hash
  receipt : s.receipts.get? tx = Table.lastUnder Receipt.txHash rows.receipts tx
  internal : ∀ i, s.internal.get? (tx, i) =
    Table.lastUnder (fun t : InternalTransaction => (t.txHash, t.pc)) rows.internal (tx, i)
  destructions : ∀ i, s.destructions.get? (tx, i) =
    Table.lastUnder (fun d : ContractDestroyed => (d.txHash, d.pc)) rows.destroyed (tx, i)
  transfers : ∀ i, s.transfers.get? (tx, i) =
    Table.lastUnder (fun t : TokenTransfer => (t.txHash, t.logIndex)) rows.transfers (tx, i)
  events : ∀ i, s.events.get? (tx, i) =
    Table.lastUnder (fun e : ContractEvent => (e.txHash, e.logIndex)) rows.events (tx, i)

theorem get?_refile {ν : Type} (t : Table (Hash × UInt32) ν) (txs : List Hash)
    (key : ν → Hash × UInt32) (rows : List ν) (q : Hash × UInt32) :
    (Store.refile t txs key rows).get? q =
      (Table.lastUnder key rows q).or (if txs.contains q.1 then none else t.get? q) := by
  unfold Store.refile
  rw [Table.get?_foldl_insert key (fun row => row), Option.map_id', Table.get?_filterKeys]
  cases txs.contains q.1 <;> rfl

theorem get?_refile_of_mem {ν : Type} (t : Table (Hash × UInt32) ν) {txs : List Hash}
    (key : ν → Hash × UInt32) (rows : List ν) {tx : Hash} (h : tx ∈ txs) (i : UInt32) :
    (Store.refile t txs key rows).get? (tx, i) = Table.lastUnder key rows (tx, i) := by
  rw [get?_refile, if_pos (by simpa using h), Option.or_none]

theorem get?_refile_of_not_mem {ν : Type} (t : Table (Hash × UInt32) ν) {txs : List Hash}
    {key : ν → Hash × UInt32} {rows : List ν} {tx : Hash} (h : tx ∉ txs)
    (hrows : ∀ row ∈ rows, (key row).1 ∈ txs) (i : UInt32) :
    (Store.refile t txs key rows).get? (tx, i) = t.get? (tx, i) := by
  have hnone : Table.lastUnder key rows (tx, i) = none := by
    apply Table.lastUnder_eq_none_iff.mpr
    intro row hrow hkey
    have hmem := hrows row hrow
    rw [hkey] at hmem
    exact h hmem
  rw [get?_refile, hnone, if_neg (by simpa using h), Option.none_or]

theorem get?_transactions_of_mem (s : Store) {rows : BlockRows} {tx : Hash}
    (h : tx ∈ txHashes rows.block) :
    (s.commit rows).transactions.get? tx = some rows.block.hash := by
  refine (Table.get?_foldl_insert id (fun _ => rows.block.id.hash) _ s.transactions tx).trans ?_
  obtain ⟨last, hlast⟩ := Table.exists_lastUnder id ⟨tx, h, rfl⟩
  change Table.lastUnder id (rows.block.transactions.map Transaction.hash) tx = some last at hlast
  rw [hlast]
  rfl

theorem get?_transactions_of_not_mem (s : Store) {rows : BlockRows} {tx : Hash}
    (h : tx ∉ txHashes rows.block) :
    (s.commit rows).transactions.get? tx = s.transactions.get? tx := by
  refine (Table.get?_foldl_insert id (fun _ => rows.block.id.hash) _ s.transactions tx).trans ?_
  rw [Table.lastUnder_eq_none_iff.mpr]
  · rfl
  · rintro tx' htx' rfl
    exact h htx'

/-- A commit replaces the rows of the block's transactions. -/
theorem filedUnder_commit (s : Store) {rows : BlockRows} {tx : Hash}
    (h : tx ∈ txHashes rows.block) (hreceipt : ∃ r ∈ rows.receipts, r.txHash = tx) :
    FiledUnder (s.commit rows) tx rows where
  block := get?_transactions_of_mem s h
  receipt := by
    refine (Table.get?_foldl_insert Receipt.txHash (fun r => r) _ s.receipts tx).trans ?_
    obtain ⟨last, hlast⟩ := Table.exists_lastUnder _ hreceipt
    rw [hlast]
    rfl
  internal := get?_refile_of_mem _ _ _ h
  destructions := get?_refile_of_mem _ _ _ h
  transfers := get?_refile_of_mem _ _ _ h
  events := get?_refile_of_mem _ _ _ h

/-- It leaves those of all other transactions alone. -/
theorem FiledUnder.commit {s : Store} {tx : Hash} {old rows : BlockRows} (h : FiledUnder s tx old)
    (hkeyed : Keyed rows) (hother : tx ∉ txHashes rows.block) :
    FiledUnder (s.commit rows) tx old where
  block := (get?_transactions_of_not_mem s hother).trans h.block
  receipt := by
    refine (Table.get?_foldl_insert Receipt.txHash (fun r => r) _ s.receipts tx).trans ?_
    rw [Table.lastUnder_eq_none_iff.mpr]
    · exact h.receipt
    · rintro r hr rfl
      exact hother (hkeyed.receipts r hr)
  internal i := (get?_refile_of_not_mem _ hother hkeyed.internal i).trans (h.internal i)
  destructions i := (get?_refile_of_not_mem _ hother hkeyed.destroyed i).trans (h.destructions i)
  transfers i := (get?_refile_of_not_mem _ hother hkeyed.transfers i).trans (h.transfers i)
  events i := (get?_refile_of_not_mem _ hother hkeyed.events i).trans (h.events i)

theorem FiledUnder.recordStatus {s : Store} {tx : Hash} {rows : BlockRows}
    (h : FiledUnder s tx rows) (e : ImportEntry) : FiledUnder (s.recordStatus e) tx rows :=
  ⟨h.block, h.receipt, h.internal, h.destructions, h.transfers, h.events⟩

theorem FiledUnder.markReorg {s : Store} {tx : Hash} {rows : BlockRows} (h : FiledUnder s tx rows)
    (ancestor : BlockId) (id : Nat) (now : Int) :
    FiledUnder (s.markReorg ancestor id now) tx rows :=
  ⟨h.block, h.receipt, h.internal, h.destructions, h.transfers, h.events⟩

/-! ## The rows of canonical blocks -/

/-- No chain of the tree has a transaction twice. -/
def BlockTree.TransactionsOnce (tree : BlockTree) : Prop :=
  ∀ chain : List Block, (∀ b ∈ chain, tree.Holds b) →
    (chain.IsChain fun lower upper => upper.parentHash = lower.hash) →
    (chain.flatMap txHashes).Nodup

/-- Tables in which the rows of every canonical block are those of its last commit. -/
def Follows (log : List BlockRows) (s : Store) : Prop :=
  ∀ b ∈ s.canonicalBlocks, ∃ rows, log.find? (fun rows => rows.block = b) = some rows ∧
    ∀ tx ∈ txHashes b, FiledUnder s tx rows

theorem Follows.of_touched {id : BlockId} {s s' : Store} (h : Follows log s)
    (htouched : Touched id s s') : Follows log s' := by
  rcases htouched with rfl | ⟨e, _, _, _, rfl⟩
  · exact h
  · intro b hb
    obtain ⟨rows, hrows, hfiled⟩ := h b hb
    exact ⟨rows, hrows, fun tx htx => (hfiled tx htx).recordStatus e⟩

theorem Follows.markReorg {s : Store} (h : Follows log s) (ancestor : BlockId) (id : Nat)
    (now : Int) : Follows log (s.markReorg ancestor id now) := by
  intro b hb
  obtain ⟨rows, hrows, hfiled⟩ := h b (mem_canonicalBlocks_of_markReorg hb)
  exact ⟨rows, hrows, fun tx htx => (hfiled tx htx).markReorg ancestor id now⟩

/-- The other canonical blocks are on one chain with the committed one, so they share no
transaction with it. -/
theorem Follows.commit {s : Store} {start : Nat} {blocks : List Block} {rows : BlockRows}
    (h : Follows log s) (honce : tree.TransactionsOnce)
    (hbefore : ∀ b ∈ blocks, b ∈ s.canonicalBlocks)
    (hafter : Standing tree start chain (s.commit rows) (blocks ++ [rows.block]))
    (hreceipts : ∀ tx ∈ txHashes rows.block, ∃ r ∈ rows.receipts, r.txHash = tx)
    (hkeyed : Keyed rows) : Follows (rows :: log) (s.commit rows) := by
  have honce := honce _ (fun b hb => hafter.holds hb) hafter.stacked.linked
  rw [List.flatMap_append, List.nodup_append'] at honce
  obtain ⟨_, _, hdisjoint⟩ := honce
  intro b hb
  by_cases hsame : rows.block = b
  · subst hsame
    exact ⟨rows, List.find?_cons_of_pos (by simp),
      fun tx htx => filedUnder_commit s htx (hreceipts tx htx)⟩
  · have hb : b ∈ blocks := by
      simpa [Ne.symm hsame] using hafter.mem_canonicalBlocks.mp hb
    obtain ⟨old, hold, hfiled⟩ := h b (hbefore b hb)
    refine ⟨old, by rwa [List.find?_cons_of_neg (by simpa using hsame)], fun tx htx => ?_⟩
    refine (hfiled tx htx).commit hkeyed fun htx' => ?_
    exact hdisjoint (List.mem_flatMap.mpr ⟨b, hb, htx⟩) (by simpa using htx')

theorem follows_of_journal {kind : Config → Prop} {at_work : Option Config}
    (hnode : tree.Admits node) (honce : tree.TransactionsOnce)
    (hkind : ∀ c, kind c → c.chainId = chain) (h : Journal node kind log at_work w) :
    Follows log w.store := by
  refine h.invariant (P := Follows) ?_ ?_ ?_ ?_
  · intro b hb
    cases hb
  · exact fun htouched hfollows => hfollows.of_touched htouched
  · exact fun ancestor id now hfollows => hfollows.markReorg ancestor id now
  · intro c log w w₁ w₂ entry rows hlog hcommits htouched hrows hfollows
    obtain ⟨start, blocks, hbefore, hafter⟩ :=
      standing_of_commits hnode hkind (reach_of_journal hlog) hcommits
    have hderived := derived_of_normalize hrows
    refine hfollows.commit honce (fun b hb => ?_) hafter (fun tx htx => ?_)
      (keyed_of_derived hderived)
    · rw [htouched.canonicalBlocks]
      exact hbefore.mem_canonicalBlocks.mpr hb
    · obtain ⟨r, hr, hreceipted⟩ := exists_of_forall₂ (receipted_of_derived hnode hderived) htx
      exact ⟨r, hr, hreceipted.txHash⟩

theorem receipted_of_journal {kind : Config → Prop} {at_work : Option Config}
    (hnode : tree.Admits node) (h : Journal node kind log at_work w) :
    ∀ rows ∈ log, List.Forall₂ (Receipted tree rows.block.hash) (txHashes rows.block) rows.receipts := by
  refine h.invariant (P := fun log _ => ∀ rows ∈ log,
    List.Forall₂ (Receipted tree rows.block.hash) (txHashes rows.block) rows.receipts) ?_ ?_ ?_ ?_
  · simp
  · exact fun _ h => h
  · exact fun _ _ _ h => h
  · intro c log w w₁ w₂ entry rows _ _ _ hrows hlog
    refine List.forall_mem_cons.mpr ⟨receipted_of_derived hnode (derived_of_normalize hrows), hlog⟩

/-- Whatever branches a consistent node showed, whatever failed and wherever steps were broken off:
if none of its chains has a transaction twice, the rows of the transactions of a canonical block are
those of the block's last commit.  Each of them names this block as its own, has the one receipt
that the node serves for it in this block, and has no row that the commit did not bring. -/
theorem rows_follow_canonical {at_work : Option Config} (hnode : tree.Admits node)
    (honce : tree.TransactionsOnce) (h : Reach node (fun c => c.chainId = chain) at_work w) :
    (∃ log, Journal node (fun c => c.chainId = chain) log at_work w) ∧
    ∀ log, Journal node (fun c => c.chainId = chain) log at_work w → ∀ b ∈ w.store.canonicalBlocks,
      ∃ rows, log.find? (fun rows => rows.block = b) = some rows ∧ ∀ tx ∈ b.transactions,
        w.store.transactions.get? tx.hash = some b.hash ∧
        (∃ served, (tree.receipts b.hash).filter (fun r => r.txHash = tx.hash) = [served] ∧
          w.store.receipts.get? tx.hash =
            some (explain served (tree.trace b.hash tx.hash))) ∧
        ∀ i,
          w.store.internal.get? (tx.hash, i) = Table.lastUnder
            (fun t : InternalTransaction => (t.txHash, t.pc)) rows.internal (tx.hash, i) ∧
          w.store.destructions.get? (tx.hash, i) = Table.lastUnder
            (fun d : ContractDestroyed => (d.txHash, d.pc)) rows.destroyed (tx.hash, i) ∧
          w.store.transfers.get? (tx.hash, i) = Table.lastUnder
            (fun t : TokenTransfer => (t.txHash, t.logIndex)) rows.transfers (tx.hash, i) ∧
          w.store.events.get? (tx.hash, i) = Table.lastUnder
            (fun e : ContractEvent => (e.txHash, e.logIndex)) rows.events (tx.hash, i) := by
  refine ⟨journal_of_reach h, fun log hlog b hb => ?_⟩
  obtain ⟨rows, hrows, hfiled⟩ := follows_of_journal hnode honce (fun _ hc => hc) hlog b hb
  obtain rfl : rows.block = b := by simpa using List.find?_some hrows
  refine ⟨rows, hrows, fun tx htx => ?_⟩
  have htx : tx.hash ∈ txHashes rows.block := List.mem_map_of_mem htx
  have hfiled := hfiled _ htx
  refine ⟨hfiled.block, ?_, fun i => ⟨hfiled.internal i, hfiled.destructions i, hfiled.transfers i,
    hfiled.events i⟩⟩
  -- the receipt that is filed under the transaction is the one that was served for it
  have hreceipted := receipted_of_journal hnode hlog rows (List.mem_of_find?_eq_some hrows)
  obtain ⟨r, hr, htxHash⟩ := exists_of_forall₂ hreceipted htx
  obtain ⟨last, hlast⟩ := Table.exists_lastUnder Receipt.txHash ⟨r, hr, htxHash.txHash⟩
  obtain ⟨hmem, hkey⟩ := Table.of_lastUnder hlast
  obtain ⟨tx', _, hlast'⟩ := exists_of_forall₂ hreceipted.flip hmem
  obtain rfl : tx' = tx.hash := (Receipted.txHash hlast').symm.trans hkey
  obtain ⟨served, hserved, rfl⟩ := hlast'
  exact ⟨served, hserved, hfiled.receipt.trans hlast⟩

/-! The moved transaction is in one branch at first and in the other at last. -/

theorem transactionsOnce_of_tips (hnodup : ∀ b, tree.Holds b → (txHashes b).Nodup)
    (htips : ∀ a b, tree.Holds a → tree.Holds b → b.parentHash = a.hash → txHashes a = []) :
    tree.TransactionsOnce := by
  intro chain hheld hlinked
  induction chain with
  | nil => exact .nil
  | cons a rest ih =>
      obtain ⟨ha, hrest⟩ := List.forall_mem_cons.mp hheld
      have hnodup' := ih hrest hlinked.tail
      rw [List.flatMap_cons]
      cases rest with
      | nil => simpa using hnodup a ha
      | cons b rest =>
          have hparent := (List.isChain_cons_cons.mp hlinked).1
          rw [htips a b ha (hrest b List.mem_cons_self) hparent]
          exact hnodup'

theorem transactionsOnce_movingTree : movingTree.TransactionsOnce := by
  have hnodup : ∀ b ∈ earlyBlocks ++ lateBlocks, (txHashes b).Nodup := by decide
  have htips : ∀ a ∈ earlyBlocks ++ lateBlocks, ∀ b ∈ earlyBlocks ++ lateBlocks,
      b.parentHash = a.hash → txHashes a = [] := by decide
  exact transactionsOnce_of_tips hnodup fun a b ha hb => htips a ha b hb

theorem rows_follow_canonical_moved : ∃ w b served,
    Reach movingNode (fun c => c.chainId = 1) (some evenSettings) w ∧
      b ∈ w.store.canonicalBlocks ∧ b.id = ⟨2, ⟨4⟩⟩ ∧ movedTransaction ⟨4⟩ ∈ b.transactions ∧
      w.store.transactions.get? ⟨0x11⟩ = some ⟨4⟩ ∧
      movedReceipts ⟨4⟩ = [served] ∧
      w.store.receipts.get? ⟨0x11⟩ = some (explain served movedTrace) ∧
      w.store.transfers.get? (⟨0x11⟩, 0) = none ∧
      w.store.transfers.get? (⟨0x11⟩, 1) =
        some ⟨⟨0x11⟩, 1, ⟨0xcc⟩, ⟨0xa1⟩, ⟨0xa3⟩, .nonFungible 9⟩ := by
  obtain ⟨focus, hreach⟩ := reach_afterMove (fun c => c.chainId = 1) (c := evenSettings) rfl
  have hcanonical : pricedBlock 2 ⟨4⟩ ⟨3⟩ [movedTransaction ⟨4⟩] ∈
      (afterMove evenSettings).outside.canonicalBlocks := by decide +kernel
  obtain ⟨⟨log, hlog⟩, hfollows⟩ :=
    rows_follow_canonical admits_movingNode transactionsOnce_movingTree hreach
  obtain ⟨rows, _, hrows⟩ := hfollows log hlog _ hcanonical
  obtain ⟨hblock, ⟨served, hserved, hreceipt⟩, _⟩ := hrows _ List.mem_cons_self
  have hall : (movedReceipts ⟨4⟩).filter (fun r => r.txHash = ⟨0x11⟩) = movedReceipts ⟨4⟩ := by
    decide +kernel
  have htransfers : (afterMove evenSettings).outside.transfers.get? (⟨0x11⟩, 0) = none ∧
      (afterMove evenSettings).outside.transfers.get? (⟨0x11⟩, 1) =
        some ⟨⟨0x11⟩, 1, ⟨0xcc⟩, ⟨0xa1⟩, ⟨0xa3⟩, .nonFungible 9⟩ := by decide +kernel
  exact ⟨_, _, served, hreach, hcanonical, rfl, List.mem_cons_self, hblock, hall.symm.trans hserved,
    hreceipt, htransfers⟩

end ChainIngest.Importer
