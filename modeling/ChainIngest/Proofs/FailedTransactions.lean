import ChainIngest.Proofs.TransactionRows
import ChainIngest.Rpc.Receipt
/-!
# Transactions that failed

Two answers of a node tell that a transaction failed: its receipt, and the outermost
frame of its trace.  The trace decides over everything nested, which leaves no row
where that frame failed.  The receipt decides over the transaction's own value, which
stays where it was unless the receipt counts as a success; receipts from before there
was a status do.
-/

namespace ChainIngest

namespace Trace

theorem extract_of_root_failed {t : CallTrace} {root : Frame} (txHash : Hash)
    (hroot : t.root? = some root) (hfailed : root.failed = true) :
    extract txHash t = .ok .empty := by
  have hsize : 0 < t.size := (Array.getElem?_eq_some_iff.mp hroot).1
  have hnotEmpty : t.isEmpty = false := by
    rw [CallTrace.isEmpty, Array.isEmpty_eq_false_iff, ← Array.size_pos_iff]
    exact hsize
  have hvisit : (Walk.start t).visit txHash t 0 [] = .ok
      { Walk.start t with
        visited := (Walk.start t).visited.setIfInBounds 0 true, stack := [], pc := 1 } := by
    have hframe : t.frame? 0 = some root := hroot
    simp [Walk.visit, hframe, hfailed, Walk.start, Array.getD_eq_getD_getElem?, hsize]
  obtain ⟨fresh, hfresh⟩ := Nat.exists_eq_succ_of_ne_zero (Nat.ne_of_gt hsize)
  rw [extract, hnotEmpty, hfresh, if_neg Bool.false_ne_true, Walk.run]
  simp only [Walk.start] at hvisit ⊢
  rw [hvisit]
  cases fresh <;> rfl

theorem txHash_of_created {txHash : Hash} {t : CallTrace} {out : Output}
    (h : extract txHash t = .ok out) : ∀ row ∈ out.created, row.txHash = txHash := by
  obtain ⟨order, _, _, _, hrows⟩ := order_of_extract h
  intro row hrow
  obtain ⟨v, _, hv⟩ := mem_of_mapM (rowsOf_eq_some_iff.mp hrows).2.1 hrow
  exact (of_created? hv).2

end Trace

namespace Importer

variable {node : Conduct} {c : Config} {block : Block} {entry : ImportEntry} {rows : BlockRows}
  {w w' : World}

structure Silent (tx : Hash) (rows : Trace.Output) : Prop where
  internal : ∀ t ∈ rows.internal, t.txHash ≠ tx
  created : ∀ c ∈ rows.created, c.txHash ≠ tx
  destroyed : ∀ d ∈ rows.destroyed, d.txHash ≠ tx

theorem Silent.empty (tx : Hash) : Silent tx .empty :=
  ⟨by simp [Trace.Output.empty], by simp [Trace.Output.empty], by simp [Trace.Output.empty]⟩

theorem Silent.append {tx : Hash} {first others : Trace.Output} (h : Silent tx first)
    (h' : Silent tx others) : Silent tx (first.append others) where
  internal := List.forall_mem_append.mpr ⟨h.internal, h'.internal⟩
  created := List.forall_mem_append.mpr ⟨h.created, h'.created⟩
  destroyed := List.forall_mem_append.mpr ⟨h.destroyed, h'.destroyed⟩

theorem silent_of_extract {tx other : Hash} {t : CallTrace} {out : Trace.Output}
    (hother : other ≠ tx) (h : Trace.extract other t = .ok out) : Silent tx out := by
  obtain ⟨hinternal, hdestroyed⟩ := Trace.txHash_of_extract h
  constructor
  · intro row hrow
    rw [hinternal row hrow]
    exact hother
  · intro row hrow
    rw [Trace.txHash_of_created h row hrow]
    exact hother
  · intro row hrow
    rw [hdestroyed row hrow]
    exact hother

/-- A transaction leaves no row if the outermost frame of its trace failed. -/
theorem silent_of_extractAll {tx : Hash} {txs : List Hash} {traces : List CallTrace}
    {out : Trace.Output}
    (hfailed : ∀ t, (tx, t) ∈ txs.zip traces → ∃ root, t.root? = some root ∧ root.failed = true)
    (h : extractAll txs traces = .ok out) : Silent tx out := by
  induction txs generalizing traces out with
  | nil =>
      cases h
      exact .empty tx
  | cons other txs ih =>
      cases traces with
      | nil =>
          cases h
          exact .empty tx
      | cons t traces =>
          obtain ⟨first, others, hfirst, hothers, rfl⟩ := ok_of_extractAll_cons h
          rw [List.zip_cons_cons] at hfailed
          have hrest := ih (fun t ht => hfailed t (List.mem_cons_of_mem _ ht)) hothers
          refine .append ?_ hrest
          by_cases hother : other = tx
          · subst hother
            obtain ⟨root, hroot, hroot'⟩ := hfailed t List.mem_cons_self
            rw [Trace.extract_of_root_failed other hroot hroot'] at hfirst
            cases hfirst
            exact .empty other
          · exact silent_of_extract hother hfirst

/-! ## Changes -/

theorem mem_transfer {sender recipient : Address} {amount : Word} {reason : DeltaReason}
    {cause : Option Hash} {change : Balance.Change}
    (h : change ∈ Balance.transfer sender recipient amount reason cause) :
    change.txHash = cause ∧ change.reason = reason ∧
      (change.account = sender ∧ change.amount = -amount ∨
        change.account = recipient ∧ change.amount = amount) := by
  simp only [Balance.transfer, List.mem_cons, List.not_mem_nil, or_false] at h
  rcases h with rfl | rfl
  · exact ⟨rfl, rfl, .inl ⟨rfl, rfl⟩⟩
  · exact ⟨rfl, rfl, .inr ⟨rfl, rfl⟩⟩

/-- A change of a transaction itself: its fee, the tip, or its own value, which moves only where the
receipt tells a recipient. -/
theorem mem_ofExecution {tx : Transaction} {receipt : Receipt} {change : Balance.Change}
    (h : change ∈ Balance.ofExecution block (tx, receipt)) :
    change.txHash = some tx.hash ∧
      (change.reason = .feePayment ∨ change.reason = .feeReceipt ∨
        ∃ account, Balance.recipient? tx receipt = some (account, change.reason) ∧
          (change.account = tx.sender ∧ change.amount = -tx.value ∨
            change.account = account ∧ change.amount = tx.value)) := by
  simp only [Balance.ofExecution, List.mem_cons] at h
  rcases h with rfl | rfl | h
  · exact ⟨rfl, .inl rfl⟩
  · exact ⟨rfl, .inr (.inl rfl)⟩
  · split at h
    · next account reason hrecipient =>
      obtain ⟨htx, rfl, hmoved⟩ := mem_transfer h
      exact ⟨htx, .inr (.inr ⟨account, hrecipient, hmoved⟩)⟩
    · cases h

/-- Where a transaction left no row in the traces, all its changes are those of the transaction
itself. -/
theorem Silent.mem_changes {tx : Hash} {input : Balance.Input} {paid : List Reward}
    {change : Balance.Change}
    (h : Silent tx ⟨input.internal, input.created, input.destroyed⟩)
    (hchange : change ∈ Balance.changes input paid) (htx : change.txHash = some tx) :
    ∃ e ∈ input.executions, change ∈ Balance.ofExecution input.block e := by
  simp only [Balance.changes, List.mem_append, List.mem_map, List.mem_flatMap] at hchange
  rcases hchange with (((⟨r, _, rfl⟩ | ⟨e, he, hchange⟩) | ⟨t, ht, hchange⟩) | ⟨c, hc, hchange⟩) |
    ⟨d, hd, hchange⟩
  · cases htx
  · exact ⟨e, he, hchange⟩
  · have hother := (mem_transfer hchange).1.symm.trans htx
    exact absurd (Option.some.inj hother) (h.internal t ht)
  · unfold Balance.ofCreated at hchange
    split at hchange
    · cases hchange
    · have hother := (mem_transfer hchange).1.symm.trans htx
      exact absurd (Option.some.inj hother) (h.created c hc)
  · have hother := (mem_transfer hchange).1.symm.trans htx
    exact absurd (Option.some.inj hother) (h.destroyed d hd)

theorem Silent.of_sameCreation {tx : Hash} {extracted : Trace.Output}
    {created : List ContractCreated} (h : Silent tx extracted)
    (hcreated : List.Forall₂ SameCreation extracted.created created) :
    Silent tx ⟨extracted.internal, created, extracted.destroyed⟩ where
  internal := h.internal
  created c hc := by
    obtain ⟨old, hold, hsame⟩ := exists_of_forall₂ hcreated.flip hc
    have htx : c.txHash = old.txHash := by rw [hsame]
    rw [htx]
    exact h.created old hold
  destroyed := h.destroyed

/-! ## Receipts -/

theorem recipient?_explain (tx : Transaction) (receipt : Receipt) (t : CallTrace) :
    Balance.recipient? tx (explain receipt t) = Balance.recipient? tx receipt := by
  unfold explain
  split <;> rfl

theorem success_of_recipient? {tx : Transaction} {receipt : Receipt} {target : Address × DeltaReason}
    (h : Balance.recipient? tx receipt = some target) : receipt.success = true := by
  unfold Balance.recipient? at h
  split at h
  · assumption
  · cases h

theorem served_of_mem_zip {fetched aligned : List Receipt} {traces : List CallTrace}
    (haligns : alignReceipts block fetched = .ok aligned) {tx : Transaction} {receipt : Receipt}
    (h : (tx, receipt) ∈ block.transactions.zip (List.zipWith explain aligned traces)) :
    ∃ served t, (fetched.filter fun r => r.txHash = tx.hash) = [served] ∧
      receipt = explain served t := by
  unfold alignReceipts at haligns
  split at haligns
  · cases haligns
  · next hlength =>
    have hsingle := single_of_receiptsFor haligns
      (by rw [List.length_map]; exact Nat.le_of_eq (not_not.mp hlength))
    rw [List.forall₂_map_left_iff, List.forall₂_iff_zip] at hsingle
    obtain ⟨i, hi, hget⟩ := List.mem_iff_getElem.mp h
    rw [List.getElem_zip, List.getElem_zipWith, Prod.mk.injEq] at hget
    obtain ⟨rfl, rfl⟩ := hget
    rw [List.length_zip, List.length_zipWith] at hi
    have hpair : (block.transactions[i], aligned[i]) ∈ block.transactions.zip aligned :=
      List.mem_iff_getElem.mpr ⟨i, by rw [List.length_zip]; omega, List.getElem_zip⟩
    exact ⟨_, _, hsingle.2 hpair, rfl⟩

theorem exists_mem_zip {receipts : List Receipt}
    (h : receipts.map Receipt.txHash = txHashes block) {tx : Transaction}
    (htx : tx ∈ block.transactions) :
    ∃ receipt, (tx, receipt) ∈ block.transactions.zip receipts := by
  obtain ⟨e, he, rfl⟩ := (exists_mem_zip_left (length_eq_of_txHashes h)).mpr ⟨tx, htx, rfl⟩
  exact ⟨e.2, he⟩

/-! ## What a failed transaction moves -/

/-- A transaction whose trace shows that its outermost call failed moves nothing that is nested in
it.  Besides what it pays for gas it moves at most its own value, and this only if the receipt that
was served for it counts as a success. -/
theorem deltas_of_failed_call (h : Runs node (normalize c block entry) w (some (.ok rows)) w')
    {tx : Transaction} (htx : tx ∈ block.transactions)
    (hfailed : ∀ t, node (some block.hash) (.trace tx.hash) (.ok t) →
      ∃ root, t.root? = some root ∧ root.failed = true) :
    ∃ fetched served, node (some block.hash) (.receipts block.hash) (.ok fetched) ∧
      (fetched.filter fun r => r.txHash = tx.hash) = [served] ∧
      ∀ d ∈ rows.deltas, d.txHash = some tx.hash →
        d.reason = .feePayment ∨ d.reason = .feeReceipt ∨
          (served.success = true ∧
            ∃ account, Balance.recipient? tx served = some (account, d.reason) ∧
              (d.account = tx.sender ∧ d.amount = -tx.value ∨
                d.account = account ∧ d.amount = tx.value)) := by
  have hderived := derived_of_normalize h
  obtain ⟨hnodup, hreceipts⟩ := transactions_of_derived hderived
  cases hderived with
  | @intro fetched aligned traces extracted created _ _ _ _ hanswered haligns htraced hextracts
      hcreated _ =>
      have hsilent : Silent tx.hash extracted := by
        refine silent_of_extractAll (fun t ht => ?_) hextracts
        exact hfailed t ((List.forall₂_iff_zip.mp htraced).2 ht)
      obtain ⟨receipt, hbeside⟩ := exists_mem_zip hreceipts htx
      obtain ⟨served, _, hserved, _⟩ := served_of_mem_zip haligns hbeside
      refine ⟨fetched, served, hanswered, hserved, fun d hd hdtx => ?_⟩
      obtain ⟨i, hi, rfl⟩ := List.mem_mapIdx.mp hd
      have hchange := List.mem_of_mem_filter (List.getElem_mem hi)
      obtain ⟨⟨tx', receipt'⟩, hexecuted, hown⟩ :=
        (hsilent.of_sameCreation hcreated).mem_changes hchange hdtx
      obtain ⟨hcause, hreason⟩ := mem_ofExecution hown
      have hhash : tx'.hash = tx.hash := Option.some.inj (hcause.symm.trans hdtx)
      obtain rfl := List.inj_on_of_nodup_map hnodup (List.of_mem_zip hexecuted).1 htx hhash
      obtain ⟨served', t, hserved', rfl⟩ := served_of_mem_zip haligns hexecuted
      obtain rfl : served' = served := by simpa using hserved'.symm.trans hserved
      rcases hreason with hfee | htip | ⟨account, hrecipient, hmoved⟩
      · exact .inl hfee
      · exact .inr (.inl htip)
      · rw [recipient?_explain] at hrecipient
        exact .inr (.inr ⟨success_of_recipient? hrecipient, account, hrecipient, hmoved⟩)

/-! The receipt may say that the call failed, or it may not tell. -/

theorem root_of_failedTrace {failed : Receipt} {focus : Option Hash} {t : CallTrace}
    (h : (mixedScene failed).conduct focus (.trace ⟨0x12⟩) (.ok t)) :
    ∃ root, t.root? = some root ∧ root.failed = true := by
  obtain rfl : failedTrace = t := Except.ok.inj (Scene.answer_of_conduct h)
  exact ⟨_, rfl, rfl⟩

theorem deltas_of_failed_call_mixed : ∃ rows,
    mixedRows evenSettings (.plain ⟨0x12⟩ false 21000) = some rows ∧
      (rows.deltas.filter fun d => d.txHash = some ⟨0x12⟩).length = 2 ∧
      ∀ d ∈ rows.deltas, d.txHash = some ⟨0x12⟩ →
        d.reason = .feePayment ∨ d.reason = .feeReceipt := by
  have hsome : (mixedRows evenSettings (.plain ⟨0x12⟩ false 21000)).isSome := by decide +kernel
  obtain ⟨rows, hrows⟩ := Option.isSome_iff_exists.mp hsome
  have hcount : ∀ rows ∈ mixedRows evenSettings (.plain ⟨0x12⟩ false 21000),
      (rows.deltas.filter fun d => d.txHash = some ⟨0x12⟩).length = 2 := by decide +kernel
  obtain ⟨_, _, hruns⟩ := runs_of_mixedRows hrows
  have htx : mixedCall ⟨0x12⟩ 7 ∈ mixedBlock.transactions := by decide
  obtain ⟨fetched, served, hanswered, hserved, hdeltas⟩ :=
    deltas_of_failed_call hruns htx fun _ => root_of_failedTrace
  obtain rfl : (mixedScene (.plain ⟨0x12⟩ false 21000)).receipts ⟨2⟩ = fetched :=
    Except.ok.inj (Scene.answer_of_conduct hanswered)
  obtain rfl : Receipt.plain ⟨0x12⟩ false 21000 = served := List.singleton_inj.mp hserved
  refine ⟨rows, hrows, hcount rows hrows, fun d hd hdtx => ?_⟩
  rcases hdeltas d hd hdtx with hfee | htip | ⟨hsuccess, _⟩
  · exact .inl hfee
  · exact .inr htip
  · cases hsuccess

def earlyReceipt : Json := .obj
  [("transactionHash", .str "0x0000000000000000000000000000000000000000000000000000000000000012"),
    ("gasUsed", .str "0x5208"), ("cumulativeGasUsed", .str "0x5208")]

/-- A receipt without a status lets the value of a call move that failed by its trace. -/
theorem failed_call_moves_value : ∃ receipt rows w w',
    earlyReceipt.field? "status" = none ∧ Rpc.receiptOfJson? earlyReceipt = some receipt ∧
      Runs (mixedScene receipt).conduct (normalize evenSettings mixedBlock mixedEntry) w
        (some (.ok rows)) w' ∧
      mixedCall ⟨0x12⟩ 7 ∈ mixedBlock.transactions ∧
      (∀ t, (mixedScene receipt).conduct (some mixedBlock.hash) (.trace ⟨0x12⟩) (.ok t) →
        ∃ root, t.root? = some root ∧ root.failed = true) ∧
      ∃ d ∈ rows.deltas, d.txHash = some ⟨0x12⟩ ∧ d.account = ⟨0xa2⟩ ∧ d.amount = 7 ∧
        d.reason = .transfer := by
  have hread : Rpc.receiptOfJson? earlyReceipt = some (.plain ⟨0x12⟩ true 21000) := by decide +kernel
  have hsome : (mixedRows evenSettings (.plain ⟨0x12⟩ true 21000)).isSome := by decide +kernel
  obtain ⟨rows, hrows⟩ := Option.isSome_iff_exists.mp hsome
  have hmoved : ∀ rows ∈ mixedRows evenSettings (.plain ⟨0x12⟩ true 21000),
      ∃ d ∈ rows.deltas, d.txHash = some ⟨0x12⟩ ∧ d.account = ⟨0xa2⟩ ∧ d.amount = 7 ∧
        d.reason = .transfer := by decide +kernel
  obtain ⟨w, w', hruns⟩ := runs_of_mixedRows hrows
  exact ⟨_, rows, w, w', by decide +kernel, hread, hruns, by decide, fun _ => root_of_failedTrace,
    hmoved rows hrows⟩

end Importer

end ChainIngest
