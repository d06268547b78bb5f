import ChainIngest.Proofs.DestructionFlags
/-!
# The account rows of a block

Whatever the rows of a block mention has an account row, once and in address order, and
nothing else has one.  So a balance change never lacks its account.
-/

namespace ChainIngest

namespace Store.Table

variable {κ ν : Type} [Key κ]

theorem pairwise_rows {t : Table κ ν} (key : ν → κ)
    (h : ∀ k row, t.get? k = some row → key row = k) :
    t.rows.Pairwise fun a b => Key.rank (key a) < Key.rank (key b) := by
  rw [rows, List.pairwise_map]
  refine t.ordered.imp_of_mem fun {a b} ha hb hlt => ?_
  rwa [h _ _ (mem_entries_iff.mp ha), h _ _ (mem_entries_iff.mp hb)]

end Store.Table

namespace Importer

open Store (Table)

variable {node : Conduct} {c : Config} {w w' : World} {block : Block} {entry : ImportEntry}
  {rows : BlockRows}

/-! ## Mentions -/

def Mentions (rows : BlockRows) (a : Address) : Prop :=
  (∃ tx ∈ rows.block.transactions, tx.sender = a ∨ tx.recipient = some a) ∨
  (∃ r ∈ rows.receipts, r.contractAddress = some a) ∨
  (∃ t ∈ rows.internal, t.sender = a ∨ t.recipient = a) ∨
  (∃ created ∈ rows.created, created.creator = a ∨ created.address = a) ∨
  (∃ d ∈ rows.destroyed, d.address = a ∨ d.refundAddress = a) ∨
  ∃ delta ∈ rows.deltas, delta.account = a

theorem mem_parties_iff {a : Address} {txs : List Transaction} {receipts : List Receipt}
    (hlength : txs.length = receipts.length) :
    a ∈ (txs.zip receipts).flatMap (fun e =>
        e.1.sender :: (e.1.recipient.toList ++ e.2.contractAddress.toList)) ↔
      (∃ tx ∈ txs, tx.sender = a ∨ tx.recipient = some a) ∨
        ∃ r ∈ receipts, r.contractAddress = some a := by
  rw [← exists_mem_zip_left hlength, ← exists_mem_zip_right hlength, ← exists_or]
  simp only [List.mem_flatMap, List.mem_cons, List.mem_append, Option.mem_toList, ← and_or_left,
    or_assoc, eq_comm (a := a)]

theorem mentions_iff {a : Address} (hlength : rows.block.transactions.length = rows.receipts.length) :
    Mentions rows a ↔ a ∈ mentioned (.ofRows rows) rows.deltas ∨
      a ∈ rows.destroyed.map ContractDestroyed.address := by
  have hparties := mem_parties_iff (a := a) hlength
  have hinternal : a ∈ rows.internal.flatMap (fun t => [t.sender, t.recipient]) ↔
      ∃ t ∈ rows.internal, t.sender = a ∨ t.recipient = a := by
    simp [eq_comm (a := a)]
  have hcreated : a ∈ rows.created.flatMap (fun c => [c.creator, c.address]) ↔
      ∃ created ∈ rows.created, created.creator = a ∨ created.address = a := by
    simp [eq_comm (a := a)]
  have hdestroyed : (∃ d ∈ rows.destroyed, d.address = a ∨ d.refundAddress = a) ↔
      a ∈ rows.destroyed.map ContractDestroyed.address ∨
        a ∈ rows.destroyed.map ContractDestroyed.refundAddress := by
    simp only [List.mem_map, and_or_left, exists_or]
  have hdeltas : (∃ delta ∈ rows.deltas, delta.account = a) ↔
      a ∈ rows.deltas.map BalanceDelta.account := by
    simp only [List.mem_map]
  rw [Mentions, hdestroyed, hdeltas, ← hinternal, ← hcreated, mentioned]
  simp only [List.mem_append, Balance.Input.executions, Balance.Input.ofRows, hparties, or_assoc]
  -- destroyed addresses stand apart in an input and beside the refunds here
  rw [or_comm (a := _ ∈ rows.deltas.map _), or_left_comm (a := _ ∈ rows.destroyed.map ContractDestroyed.refundAddress)]

/-! ## Account rows -/

theorem accounts_ascending (input : Balance.Input) (deltas : List BalanceDelta) :
    (accountRows input deltas).Pairwise fun a b => a.address.word.toNat < b.address.word.toNat := by
  obtain ⟨t, hrows, hget⟩ := exists_accountTable input deltas
  rw [hrows]
  refine Table.pairwise_rows Account.address fun a row hrow => ?_
  rw [hget] at hrow
  split at hrow
  · cases hrow
    rfl
  · split at hrow
    · cases hrow
      rfl
    · cases hrow

theorem exists_accountRow_iff {input : Balance.Input} {deltas : List BalanceDelta} {a : Address} :
    (∃ row ∈ accountRows input deltas, row.address = a) ↔
      a ∈ mentioned input deltas ∨ a ∈ input.destroyed.map ContractDestroyed.address := by
  constructor
  · rintro ⟨row, hrow, rfl⟩
    have hrow := mem_accountRows_iff.mp hrow
    split at hrow
    · next hdestroyed => exact .inr hdestroyed
    · exact .inl hrow.1
  · intro ha
    by_cases hdestroyed : a ∈ input.destroyed.map ContractDestroyed.address
    · exact ⟨⟨a, _, _⟩, mem_accountRows_iff.mpr (by rw [if_pos hdestroyed]), rfl⟩
    · have hmentioned := ha.resolve_right hdestroyed
      exact ⟨⟨a, _, _⟩, mem_accountRows_iff.mpr (by rw [if_neg hdestroyed]; exact ⟨hmentioned, rfl⟩),
        rfl⟩

theorem firstSeenBlock_of_mem {input : Balance.Input} {deltas : List BalanceDelta} {row : Account}
    (h : row ∈ accountRows input deltas) : row.firstSeenBlock = input.block.number := by
  have hrow := mem_accountRows_iff.mp h
  split at hrow
  · exact congrArg Account.firstSeenBlock hrow
  · exact congrArg Account.firstSeenBlock hrow.2

theorem accounts_of_derived (h : Derived node c block entry rows) :
    rows.accounts = accountRows (.ofRows rows) rows.deltas := by
  cases h
  rfl

/-- The account rows that are worked out for a block stand in address order, each address once.
They are those of just the addresses that the other rows mention; each was first seen in this
block, and is marked as destroyed in it if a contract destroyed itself there. -/
theorem accounts_of_normalize (h : Runs node (normalize c block entry) w (some (.ok rows)) w') :
    rows.block = block ∧
    (rows.accounts.Pairwise fun a b => a.address.word.toNat < b.address.word.toNat) ∧
    (∀ a, (∃ row ∈ rows.accounts, row.address = a) ↔ Mentions rows a) ∧
    ∀ row ∈ rows.accounts, row.firstSeenBlock = block.number ∧
      row.destroyedBlock =
        if row.address ∈ rows.destroyed.map ContractDestroyed.address then some block.number
        else none := by
  have hderived := derived_of_normalize h
  obtain ⟨rfl, _⟩ := hderived.marks
  have hlength := length_eq_of_txHashes (transactions_of_derived hderived).2
  rw [accounts_of_derived hderived]
  refine ⟨rfl, accounts_ascending _ _, fun a => ?_, fun row hrow =>
    ⟨firstSeenBlock_of_mem hrow, (flags_accountRows _ _).flagged row hrow⟩⟩
  rw [exists_accountRow_iff, mentions_iff hlength]
  exact Iff.rfl

theorem accounts_of_normalize_mixed : ∃ rows,
    mixedRows evenSettings (.plain ⟨0x12⟩ false 21000) = some rows ∧
      rows.accounts.map (fun row => (row.address, row.destroyedBlock)) =
        [(⟨0⟩, none), (⟨0xa1⟩, none), (⟨0xa2⟩, none), (⟨0xa4⟩, none), (⟨0xb1⟩, none),
          (⟨0xcc⟩, some 1)] ∧
      (∀ row ∈ rows.accounts, Mentions rows row.address ∧ row.firstSeenBlock = 1) ∧
      ∀ delta ∈ rows.deltas, ∃ row ∈ rows.accounts, row.address = delta.account := by
  have hsome : (mixedRows evenSettings (.plain ⟨0x12⟩ false 21000)).isSome := by decide +kernel
  have haccounts : ∀ rows ∈ mixedRows evenSettings (.plain ⟨0x12⟩ false 21000),
      rows.accounts.map (fun row => (row.address, row.destroyedBlock)) =
        [(⟨0⟩, none), (⟨0xa1⟩, none), (⟨0xa2⟩, none), (⟨0xa4⟩, none), (⟨0xb1⟩, none),
          (⟨0xcc⟩, some 1)] := by decide +kernel
  obtain ⟨rows, hrows⟩ := Option.isSome_iff_exists.mp hsome
  obtain ⟨_, _, hruns⟩ := runs_of_mixedRows hrows
  obtain ⟨_, _, hmentions, hfirst⟩ := accounts_of_normalize hruns
  refine ⟨rows, hrows, haccounts rows hrows, fun row hrow => ?_, fun delta hdelta => ?_⟩
  · exact ⟨(hmentions row.address).mp ⟨row, hrow, rfl⟩, (hfirst row hrow).1⟩
  · refine (hmentions delta.account).mpr ?_
    exact .inr (.inr (.inr (.inr (.inr ⟨delta, hdelta, rfl⟩))))

end Importer

end ChainIngest
