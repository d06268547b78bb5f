import ChainIngest.Proofs.Recommit
import ChainIngest.Proofs.TransactionRows
/-!
# Flags of destroyed accounts

A block flags the accounts that its traces destroy with its height, and a commit
writes this over an earlier flag.  Nothing else touches a flag, a reorg does not.  So
a flag tells of the block committed last, on whatever branch, that destroys the
account.  Heights only rise while a block stays canonical: where a canonical block
destroys the account, the flag is never lower than this block, and it is higher only
if a block of that height was replaced.
-/

namespace ChainIngest

namespace Store

/-! ## Reading flags -/

def destroyedAt? (s : Store) (address : Address) : Option Nat :=
  (s.accounts.get? address).bind Account.destroyedBlock

def block? (s : Store) (hash : Hash) : Option Block := (s.blocks.get? hash).map StoredBlock.block

theorem exists_row_iff {s : Store} {p : Block → Prop} :
    (∃ row ∈ s.blocks.rows, p row.block) ↔ ∃ hash b, s.block? hash = some b ∧ p b := by
  constructor
  · rintro ⟨row, hrow, hp⟩
    obtain ⟨hash, hget⟩ := Table.mem_rows_iff.mp hrow
    exact ⟨hash, row.block, by rw [block?, hget, Option.map_some], hp⟩
  · rintro ⟨hash, b, hb, hp⟩
    obtain ⟨row, hget, rfl⟩ := Option.map_eq_some_iff.mp hb
    exact ⟨row, Table.mem_rows_iff.mpr ⟨hash, hget⟩, hp⟩

theorem block?_commit (s : Store) (rows : BlockRows) (hash : Hash) :
    (s.commit rows).block? hash =
      if rows.block.hash = hash then some rows.block else s.block? hash := by
  by_cases hhash : rows.block.hash = hash
  · subst hhash
    rw [if_pos rfl, block?, Importer.get?_blocks_commit_self, Option.map_some]
  · rw [if_neg hhash, block?, Importer.get?_blocks_commit_of_ne s hhash, Option.map_map, block?]
    refine congrFun (congrArg _ (funext fun row => ?_)) _
    dsimp only [Function.comp_apply]
    split
    · rfl
    · rfl

theorem block?_markReorg (s : Store) (ancestor : BlockId) (chainId : Nat) (now : Int)
    (hash : Hash) : (s.markReorg ancestor chainId now).block? hash = s.block? hash := by
  rw [block?, Importer.get?_blocks_markReorg, Option.map_map, block?]
  refine congrFun (congrArg _ (funext fun row => ?_)) _
  dsimp only [Function.comp_apply]
  split
  · rfl
  · rfl

/-! ## Flags of a commit -/

theorem destroyedBlock_foldl_merge {flag : Option Nat} {seen : List Account}
    (h : ∀ a ∈ seen, a.destroyedBlock = flag) (old : Option Account) :
    (seen.foldl (fun old a => some (mergeAccount a old)) old).bind Account.destroyedBlock =
      (if seen = [] then none else flag).or (old.bind Account.destroyedBlock) := by
  induction seen generalizing old with
  | nil => rfl
  | cons a seen ih =>
      obtain ⟨hflag, hrest⟩ := List.forall_mem_cons.mp h
      have hmerged : (some (mergeAccount a old)).bind Account.destroyedBlock =
          flag.or (old.bind Account.destroyedBlock) := by
        cases old with
        | none => simp [mergeAccount, hflag]
        | some stored => simp [mergeAccount, hflag, Option.orElse_eq_or]
      rw [List.foldl_cons, ih hrest, hmerged, if_neg (List.cons_ne_nil a seen)]
      split
      · rw [Option.none_or]
      · rw [← Option.or_assoc, Option.or_self]

structure Flags (accounts : List Account) (destroyed : List Address) (number : Nat) : Prop where
  flagged : ∀ row ∈ accounts,
    row.destroyedBlock = if row.address ∈ destroyed then some number else none
  listed : ∀ address ∈ destroyed, ∃ row ∈ accounts, row.address = address

theorem destroyedAt?_commit (s : Store) {rows : BlockRows} {destroyed : List Address}
    {number : Nat} (h : Flags rows.accounts destroyed number) (address : Address) :
    (s.commit rows).destroyedAt? address =
      if address ∈ destroyed then some number else s.destroyedAt? address := by
  have hget : (s.commit rows).accounts.get? address = _ :=
    Table.rowwise_foldl_alter Account.address mergeAccount rows.accounts s.accounts address
  have hflag : ∀ a ∈ rows.accounts.filter fun a => a.address = address,
      a.destroyedBlock = if address ∈ destroyed then some number else none := by
    intro a ha
    obtain ⟨ha, haddress⟩ := List.mem_filter.mp ha
    rw [h.flagged a ha, of_decide_eq_true haddress]
  rw [destroyedAt?, hget, destroyedBlock_foldl_merge hflag]
  by_cases hdestroyed : address ∈ destroyed
  · obtain ⟨row, hrow, haddress⟩ := h.listed address hdestroyed
    have hne : (rows.accounts.filter fun a => a.address = address) ≠ [] :=
      List.ne_nil_of_mem (List.mem_filter.mpr ⟨hrow, decide_eq_true haddress⟩)
    rw [if_neg hne, if_pos hdestroyed, if_pos hdestroyed, Option.some_or]
  · rw [if_neg hdestroyed, if_neg hdestroyed, ite_self, Option.none_or, destroyedAt?]

end Store

namespace Importer

open Store (Table Flags)

variable {tree : BlockTree} {node : Conduct} {c : Config} {chain : Nat} {log : List BlockRows}
  {w w' : World}

/-! ## The account rows of a block -/

theorem get?_foldl_seen (number : Nat) (addresses : List Address) (a : Address) :
    (addresses.foldl (fun (t : Table Address Account) a => t.insertNew a ⟨a, number, none⟩)
      .empty).get? a = if a ∈ addresses then some ⟨a, number, none⟩ else none := by
  induction addresses using List.reverseRecOn with
  | nil => rfl
  | append_singleton addresses last ih =>
      simp only [List.foldl_append, List.foldl_cons, List.foldl_nil, List.mem_append,
        List.mem_singleton]
      by_cases ha : last = a
      · subst ha
        rw [if_pos (Or.inr rfl), Table.get?_insertNew_self, ih]
        split
        · rfl
        · rfl
      · rw [Table.get?_insertNew_of_ne _ _ ha, ih]
        simp only [Ne.symm ha, or_false]

theorem get?_foldl_flag {number : Nat} {seen : Table Address Account}
    (hseen : ∀ a row, seen.get? a = some row → row = ⟨a, number, none⟩)
    (destroyed : List ContractDestroyed) (a : Address) :
    (destroyed.foldl (fun t d => t.alter d.address fun old =>
      { old.getD ⟨d.address, number, none⟩ with destroyedBlock := some number }) seen).get? a =
      if a ∈ destroyed.map ContractDestroyed.address then some ⟨a, number, some number⟩
      else seen.get? a := by
  induction destroyed using List.reverseRecOn with
  | nil => rfl
  | append_singleton destroyed d ih =>
      simp only [List.foldl_append, List.foldl_cons, List.foldl_nil, List.map_append, List.map_cons,
        List.map_nil, List.mem_append, List.mem_singleton]
      by_cases ha : d.address = a
      · subst ha
        rw [if_pos (Or.inr rfl), Table.get?_alter_self, ih]
        split
        · rfl
        · cases hrow : seen.get? d.address with
          | none => rfl
          | some row => rw [hseen _ _ hrow, Option.getD_some]
      · rw [Table.get?_alter_of_ne _ _ ha, ih]
        simp only [Ne.symm ha, or_false]

/-- The account rows of a block are those of a table: an address is filed there if it is mentioned or
destroyed, with the block's height as the first and, if it is destroyed, as its flag. -/
theorem exists_accountTable (input : Balance.Input) (deltas : List BalanceDelta) :
    ∃ t : Table Address Account, accountRows input deltas = t.rows ∧ ∀ a,
      t.get? a = if a ∈ input.destroyed.map ContractDestroyed.address then
          some ⟨a, input.block.number, some input.block.number⟩
        else if a ∈ mentioned input deltas then some ⟨a, input.block.number, none⟩ else none := by
  refine ⟨_, rfl, fun a => ?_⟩
  rw [get?_foldl_flag, get?_foldl_seen]
  intro a row hrow
  rw [get?_foldl_seen] at hrow
  split at hrow
  · exact (Option.some.inj hrow).symm
  · cases hrow

theorem mem_accountRows_iff {input : Balance.Input} {deltas : List BalanceDelta} {row : Account} :
    row ∈ accountRows input deltas ↔
      if row.address ∈ input.destroyed.map ContractDestroyed.address then
        row = ⟨row.address, input.block.number, some input.block.number⟩
      else row.address ∈ mentioned input deltas ∧ row = ⟨row.address, input.block.number, none⟩ := by
  obtain ⟨t, hrows, hget⟩ := exists_accountTable input deltas
  simp only [hrows, Table.mem_rows_iff, hget]
  constructor
  · rintro ⟨a, hget⟩
    split at hget
    · next ha =>
      cases hget
      rw [if_pos ha]
    · next ha =>
      split at hget
      · next hmentioned =>
        cases hget
        rw [if_neg ha]
        exact ⟨hmentioned, rfl⟩
      · cases hget
  · intro hrow
    refine ⟨row.address, ?_⟩
    split at hrow
    · next ha => rw [if_pos ha, ← hrow]
    · next ha => rw [if_neg ha, if_pos hrow.1, ← hrow.2]

theorem flags_accountRows (input : Balance.Input) (deltas : List BalanceDelta) :
    Flags (accountRows input deltas) (input.destroyed.map ContractDestroyed.address)
      input.block.number := by
  constructor
  · intro row hrow
    have hrow := mem_accountRows_iff.mp hrow
    split at hrow
    · next ha => rw [if_pos ha, hrow]
    · next ha => rw [if_neg ha, hrow.2]
  · intro a ha
    exact ⟨⟨a, _, _⟩, mem_accountRows_iff.mpr (by rw [if_pos ha]), rfl⟩

def BlockTree.destroyed (tree : BlockTree) (b : Block) : List Address :=
  (txHashes b).flatMap fun tx =>
    match Trace.extract tx (tree.trace b.hash tx) with
    | .ok out => out.destroyed.map ContractDestroyed.address
    | .error _ => []

theorem destroyed_of_extractAll {block : Hash} {txs : List Hash} {out : Trace.Output}
    (h : extractAll txs (txs.map (tree.trace block)) = .ok out) :
    out.destroyed.map ContractDestroyed.address = txs.flatMap fun tx =>
      match Trace.extract tx (tree.trace block tx) with
      | .ok out => out.destroyed.map ContractDestroyed.address
      | .error _ => [] := by
  induction txs generalizing out with
  | nil =>
      cases h
      rfl
  | cons tx txs ih =>
      obtain ⟨first, others, hfirst, hothers, rfl⟩ := ok_of_extractAll_cons h
      rw [List.flatMap_cons, hfirst, ← ih hothers]
      exact List.map_append

theorem flags_of_derived {block : Block} {entry : ImportEntry} {rows : BlockRows}
    (hnode : tree.Admits node) (h : Derived node c block entry rows) :
    Flags rows.accounts (tree.destroyed block) block.number := by
  cases h with
  | intro _ _ htraced hextracts _ _ =>
      obtain rfl := traces_of_forall hnode htraced
      rw [BlockTree.destroyed, txHashes, ← destroyed_of_extractAll hextracts]
      exact flags_accountRows _ _

/-! ## Flags along a history -/

/-- Tables whose flags and blocks are those of the commits so far, where since a canonical block was
committed only blocks above it were. -/
structure Flagged (tree : BlockTree) (log : List BlockRows) (s : Store) : Prop where
  held : ∀ rows ∈ log, tree.Holds rows.block
  flag : ∀ a, s.destroyedAt? a =
    (log.find? fun rows => a ∈ tree.destroyed rows.block).map fun rows => rows.block.number
  stored : ∀ hash b, s.block? hash = some b ↔ b.hash = hash ∧ ∃ rows ∈ log, rows.block = b
  risen : ∀ b ∈ s.canonicalBlocks, ∃ newer rows older, log = newer ++ rows :: older ∧
    rows.block = b ∧ ∀ later ∈ newer, b.number < later.block.number

namespace Flagged

variable {s : Store}

theorem empty (tree : BlockTree) : Flagged tree [] .empty where
  held := by simp
  flag _ := rfl
  stored hash b := by
    constructor
    · intro h
      cases h
    · rintro ⟨_, rows, h, _⟩
      cases h
  risen b h := by cases h

theorem of_touched {id : BlockId} {s' : Store} (h : Flagged tree log s) (htouched : Touched id s s') :
    Flagged tree log s' := by
  rcases htouched with rfl | ⟨e, _, _, _, rfl⟩
  · exact h
  · exact ⟨h.held, h.flag, h.stored, h.risen⟩

theorem markReorg (h : Flagged tree log s) (ancestor : BlockId) (id : Nat) (now : Int) :
    Flagged tree log (s.markReorg ancestor id now) where
  held := h.held
  flag := h.flag
  stored hash b := by
    rw [Store.block?_markReorg]
    exact h.stored hash b
  risen b hb := h.risen b (mem_canonicalBlocks_of_markReorg hb)

theorem commit {start : Nat} {blocks : List Block} {rows : BlockRows} (h : Flagged tree log s)
    (hflags : Flags rows.accounts (tree.destroyed rows.block) rows.block.number)
    (hbefore : ∀ b ∈ blocks, b ∈ s.canonicalBlocks)
    (hafter : Standing tree start chain (s.commit rows) (blocks ++ [rows.block])) :
    Flagged tree (rows :: log) (s.commit rows) where
  held := List.forall_mem_cons.mpr ⟨hafter.holds (by simp), h.held⟩
  flag a := by
    rw [Store.destroyedAt?_commit s hflags, h.flag]
    by_cases ha : a ∈ tree.destroyed rows.block
    · rw [if_pos ha, List.find?_cons_of_pos (by simpa using ha), Option.map_some]
    · rw [if_neg ha, List.find?_cons_of_neg (by simpa using ha)]
  stored hash b := by
    have hheld : tree.Holds rows.block := hafter.holds (by simp)
    rw [Store.block?_commit]
    by_cases hhash : rows.block.hash = hash
    · rw [if_pos hhash]
      constructor
      · intro hb
        cases hb
        exact ⟨hhash, rows, List.mem_cons_self, rfl⟩
      · rintro ⟨hb, row, hrow, rfl⟩
        rcases List.mem_cons.mp hrow with rfl | hrow
        · rfl
        -- committed before, it is the same block of the tree
        · rw [tree.unique (h.held row hrow) hheld (hb.trans hhash.symm)]
    · rw [if_neg hhash, h.stored]
      refine and_congr_right fun hb => ?_
      have hnew : rows.block ≠ b := fun heq => hhash (heq ▸ hb)
      simp [hnew]
  risen b hb := by
    rcases List.mem_append.mp (hafter.mem_canonicalBlocks.mp hb) with hold | hnew
    · obtain ⟨newer, row, older, rfl, hrow, hnewer⟩ := h.risen b (hbefore b hold)
      refine ⟨rows :: newer, row, older, rfl, hrow, List.forall_mem_cons.mpr ⟨?_, hnewer⟩⟩
      -- the new block stands on top of all that are still canonical
      exact hafter.stacked.number_lt_of_append hold
    · obtain rfl := List.mem_singleton.mp hnew
      exact ⟨[], rows, log, rfl, rfl, by simp⟩

/-- The flag of an account that a canonical block destroys is at least this block's height. -/
theorem le_destroyedAt? (h : Flagged tree log s) {b : Block} (hb : b ∈ s.canonicalBlocks) {a : Address}
    (ha : a ∈ tree.destroyed b) : ∃ n, s.destroyedAt? a = some n ∧ b.number ≤ n := by
  obtain ⟨newer, rows, older, rfl, rfl, hnewer⟩ := h.risen b hb
  rw [h.flag, List.find?_append]
  cases hfind : newer.find? fun rows => a ∈ tree.destroyed rows.block with
  | some later =>
      exact ⟨_, rfl, Nat.le_of_lt (hnewer later (List.mem_of_find?_eq_some hfind))⟩
  | none =>
      rw [List.find?_cons_of_pos (by simpa using ha)]
      exact ⟨_, rfl, Nat.le_refl _⟩

/-- A flag is the height of a stored block that destroys the account. -/
theorem exists_of_destroyedAt? (h : Flagged tree log s) {a : Address} {n : Nat}
    (hn : s.destroyedAt? a = some n) :
    ∃ row ∈ s.blocks.rows, a ∈ tree.destroyed row.block ∧ row.block.number = n := by
  rw [h.flag] at hn
  obtain ⟨rows, hfind, rfl⟩ := Option.map_eq_some_iff.mp hn
  have ha : a ∈ tree.destroyed rows.block := by simpa using List.find?_some hfind
  have hrows := (h.stored _ _).mpr ⟨rfl, rows, List.mem_of_find?_eq_some hfind, rfl⟩
  exact (Store.exists_row_iff (p := fun b => a ∈ tree.destroyed b ∧ b.number = rows.block.number)).mpr
    ⟨_, _, hrows, ha, rfl⟩

theorem isSome_destroyedAt?_iff (h : Flagged tree log s) {a : Address} :
    (s.destroyedAt? a).isSome ↔ ∃ row ∈ s.blocks.rows, a ∈ tree.destroyed row.block := by
  constructor
  · intro hsome
    obtain ⟨n, hn⟩ := Option.isSome_iff_exists.mp hsome
    obtain ⟨row, hrow, ha, _⟩ := h.exists_of_destroyedAt? hn
    exact ⟨row, hrow, ha⟩
  · intro hrow
    obtain ⟨hash, b, hb, ha⟩ := (Store.exists_row_iff (p := fun b => a ∈ tree.destroyed b)).mp hrow
    obtain ⟨_, rows, hrows, rfl⟩ := (h.stored hash b).mp hb
    rw [h.flag, Option.isSome_map, List.find?_isSome]
    exact ⟨rows, hrows, decide_eq_true ha⟩

end Flagged

theorem flagged_of_journal {kind : Config → Prop} {at_work : Option Config}
    (hnode : tree.Admits node) (hkind : ∀ c, kind c → c.chainId = chain)
    (h : Journal node kind log at_work w) : Flagged tree log w.store := by
  refine h.invariant (P := Flagged tree) (.empty tree) ?_ ?_ ?_
  · exact fun htouched hflagged => hflagged.of_touched htouched
  · exact fun ancestor id now hflagged => hflagged.markReorg ancestor id now
  · intro c log w w₁ w₂ entry rows hlog hcommits htouched hrows hflagged
    obtain ⟨start, blocks, hbefore, hafter⟩ :=
      standing_of_commits hnode hkind (reach_of_journal hlog) hcommits
    refine hflagged.commit (flags_of_derived hnode (derived_of_normalize hrows)) ?_ hafter
    intro b hb
    rw [htouched.canonicalBlocks]
    exact hbefore.mem_canonicalBlocks.mpr hb

/-- Whether an account is flagged just with the last canonical block that destroys it. -/
def FlagsCanonical (tree : BlockTree) (s : Store) (a : Address) : Prop :=
  ∀ n, s.destroyedAt? a = some n ↔
    (∃ b ∈ s.canonicalBlocks, a ∈ tree.destroyed b ∧ b.number = n) ∧
      ∀ b ∈ s.canonicalBlocks, a ∈ tree.destroyed b → b.number ≤ n

/-- If only canonical blocks destroy an account its flag is the last one's height. -/
theorem Flagged.flagsCanonical {s : Store} (h : Flagged tree log s) {a : Address}
    (hcanonical : ∀ row ∈ s.blocks.rows, a ∈ tree.destroyed row.block → row.canonical = true) :
    FlagsCanonical tree s a := by
  intro n
  have hfound : ∀ {n}, s.destroyedAt? a = some n →
      ∃ b ∈ s.canonicalBlocks, a ∈ tree.destroyed b ∧ b.number = n := by
    intro n hn
    obtain ⟨row, hrow, ha, hnumber⟩ := h.exists_of_destroyedAt? hn
    exact ⟨row.block, List.mem_map.mpr
      ⟨row, List.mem_filter.mpr ⟨hrow, hcanonical row hrow ha⟩, rfl⟩, ha, hnumber⟩
  constructor
  · intro hn
    refine ⟨hfound hn, fun b hb ha => ?_⟩
    obtain ⟨n', hn', hle⟩ := h.le_destroyedAt? hb ha
    exact Option.some.inj (hn'.symm.trans hn) ▸ hle
  · rintro ⟨⟨b, hb, ha, rfl⟩, hlast⟩
    obtain ⟨n, hn, hle⟩ := h.le_destroyedAt? hb ha
    obtain ⟨b', hb', ha', rfl⟩ := hfound hn
    rw [hn, Nat.le_antisymm (hlast b' hb' ha') hle]

/-- Whatever branches a consistent node showed, whatever failed and wherever steps were broken off:
an account is flagged as destroyed if any stored block destroys it, canonical or replaced, and then
with the height of the block committed last that does.  This is not below the last canonical block
that destroys the account, and if no replaced block destroys it, it is this block's height. -/
theorem destroyedAt?_of_reach {at_work : Option Config} (hnode : tree.Admits node)
    (h : Reach node (fun c => c.chainId = chain) at_work w) (a : Address) :
    (∃ log, Journal node (fun c => c.chainId = chain) log at_work w) ∧
    (∀ log, Journal node (fun c => c.chainId = chain) log at_work w → w.store.destroyedAt? a =
      (log.find? fun rows => a ∈ tree.destroyed rows.block).map fun rows => rows.block.number) ∧
    ((w.store.destroyedAt? a).isSome ↔
      ∃ row ∈ w.store.blocks.rows, a ∈ tree.destroyed row.block) ∧
    (∀ n, w.store.destroyedAt? a = some n →
      ∃ row ∈ w.store.blocks.rows, a ∈ tree.destroyed row.block ∧ row.block.number = n) ∧
    (∀ b ∈ w.store.canonicalBlocks, a ∈ tree.destroyed b →
      ∃ n, w.store.destroyedAt? a = some n ∧ b.number ≤ n) ∧
    ((∀ row ∈ w.store.blocks.rows, a ∈ tree.destroyed row.block → row.canonical = true) →
      FlagsCanonical tree w.store a) := by
  obtain ⟨log, hlog⟩ := journal_of_reach h
  have hflagged := flagged_of_journal hnode (fun _ hc => hc) hlog
  exact ⟨⟨log, hlog⟩, fun log hlog => (flagged_of_journal hnode (fun _ hc => hc) hlog).flag a,
    hflagged.isSome_destroyedAt?_iff, fun _ => hflagged.exists_of_destroyedAt?,
    fun _ hb ha => hflagged.le_destroyedAt? hb ha, hflagged.flagsCanonical⟩

/-! ## A destruction on an abandoned branch -/

def razingBlock : Block := pricedBlock 1 ⟨6⟩ ⟨1⟩ [{ movedTransaction ⟨6⟩ with hash := ⟨0x21⟩ }]

def razingReceipts (block : Hash) : List Receipt :=
  if block = ⟨6⟩ then [Receipt.plain ⟨0x21⟩ true 21000] else movedReceipts block

def razingTrace (tx : Hash) : CallTrace :=
  if tx = ⟨0x21⟩ then
    (CallTrace.ofRoot (.plain .call ⟨0xa1⟩ (some ⟨0xcc⟩) 0)).pushChild 0
      (.plain .selfDestruct ⟨0xcc⟩ (some ⟨0xa2⟩) 0)
  else movedTrace

def razingTree : BlockTree :=
  .ofBlocks (razingBlock :: lateBlocks) razingReceipts razingTrace (by decide) (by decide)

def razingScene : Scene := ⟨[rootBlock, razingBlock], razingReceipts, razingTrace, tokenCode⟩

def sparingScene : Scene := ⟨lateBlocks, razingReceipts, razingTrace, tokenCode⟩

def razingNode : Conduct := oneOf [razingScene, sparingScene]

def afterRazing : Session Store :=
  (enact evenSettings [razingScene, razingScene] (.start .empty evenSettings 0)).2

def afterSparing : Session Store :=
  (enact evenSettings [razingScene, razingScene, sparingScene, sparingScene, sparingScene]
    (.start .empty evenSettings 0)).2

theorem admits_razingNode : razingTree.Admits razingNode := by
  apply admits_oneOf
  rw [List.forall_mem_cons, List.forall_mem_singleton]
  refine ⟨⟨?_, rfl, rfl⟩, ⟨fun _ => List.mem_cons_of_mem _, rfl, rfl⟩⟩
  simp [razingScene, lateBlocks]

theorem reach_afterRazing :
    ∃ focus, Reach razingNode (fun c => c.chainId = 1) (some evenSettings)
      (afterRazing.world id focus) :=
  reach_enact rfl (by simp)

theorem reach_afterSparing :
    ∃ focus, Reach razingNode (fun c => c.chainId = 1) (some evenSettings)
      (afterSparing.world id focus) :=
  reach_enact rfl (by simp)

theorem destroyedAt?_of_reach_razing : ∃ w w',
    Reach razingNode (fun c => c.chainId = 1) (some evenSettings) w ∧
      w.store.isCanonical? ⟨6⟩ = some true ∧ FlagsCanonical razingTree w.store ⟨0xcc⟩ ∧
      Reach razingNode (fun c => c.chainId = 1) (some evenSettings) w' ∧
      w'.store.isCanonical? ⟨6⟩ = some false ∧ (w'.store.destroyedAt? ⟨0xcc⟩).isSome := by
  obtain ⟨focus, hreach⟩ := reach_afterRazing
  obtain ⟨focus', hreach'⟩ := reach_afterSparing
  obtain ⟨_, _, _, _, _, hcanonical⟩ := destroyedAt?_of_reach admits_razingNode hreach ⟨0xcc⟩
  obtain ⟨_, _, hsome, _⟩ := destroyedAt?_of_reach admits_razingNode hreach' ⟨0xcc⟩
  have hbefore : ∀ row ∈ afterRazing.outside.blocks.rows,
      ⟨0xcc⟩ ∈ razingTree.destroyed row.block → row.canonical = true := by decide +kernel
  have hafter : ∃ row ∈ afterSparing.outside.blocks.rows,
      ⟨0xcc⟩ ∈ razingTree.destroyed row.block := by decide +kernel
  have hkept : afterRazing.outside.isCanonical? ⟨6⟩ = some true := by decide +kernel
  have hleft : afterSparing.outside.isCanonical? ⟨6⟩ = some false := by decide +kernel
  exact ⟨_, _, hreach, hkept, hcanonical hbefore, hreach', hleft, hsome.mpr hafter⟩

/-- The flag outlives the branch: the importer is at the tip of a chain in which nothing destroys
the account. -/
theorem not_flagsCanonical : ¬ ∀ {tree : BlockTree} {node : Conduct} {c : Config} {w w' : World},
    tree.Admits node → Reach node (fun c => c.chainId = 1) (some c) w →
      Runs node (importNext c) w (some (.ok .idle)) w' → ∀ a, FlagsCanonical tree w'.store a := by
  intro hclaim
  obtain ⟨focus, hreach⟩ := reach_afterSparing
  have hanswering : ∀ around ∈ [sparingScene].map Scene.around, around.Answering razingNode :=
    answering_scenes (by simp)
  obtain ⟨focus', hsteps⟩ : ∃ focus', Steps razingNode evenSettings (afterSparing.world id focus)
      [.idle] ((enact evenSettings [sparingScene] afterSparing).2.world id focus') :=
    steps_lead focus hanswering (by decide +kernel)
  cases hsteps with
  | cons hidle hrest =>
    cases hrest
    have hflag : (enact evenSettings [sparingScene] afterSparing).2.outside.destroyedAt? ⟨0xcc⟩ =
        some 1 := by decide +kernel
    have hspared : ∀ b ∈ (enact evenSettings [sparingScene] afterSparing).2.outside.canonicalBlocks,
        ⟨0xcc⟩ ∉ razingTree.destroyed b := by decide +kernel
    obtain ⟨⟨b, hb, hdestroyed, _⟩, _⟩ :=
      (hclaim admits_razingNode hreach hidle ⟨0xcc⟩ 1).mp hflag
    exact hspared b hb hdestroyed

end Importer

end ChainIngest
