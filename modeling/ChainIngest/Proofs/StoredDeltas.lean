import ChainIngest.Proofs.CanonicalChain
import ChainIngest.Proofs.Conservation
import ChainIngest.Proofs.Journal
/-!
# Stored balance changes

The balance changes of a block follow from the block and from what its node says
of it.  So the table of changes is a function of the stored blocks, however often
a block was left and taken up again, and the balances of a store are those of its
canonical blocks.
-/

namespace ChainIngest.Importer

variable {tree : BlockTree} {node : Conduct} {c : Config} {schedule : Balance.Schedule}

/-! ## The changes of a block -/

/-- The balance sheet of a block; none where its receipts or traces cannot be read. -/
def BlockTree.sheet? (tree : BlockTree) (schedule : Balance.Schedule) (b : Block) :
    Option Balance.Sheet :=
  let txs := b.transactions.map Transaction.hash
  let traces := txs.map (tree.trace b.hash)
  match alignReceipts b (tree.receipts b.hash), extractAll txs traces with
  | .ok aligned, .ok extracted =>
      some (Balance.compute ⟨b, List.zipWith explain aligned traces, extracted.internal,
        extracted.created, extracted.destroyed⟩ schedule)
  | _, _ => none

def BlockTree.deltas (tree : BlockTree) (schedule : Balance.Schedule) (b : Block) :
    List BalanceDelta :=
  ((tree.sheet? schedule b).map Balance.Sheet.deltas).getD []

theorem deltas_of_sheet {b : Block} {sheet : Balance.Sheet}
    (h : tree.sheet? schedule b = some sheet) : tree.deltas schedule b = sheet.deltas := by
  rw [BlockTree.deltas, h]
  rfl

theorem exists_deltasOf (tree : BlockTree) (schedule : Balance.Schedule) (b : Block) :
    ∃ cs, tree.deltas schedule b = Balance.deltasOf b.id cs := by
  unfold BlockTree.deltas BlockTree.sheet?
  dsimp only
  split
  · exact ⟨_, rfl⟩
  · exact ⟨[], rfl⟩

theorem blockHash_of_mem_deltas {schedule : Balance.Schedule} {b : Block} {d : BalanceDelta}
    (h : d ∈ tree.deltas schedule b) : d.blockHash = b.hash := by
  obtain ⟨cs, hcs⟩ := exists_deltasOf tree schedule b
  rw [hcs] at h
  exact Balance.blockHash_of_deltasOf h

/-- The code of a created contract does not matter for balances. -/
theorem changes_of_sameCreation (input : Balance.Input) {created : List ContractCreated}
    (paid : List Reward) (h : List.Forall₂ SameCreation input.created created) :
    Balance.changes { input with created := created } paid = Balance.changes input paid := by
  have hcreated : created.flatMap Balance.ofCreated = input.created.flatMap Balance.ofCreated := by
    generalize input.created = before at h
    induction h with
    | nil => rfl
    | cons hsame _ ih =>
        rw [List.flatMap_cons, List.flatMap_cons, ih, hsame]
        rfl
  unfold Balance.changes
  rw [hcreated]
  rfl

theorem traces_of_forall {tree : BlockTree} (hnode : tree.Admits node) {block : Hash}
    {txs : List Hash} {traces : List CallTrace}
    (h : List.Forall₂ (fun tx t => node (some block) (.trace tx) (.ok t)) txs traces) :
    traces = txs.map (tree.trace block) := by
  induction h with
  | nil => rfl
  | @cons tx t _ _ ht _ ih =>
      have ht : t = tree.trace block tx := hnode (some block) (.trace tx) t ht block rfl
      rw [List.map_cons, ← ih, ht]

theorem compute_of_sameCreation (input : Balance.Input) {created : List ContractCreated}
    (h : List.Forall₂ SameCreation input.created created) :
    Balance.compute { input with created := created } schedule =
      Balance.compute input schedule := by
  unfold Balance.compute
  dsimp only
  rw [changes_of_sameCreation input _ h]
  rfl

theorem sheet_of_derived {block : Block} {entry : ImportEntry} {rows : BlockRows}
    (hnode : tree.Admits node) (h : Derived node c block entry rows) :
    tree.sheet? c.schedule block = some (Balance.compute (.ofRows rows) c.schedule) := by
  cases h with
  | @intro fetched aligned traces extracted created _ _ _ _ hanswered haligns htraced hextracts
      hcreated _ =>
      have hreceipts : fetched = tree.receipts block.hash :=
        hnode (some block.hash) (.receipts block.hash) fetched hanswered
      have htraces := traces_of_forall hnode htraced
      subst hreceipts htraces
      unfold BlockTree.sheet?
      dsimp only
      rw [haligns, hextracts]
      exact congrArg some (compute_of_sameCreation
        ⟨block, _, extracted.internal, extracted.created, extracted.destroyed⟩ hcreated).symm

/-- The rows worked out for a block hold its changes. -/
theorem deltas_of_derived {block : Block} {entry : ImportEntry} {rows : BlockRows}
    (hnode : tree.Admits node) (h : Derived node c block entry rows) :
    rows.deltas = tree.deltas c.schedule block := by
  rw [deltas_of_sheet (sheet_of_derived hnode h)]
  cases h
  rfl

/-! ## The table of changes -/

variable {start chain : Nat} {s s' : Store} {blocks : List Block} {w w' : World}

/-- A table of changes that holds those of every stored block, and no others.  Of two with one
position the first counts. -/
def Kept (tree : BlockTree) (schedule : Balance.Schedule) (s : Store) : Prop :=
  ∀ key, s.deltas.get? key = (s.blocks.get? key.1).bind fun row =>
    (tree.deltas schedule row.block).find? fun d => (d.blockHash, d.index) = key

theorem kept_empty (tree : BlockTree) (schedule : Balance.Schedule) : Kept tree schedule .empty :=
  fun _ => rfl

theorem Kept.of_touched {id : BlockId} (h : Kept tree schedule s) (htouched : Touched id s s') :
    Kept tree schedule s' := by
  rcases htouched with rfl | ⟨e, _, _, _, rfl⟩
  · exact h
  · exact h

theorem Kept.markReorg (h : Kept tree schedule s) (ancestor : BlockId) (id : Nat) (now : Int) :
    Kept tree schedule (s.markReorg ancestor id now) := by
  intro key
  rw [get?_blocks_markReorg, Option.bind_map]
  refine (h key).trans (congrArg _ (funext fun row => ?_))
  dsimp only [Function.comp_apply]
  split
  · rfl
  · rfl

/-- A block that was stored before brings the same changes again, and they are not written. -/
theorem Kept.commit {rows : BlockRows} (h : Kept tree schedule s)
    (hfiled : Filed tree s) (hheld : tree.Holds rows.block)
    (hdeltas : rows.deltas = tree.deltas schedule rows.block) :
    Kept tree schedule (s.commit rows) := by
  intro key
  have hwritten : (s.commit rows).deltas.get? key = (s.deltas.get? key).or
      ((rows.deltas.find? fun d => (d.blockHash, d.index) = key).map id) :=
    Store.Table.get?_foldl_insertNew (fun d : BalanceDelta => (d.blockHash, d.index)) id
      rows.deltas s.deltas key
  rw [hwritten, Option.map_id, id, h key, hdeltas]
  by_cases hhash : rows.block.hash = key.1
  · rw [← hhash, get?_blocks_commit_self, Option.bind_some, hhash]
    cases hold : s.blocks.get? key.1 with
    | none => rfl
    | some old =>
        obtain ⟨hhash', hheld'⟩ := hfiled key.1 old hold
        -- stored before, the block has brought the same changes already
        have hsame : old.block = rows.block := tree.unique hheld' hheld (hhash'.trans hhash.symm)
        rw [Option.bind_some, hsame, Option.or_self]
  -- no change of the new block is filed under another block
  · have hnone : ((tree.deltas schedule rows.block).find? fun d => (d.blockHash, d.index) = key) =
        none := by
      rw [List.find?_eq_none]
      intro d hd hkey
      rw [decide_eq_true_eq] at hkey
      exact hhash ((blockHash_of_mem_deltas hd).symm.trans (congrArg Prod.fst hkey))
    rw [hnone, Option.or_none, get?_blocks_commit_of_ne s hhash, Option.bind_map]
    refine congrArg _ (funext fun row => ?_)
    dsimp only [Function.comp_apply]
    split
    · rfl
    · rfl

/-- A step keeps the table of changes in order. -/
theorem Kept.of_step {out : Option (Except IngestError Outcome)} (h : Kept tree schedule w.store)
    (hfiled : Filed tree w.store) (hnode : tree.Admits node) (hschedule : c.schedule = schedule)
    (heffect : StepEffect node c w out w') : Kept tree schedule w'.store := by
  cases heffect with
  | nothing _ hsame => exact hsame.1 ▸ h
  | idle _ hsame => exact hsame.1 ▸ h
  | skipped _ _ _ _ _ hstore _ => exact hstore ▸ h
  | touched _ _ htouched _ => exact h.of_touched htouched
  | reorged _ _ _ _ hstore _ => exact hstore ▸ h.markReorg _ _ _
  | @committed block _ _ hoffer hcommit _ =>
      obtain ⟨hheld, _⟩ := hnode.holds_of_number hoffer.served
      obtain ⟨entry, rows, w₁, w₂, htouched, _, _, hrows, hstore⟩ := hcommit
      have hderived := derived_of_normalize hrows
      obtain ⟨rfl, _⟩ := hderived.marks
      rw [hstore, ← hschedule]
      rw [← hschedule] at h
      exact (h.of_touched htouched).commit (hfiled.of_touched htouched) hheld
        (deltas_of_derived hnode hderived)

theorem filed_of_reach {kind : Config → Prop} {at_work : Option Config} (hnode : tree.Admits node)
    (h : Reach node kind at_work w) : Filed tree w.store := by
  refine h.invariant (P := Filed tree) ?_ ?_ ?_ ?_
  · intro hash row hrow
    cases hrow
  · exact fun htouched hfiled => hfiled.of_touched htouched
  · exact fun ancestor id now hfiled => hfiled.markReorg ancestor id now
  · intro c w w₁ w₂ entry rows _ hcommits _ _ hfiled
    exact hfiled.commit (hnode.holds_of_number hcommits.offered.served).1

theorem kept_of_reach {kind : Config → Prop} {at_work : Option Config} (hnode : tree.Admits node)
    (hkind : ∀ c, kind c → c.schedule = schedule) (h : Reach node kind at_work w) :
    Kept tree schedule w.store := by
  induction h with
  | start => exact kept_empty tree schedule
  | enter _ _ hrestore ih => exact (runs_restoreHead hrestore rfl).1 ▸ ih
  | step hreach hstep ih =>
      exact ih.of_step (filed_of_reach hnode hreach) hnode (hkind _ hreach.kind)
        (effect_of_importNext hstep)

/-- Where importers of one chain commit a block it goes on top of the canonical ones. -/
theorem standing_of_commits {kind : Config → Prop} {chain : Nat} {rows : BlockRows}
    (hnode : tree.Admits node) (hkind : ∀ c, kind c → c.chainId = chain)
    (h : Reach node kind (some c) w) (hcommits : Commits node c w rows s') :
    ∃ start blocks, Standing tree start chain w.store blocks ∧
      Standing tree start chain s' (blocks ++ [rows.block]) := by
  obtain ⟨start, blocks, hstanding, hhead⟩ := standing_of_chain hnode (h.mono hkind)
  have hhead := hhead rfl
  obtain ⟨start, hstanding, hstart⟩ := hstanding.for_work hhead c
  have htops : Tops tree start blocks w.head := hhead ▸ hstanding.topped
  exact ⟨start, blocks, hstanding, hstanding.of_commit hnode hstart (hkind c h.kind) htops
    hcommits.offered hcommits.commitOf⟩

/-! ## Balances -/

theorem Standing.isCanonical?_iff (h : Standing tree start chain s blocks) {hash : Hash} :
    s.isCanonical? hash = some true ↔ ∃ b ∈ blocks, b.hash = hash := by
  unfold Store.isCanonical?
  rw [Option.map_eq_some_iff]
  constructor
  · rintro ⟨row, hrow, hcanonical⟩
    obtain ⟨rfl, _⟩ := h.filed hrow
    refine ⟨row.block, (h.flagged _).mp ?_, rfl⟩
    rw [hrow, ← hcanonical]
  · rintro ⟨b, hb, rfl⟩
    exact ⟨⟨b, true⟩, (h.flagged b).mpr hb, rfl⟩

theorem Kept.canonicalDeltas_eq (h : Kept tree schedule s) : s.canonicalDeltas =
    (s.deltas.filterKeys fun key => s.isCanonical? key.1 = some true).rows := by
  unfold Store.canonicalDeltas Store.Table.rows Store.Table.filterKeys
  rw [List.filter_map]
  refine congrArg _ (List.filter_congr ?_)
  rintro ⟨key, d⟩ hentry
  have hrow := (h key).symm.trans (Store.Table.mem_entries_iff.mp hentry)
  obtain ⟨row, _, hfind⟩ := Option.bind_eq_some_iff.mp hrow
  have hkey := List.find?_some hfind
  rw [decide_eq_true_eq] at hkey
  rw [Function.comp_apply, ← hkey]

/-- Stores with the same canonical blocks have the same balances, whatever else they hold. -/
theorem canonicalBalances_eq {start' chain' : Nat} (hstanding : Standing tree start chain s blocks)
    (hkept : Kept tree schedule s) (hstanding' : Standing tree start' chain' s' blocks)
    (hkept' : Kept tree schedule s') : s.canonicalBalances = s'.canonicalBalances := by
  have hcanonical : ∀ hash, s.isCanonical? hash = some true ↔ s'.isCanonical? hash = some true := by
    intro hash
    rw [hstanding.isCanonical?_iff, hstanding'.isCanonical?_iff]
  have htables : (s.deltas.filterKeys fun key => s.isCanonical? key.1 = some true) =
      s'.deltas.filterKeys fun key => s'.isCanonical? key.1 = some true := by
    apply Store.Table.ext_get?
    intro key
    rw [Store.Table.get?_filterKeys, Store.Table.get?_filterKeys]
    by_cases hkey : s.isCanonical? key.1 = some true
    · obtain ⟨b, hb, hhash⟩ := hstanding.isCanonical?_iff.mp hkey
      rw [if_pos (by simpa using hkey), if_pos (by simpa using (hcanonical _).mp hkey), hkept key,
        hkept' key, ← hhash, (hstanding.flagged b).mpr hb, (hstanding'.flagged b).mpr hb]
    · rw [if_neg (by simpa using hkey),
        if_neg (by simpa using fun hkey' => hkey ((hcanonical _).mpr hkey'))]
  unfold Store.canonicalBalances
  rw [hkept.canonicalDeltas_eq, hkept'.canonicalDeltas_eq, htables]

end ChainIngest.Importer
