import ChainIngest.Proofs.Classification
import ChainIngest.Proofs.Convergence
/-!
# Token movements after reorgs

What an abandoned branch told of contracts stays in the tables and in the memory of
importers.  It leaves no trace in the token movements of the branch that was followed
instead, unless a contract had other code on the way than the node serves for it, or a
transaction is on one chain twice.
-/

namespace ChainIngest.Importer

open Store (Table)

variable {tree : BlockTree} {code : Address → Bytes} {kind : Config → Prop}

/-- However importers came to have a branch as their canonical chain, the token movements of its
transactions are those that a new importer finds which has seen this branch only. -/
def BlockTree.Traceless (tree : BlockTree) (code : Address → Bytes) (kind : Config → Prop) : Prop :=
  ∀ {node node' : Conduct} {N : Branch tree} {at_work : Option Config} {c : Config}
    {w fresh : World} {outcomes : List Outcome},
    tree.Admits node → ServesCode node code → Reach node kind at_work w →
    N.Shown node' → ServesCode node' code → kind c → N.first ≤ c.startBlock →
    Steps node' c (.fresh c) outcomes fresh → outcomes.getLast? = some .idle →
    w.store.canonicalChain =
      (List.range' c.startBlock (N.tip + 1 - c.startBlock)).map (fun n => (N.block n).id) →
    ∀ b ∈ w.store.canonicalBlocks, ∀ tx ∈ b.transactions, ∀ i,
      w.store.transfers.get? (tx.hash, i) = fresh.store.transfers.get? (tx.hash, i)

/-! ## Branches in scenes -/

def Branch.ofStack (first : Nat) (blocks : List Block) (hheld : ∀ b ∈ blocks, tree.Holds b)
    (hstacked : Stacked first blocks) (hblocks : blocks ≠ []) : Branch tree where
  first := first
  tip := first + (blocks.length - 1)
  block n := blocks[n - first]!
  held {n} hlow hhigh := by
    have hpos := List.length_pos_iff.mpr hblocks
    have hn : n - first < blocks.length := by omega
    rw [getElem!_pos blocks _ hn, hstacked.number_getElem _ hn]
    exact ⟨hheld _ (List.getElem_mem hn), by omega⟩
  linked {n} hlow hhigh := by
    have hn : n - first + 1 < blocks.length := by omega
    rw [show n + 1 - first = n - first + 1 by omega, getElem!_pos blocks _ hn,
      getElem!_pos blocks (n - first) (by omega)]
    exact hstacked.linked.getElem (n - first) hn

theorem answer_of_oneOf {scene : Scene} {call : NodeCall} {a : call.Answer}
    (h : (oneOf [scene]).Gives call a) : scene.answer call = .ok a := by
  obtain ⟨_, other, hother, hreply⟩ := h
  obtain rfl := List.mem_singleton.mp hother
  exact Scene.answer_of_conduct hreply

theorem shown_ofStack {scene : Scene} {first : Nat} (hadmits : tree.Admits (oneOf [scene]))
    (hheld : ∀ b ∈ scene.blocks, tree.Holds b) (hstacked : Stacked first scene.blocks)
    (hblocks : scene.blocks ≠ []) :
    (Branch.ofStack first scene.blocks hheld hstacked hblocks).Shown (oneOf [scene]) where
  admits := hadmits
  latest {n} h := by
    have hanswer : plainAnswer scene.blocks .latestBlockNumber = .ok n := answer_of_oneOf h
    obtain ⟨tip, htip⟩ := Option.isSome_iff_exists.mp (List.getLast?_isSome.mpr hblocks)
    rw [plainAnswer, htip] at hanswer
    cases hanswer
    have hnumber := hstacked.number_getLast htip
    have hpos := List.length_pos_iff.mpr hblocks
    change tip.number = first + (scene.blocks.length - 1)
    omega
  numbered {n b} h := by
    have hanswer : plainAnswer scene.blocks (.block (.number n)) = .ok b := answer_of_oneOf h
    simp only [plainAnswer] at hanswer
    split at hanswer
    · next hfind =>
      cases hanswer
      obtain ⟨i, hi, rfl, hnumber⟩ := hstacked.getElem_of_mem (List.mem_of_find?_eq_some hfind)
      obtain rfl : n = first + i := by
        have hn : scene.blocks[i].number = n := by simpa using List.find?_some hfind
        omega
      have hblock : scene.blocks[first + i - first]! = scene.blocks[i] := by
        rw [Nat.add_sub_cancel_left, getElem!_pos scene.blocks i hi]
      refine ⟨Nat.le_add_right first i, ?_, hblock.symm⟩
      change first + i ≤ first + (scene.blocks.length - 1)
      omega
    · cases hanswer

theorem map_block_ofStack {first : Nat} {blocks : List Block} (hheld : ∀ b ∈ blocks, tree.Holds b)
    (hstacked : Stacked first blocks) (hblocks : blocks ≠ []) :
    (List.range' first (first + (blocks.length - 1) + 1 - first)).map
      (Branch.ofStack first blocks hheld hstacked hblocks).block = blocks := by
  have hpos := List.length_pos_iff.mpr hblocks
  apply List.ext_getElem
  · rw [List.length_map, List.length_range']
    omega
  · intro i _ hi
    rw [List.getElem_map, List.getElem_range', Nat.one_mul]
    change blocks[first + i - first]! = blocks[i]
    rw [Nat.add_sub_cancel_left, getElem!_pos blocks i hi]

theorem servesCode_oneOf {scenes : List Scene} (h : ∀ scene ∈ scenes, scene.code = code) :
    ServesCode (oneOf scenes) code := by
  rintro focus contract number bytes ⟨scene, hscene, hreply⟩
  cases Scene.answer_of_conduct hreply
  rw [h scene hscene]

/-- What an importer that is led through scenes has read of the last one's transactions is what
an importer has read that is led through the last scene alone. -/
theorem BlockTree.Traceless.enact (h : tree.Traceless code kind) {c : Config} (hkind : kind c)
    {scenes shown : List Scene} {last : Scene} {n : Nat} {outcomes : List Outcome}
    (hadmits : tree.Admits (oneOf scenes)) (hcode : ∀ scene ∈ scenes, scene.code = code)
    (hshown : ∀ scene ∈ shown, scene ∈ scenes) (hlast : last ∈ scenes)
    (hheld : ∀ b ∈ last.blocks, tree.Holds b) (hstacked : Stacked c.startBlock last.blocks)
    (hblocks : last.blocks ≠ [])
    (hsteps : (enact c (List.replicate n last) (.start .empty c 0)).1 = outcomes.map some)
    (hidle : outcomes.getLast? = some .idle)
    (hkept : (enact c shown (.start .empty c 0)).2.outside.canonicalBlocks.Perm last.blocks) :
    ∀ b ∈ (enact c shown (.start .empty c 0)).2.outside.canonicalBlocks, ∀ tx ∈ b.transactions,
      ∀ i, (enact c shown (.start .empty c 0)).2.outside.transfers.get? (tx.hash, i) =
        (enact c (List.replicate n last) (.start .empty c 0)).2.outside.transfers.get?
          (tx.hash, i) := by
  have hsub : ∀ scene ∈ [last], scene ∈ scenes := by simpa using hlast
  have hadmits' : tree.Admits (oneOf [last]) := by
    rintro focus call a ⟨scene, hscene, ha⟩
    exact hadmits focus call a ⟨scene, hsub scene hscene, ha⟩
  obtain ⟨focus, hreach⟩ := reach_enact hkind hshown
  obtain ⟨focus', hfresh⟩ := steps_lead none
    (answering_scenes fun scene hscene => List.mem_singleton.mpr (List.eq_of_mem_replicate hscene))
    hsteps
  refine h hadmits (servesCode_oneOf hcode) hreach (shown_ofStack hadmits' hheld hstacked hblocks)
    (servesCode_oneOf fun scene hscene => hcode scene (hsub scene hscene)) hkind
    (Nat.le_refl c.startBlock) hfresh hidle ?_
  have hbranch := congrArg (List.map Block.id) (map_block_ofStack hheld hstacked hblocks)
  exact (hstacked.canonicalChain_eq hkept).trans (hbranch.symm.trans List.map_map)

/-! ## A contract with other code on an abandoned branch -/

theorem deploys_ofBlocks (code : Address → Bytes) {blocks : List Block}
    {receipts : Hash → List Receipt} {trace : Hash → CallTrace} {hunique hparent}
    (h : ∀ b ∈ blocks, ∀ tx ∈ txHashes b,
      ∀ row ∈ (Trace.extract tx (trace tx)).toOption.toList.flatMap Trace.Output.created,
        row.code = [] ∨ row.code = code row.address) {contract : Address} {bytes : Bytes}
    (hdeploys : (BlockTree.ofBlocks blocks receipts trace hunique hparent).Deploys contract bytes) :
    bytes = code contract := by
  obtain ⟨b, tx, rows, row, hb, htx, hextract, hrow, rfl, rfl, hne⟩ := hdeploys
  refine (h b hb tx htx row ?_).resolve_left hne
  change Trace.extract tx (trace tx) = .ok rows at hextract
  rw [hextract]
  exact List.mem_flatMap.mpr ⟨rows, List.mem_singleton_self rows, hrow⟩

theorem codeAgrees_const {bytes : Bytes}
    (h : ∀ {contract x}, tree.Deploys contract x → x = bytes) : CodeAgrees tree fun _ => bytes := by
  have hmeets : ∀ {x}, tree.Meets (fun _ => bytes) x → x = bytes := by
    rintro x (⟨_, rfl⟩ | ⟨_, hdeploys⟩)
    · rfl
    · exact h hdeploys
  exact ⟨fun hdeploys => congrArg nonFungible (h hdeploys), fun ha hb _ => by rw [hmeets ha, hmeets hb]⟩

def itemCode : Address → Bytes := fun _ => Capability.dispatcher Capability.erc721Selectors

def amountCode : Address → Bytes := fun _ => Capability.dispatcher Capability.erc20Selectors

def strayBlock : Block := pricedBlock 1 ⟨5⟩ ⟨1⟩ [{ movedTransaction ⟨5⟩ with hash := ⟨0x21⟩ }]

def strayReceipts (block : Hash) : List Receipt :=
  if block = ⟨5⟩ then [Receipt.plain ⟨0x21⟩ true 21000] else movedReceipts block

def strayTrace (tx : Hash) : CallTrace :=
  if tx = ⟨0x21⟩ then
    (CallTrace.ofRoot (.plain .call ⟨0xa1⟩ (some ⟨0xa2⟩) 0)).pushChild 0
      { Frame.plain .create2 ⟨0xa2⟩ (some ⟨0xcc⟩) 0 with output := itemCode ⟨0xcc⟩ }
  else movedTrace

def strayTree : BlockTree :=
  .ofBlocks (strayBlock :: lateBlocks) strayReceipts strayTrace (by decide) (by decide)

def strayScene (code : Address → Bytes) : Scene :=
  ⟨[rootBlock, strayBlock], strayReceipts, strayTrace, code⟩

def keptScene (code : Address → Bytes) : Scene := ⟨lateBlocks, strayReceipts, strayTrace, code⟩

def afterStray (code : Address → Bytes) : Session Store :=
  (enact evenSettings [strayScene code, strayScene code, keptScene code, keptScene code,
    keptScene code] (.start .empty evenSettings 0)).2

def keptOnly (code : Address → Bytes) : List (Option Outcome) × Session Store :=
  enact evenSettings (List.replicate 4 (keptScene code)) (.start .empty evenSettings 0)

theorem admits_stray (code : Address → Bytes) :
    strayTree.Admits (oneOf [strayScene code, keptScene code]) := by
  apply admits_oneOf
  rw [List.forall_mem_cons, List.forall_mem_singleton]
  refine ⟨⟨?_, rfl, rfl⟩, ⟨fun _ => List.mem_cons_of_mem _, rfl, rfl⟩⟩
  simp [strayScene, lateBlocks]

/-- The last block's transaction moves the same token, whether the abandoned branch came first or
not. -/
theorem BlockTree.Traceless.stray (h : strayTree.Traceless code kind) (hkind : kind evenSettings)
    (hkept : (afterStray code).outside.canonicalBlocks = lateBlocks)
    (hsteps : (keptOnly code).1 = [.committed ⟨0, ⟨1⟩⟩, .committed ⟨1, ⟨3⟩⟩,
      .committed ⟨2, ⟨4⟩⟩, .idle].map some) :
    (afterStray code).outside.transfers.get? (⟨0x11⟩, 1) =
      (keptOnly code).2.outside.transfers.get? (⟨0x11⟩, 1) := by
  have hmem : pricedBlock 2 ⟨4⟩ ⟨3⟩ [movedTransaction ⟨4⟩] ∈
      (afterStray code).outside.canonicalBlocks := by
    rw [hkept]
    decide
  have hlate : Stacked 0 lateBlocks := ⟨by decide, by decide⟩
  have hstacked : Stacked evenSettings.startBlock (keptScene code).blocks := hlate
  unfold afterStray at hkept hmem ⊢
  unfold keptOnly at hsteps ⊢
  exact h.enact hkind (admits_stray code) (by simp [strayScene, keptScene]) (by simp) (by simp)
    (fun _ => List.mem_cons_of_mem _) hstacked (by simp [keptScene, lateBlocks]) hsteps rfl
    (.of_eq hkept) _ hmem _ List.mem_cons_self 1

theorem transactionsOnce_strayTree : strayTree.TransactionsOnce := by
  have hnodup : ∀ b ∈ strayBlock :: lateBlocks, (txHashes b).Nodup := by decide
  have htips : ∀ a ∈ strayBlock :: lateBlocks, ∀ b ∈ strayBlock :: lateBlocks,
      b.parentHash = a.hash → txHashes a = [] := by decide
  exact transactionsOnce_of_tips hnodup fun a b ha hb => htips a ha b hb

theorem codeAgrees_strayTree : CodeAgrees strayTree itemCode := by
  refine codeAgrees_const fun hdeploys => deploys_ofBlocks itemCode ?_ hdeploys
  decide +kernel

/-! ## A transaction that is on one chain twice -/

def repeatedBlock : Block := pricedBlock 2 ⟨4⟩ ⟨2⟩ [movedTransaction ⟨4⟩]

def singleBlocks : List Block := earlyBlocks ++ [pricedBlock 2 ⟨6⟩ ⟨2⟩ []]

def repeatTree : BlockTree :=
  .ofBlocks (repeatedBlock :: singleBlocks) movedReceipts (fun _ => movedTrace) (by decide)
    (by decide)

def repeatScene : Scene :=
  ⟨earlyBlocks ++ [repeatedBlock], movedReceipts, fun _ => movedTrace, itemCode⟩

def singleScene : Scene := ⟨singleBlocks, movedReceipts, fun _ => movedTrace, itemCode⟩

def afterRepeat : Session Store :=
  (enact evenSettings [repeatScene, repeatScene, repeatScene, singleScene, singleScene]
    (.start .empty evenSettings 0)).2

def singleOnly : List (Option Outcome) × Session Store :=
  enact evenSettings (List.replicate 4 singleScene) (.start .empty evenSettings 0)

theorem admits_repeat : repeatTree.Admits (oneOf [repeatScene, singleScene]) := by
  apply admits_oneOf
  rw [List.forall_mem_cons, List.forall_mem_singleton]
  refine ⟨⟨?_, rfl, rfl⟩, ⟨fun _ => List.mem_cons_of_mem _, rfl, rfl⟩⟩
  simp [repeatScene, singleBlocks, earlyBlocks]

theorem codeAgrees_repeatTree : CodeAgrees repeatTree itemCode := by
  refine codeAgrees_const fun hdeploys => deploys_ofBlocks itemCode ?_ hdeploys
  decide +kernel

/-! ## The movements of the branch that is left -/

/-- Where all code of a contract tells the same and no chain has a transaction twice, reorgs leave
no trace in the token movements of canonical transactions: they are what the receipts of the block
and the served code make them. -/
theorem traceless_of_codeAgrees {chain : Nat} (hcode : CodeAgrees tree code)
    (honce : tree.TransactionsOnce) :
    tree.Traceless code (fun c => c.chainId = chain) ∧
    ∀ {node : Conduct} {at_work : Option Config} {w : World}, tree.Admits node →
      ServesCode node code → Reach node (fun c => c.chainId = chain) at_work w →
      ∀ b ∈ w.store.canonicalBlocks, ∀ tx ∈ b.transactions, ∀ i,
        w.store.transfers.get? (tx.hash, i) = Table.lastUnder
          (fun t : TokenTransfer => (t.txHash, t.logIndex)) (tree.transfers code b) (tx.hash, i) := by
  refine ⟨?_, fun hnode hserves hreach b hb tx htx i =>
    transfers_of_reach hnode hserves hcode honce hreach hb (List.mem_map_of_mem htx) i⟩
  intro node node' N at_work c w fresh outcomes hnode hserves hreach hshown hserves' hc hfirst
    hfresh hlast hchain b hb tx htx i
  have htx : tx.hash ∈ txHashes b := List.mem_map_of_mem htx
  have hreach' : Reach node' (fun c => c.chainId = chain) (some c) fresh :=
    (reach_start hc).steps hfresh
  -- the block is on the branch, so the new importer has it as well
  have hbranch : b ∈ (List.range' c.startBlock (N.tip + 1 - c.startBlock)).map N.block := by
    obtain ⟨start, blocks, hstanding, _⟩ := standing_of_chain hnode hreach
    have hmem := hstanding.mem_canonicalBlocks.mp hb
    have hid := List.mem_map_of_mem (f := Block.id) hmem
    rw [← hstanding.canonicalChain_eq, hchain] at hid
    obtain ⟨n, hn, hid⟩ := List.mem_map.mp hid
    obtain ⟨hlow, hhigh⟩ := List.mem_range'_1.mp hn
    obtain ⟨hheld, _⟩ := N.held (n := n) (by omega) (by omega)
    exact List.mem_map.mpr ⟨n, hn, tree.unique hheld (hstanding.holds hmem) (congrArg BlockId.hash hid)⟩
  have hb' : b ∈ fresh.store.canonicalBlocks := by
    obtain ⟨blocks, hready, hcaught, hpasses⟩ := ready_of_steps
      (ready_fresh tree c.startBlock c.chainId c.schedule c) hshown hfirst ⟨⟨rfl, rfl⟩, rfl⟩ hfresh
    have hblocks := hready.eq_branch hshown hfirst rfl (hcaught hlast) fun id hid =>
      (hpasses (fun _ hnone => by cases hnone) id hid).le_tip
    rw [← hblocks] at hbranch
    exact hready.standing.mem_canonicalBlocks.mpr hbranch
  rw [transfers_of_reach hnode hserves hcode honce hreach hb htx i,
    transfers_of_reach hshown.admits hserves' hcode honce hreach' hb' htx i]

theorem traceless_of_codeAgrees_stray :
    (afterStray itemCode).outside.isCanonical? ⟨5⟩ = some false ∧
      (afterStray itemCode).outside.canonicalBlocks = lateBlocks ∧
      (keptOnly itemCode).1 = [.committed ⟨0, ⟨1⟩⟩, .committed ⟨1, ⟨3⟩⟩, .committed ⟨2, ⟨4⟩⟩,
        .idle].map some ∧
      (afterStray itemCode).outside.transfers.get? (⟨0x11⟩, 1) =
        (keptOnly itemCode).2.outside.transfers.get? (⟨0x11⟩, 1) ∧
      (keptOnly itemCode).2.outside.transfers.get? (⟨0x11⟩, 1) =
        some ⟨⟨0x11⟩, 1, ⟨0xcc⟩, ⟨0xa1⟩, ⟨0xa3⟩, .nonFungible 9⟩ := by
  have horphan : (afterStray itemCode).outside.isCanonical? ⟨5⟩ = some false := by decide +kernel
  have hkept : (afterStray itemCode).outside.canonicalBlocks = lateBlocks := by decide +kernel
  have hsteps : (keptOnly itemCode).1 = [.committed ⟨0, ⟨1⟩⟩, .committed ⟨1, ⟨3⟩⟩,
      .committed ⟨2, ⟨4⟩⟩, .idle].map some := by decide +kernel
  have hmovement : (keptOnly itemCode).2.outside.transfers.get? (⟨0x11⟩, 1) =
      some ⟨⟨0x11⟩, 1, ⟨0xcc⟩, ⟨0xa1⟩, ⟨0xa3⟩, .nonFungible 9⟩ := by decide +kernel
  have htraceless : strayTree.Traceless itemCode fun c => c.chainId = 1 :=
    (traceless_of_codeAgrees codeAgrees_strayTree transactionsOnce_strayTree).1
  exact ⟨horphan, hkept, hsteps, htraceless.stray rfl hkept hsteps, hmovement⟩

/-- Neither condition can be left out.  An abandoned branch may have created a contract anew, with
code that moves single items where the served code moves amounts; and it may have held a transaction
again that is still canonical. -/
theorem not_traceless :
    (strayTree.TransactionsOnce ∧ ¬ strayTree.Traceless amountCode (· = evenSettings)) ∧
      CodeAgrees repeatTree itemCode ∧ ¬ repeatTree.Traceless itemCode (· = evenSettings) := by
  refine ⟨⟨transactionsOnce_strayTree, fun htraceless => ?_⟩, codeAgrees_repeatTree,
    fun htraceless => ?_⟩
  · have hkept : (afterStray amountCode).outside.canonicalBlocks = lateBlocks := by decide +kernel
    have hsteps : (keptOnly amountCode).1 = [.committed ⟨0, ⟨1⟩⟩, .committed ⟨1, ⟨3⟩⟩,
        .committed ⟨2, ⟨4⟩⟩, .idle].map some := by decide +kernel
    have hother : (afterStray amountCode).outside.transfers.get? (⟨0x11⟩, 1) ≠
        (keptOnly amountCode).2.outside.transfers.get? (⟨0x11⟩, 1) := by decide +kernel
    exact hother (htraceless.stray rfl hkept hsteps)
  · have hkept : afterRepeat.outside.canonicalBlocks = singleBlocks := by decide +kernel
    have hsteps : singleOnly.1 = [.committed ⟨0, ⟨1⟩⟩, .committed ⟨1, ⟨2⟩⟩,
        .committed ⟨2, ⟨6⟩⟩, .idle].map some := by decide +kernel
    have hmem : pricedBlock 1 ⟨2⟩ ⟨1⟩ [movedTransaction ⟨2⟩] ∈
        afterRepeat.outside.canonicalBlocks := by
      rw [hkept]
      decide
    have hsame : afterRepeat.outside.transfers.get? (⟨0x11⟩, 1) =
        singleOnly.2.outside.transfers.get? (⟨0x11⟩, 1) :=
      htraceless.enact rfl admits_repeat (by simp [repeatScene, singleScene]) (by simp)
        (by simp) (fun _ => List.mem_cons_of_mem _) ⟨by decide, by decide⟩ (by decide) hsteps rfl
        (.of_eq hkept) _ hmem _ List.mem_cons_self 1
    have hother : afterRepeat.outside.transfers.get? (⟨0x11⟩, 1) ≠
        singleOnly.2.outside.transfers.get? (⟨0x11⟩, 1) := by decide +kernel
    exact hother hsame

end ChainIngest.Importer
