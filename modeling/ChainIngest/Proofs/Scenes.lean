import ChainIngest.Proofs.Histories
/-!
# Scenes

A scene is all that a node shows while it serves one branch: blocks with their
transactions, receipts, traces and code.  Leading an importer through scenes makes
histories of forks with transactions in them.
-/

namespace ChainIngest.Importer

structure Scene where
  /-- The branch; the last block is its tip. -/
  blocks : List Block
  receipts : Hash → List Receipt
  /-- Traces by transaction. -/
  trace : Hash → CallTrace
  code : Address → Bytes

namespace Scene

def answer (scene : Scene) : (call : NodeCall) → Except NodeError call.Answer
  | .receipts block => .ok (scene.receipts block)
  | .trace tx => .ok (scene.trace tx)
  | .code contract _ => .ok (scene.code contract)
  | call => plainAnswer scene.blocks call

def around (scene : Scene) : Surroundings Store :=
  { Surroundings.plain scene.blocks false with
    node := fun call s => (.answer (scene.answer call), s) }

/-- The conduct of a node that serves the scene; it may also answer too late. -/
def conduct (scene : Scene) : Conduct := fun _ call reply =>
  reply = scene.answer call ∨ ∃ limit, reply = .error (.timeout call.operation limit)

theorem within_around (scene : Scene) : scene.around.Within id scene.conduct where
  answers h focus := by
    cases h
    exact .inl rfl
  silence _ _ limit := .inr ⟨limit, rfl⟩
  apart _ _ := rfl
  stores := (Surroundings.within_plain scene.blocks false).stores

theorem answer_of_conduct {scene : Scene} {focus : Option Hash} {call : NodeCall} {a : call.Answer}
    (h : scene.conduct focus call (.ok a)) : scene.answer call = .ok a := by
  rcases h with hreply | ⟨_, hlate⟩
  · exact hreply.symm
  · cases hlate

theorem admits {tree : BlockTree} {scene : Scene} (hheld : ∀ b ∈ scene.blocks, tree.Holds b)
    (hreceipts : ∀ block, scene.receipts block = tree.receipts block)
    (htrace : ∀ block tx, scene.trace tx = tree.trace block tx) : tree.Admits scene.conduct := by
  intro focus call a ha
  have hanswer := answer_of_conduct ha
  cases call with
  | block which => exact BlockTree.serves_plain hheld focus hanswer
  | receipts block =>
      cases hanswer
      exact hreceipts block
  | trace tx =>
      cases hanswer
      exact fun block _ => htrace block tx
  | chainId => trivial
  | latestBlockNumber => trivial
  | code contract number => trivial

def rows (scene : Scene) (s : Store) (c : Config) (block : Block) (entry : ImportEntry) :
    Option BlockRows :=
  ((Session.start s c 0).perform scene.around none (normalize c block entry)).1.bind Except.toOption

theorem runs_of_rows {scene : Scene} {s : Store} {c : Config} {block : Block} {entry : ImportEntry}
    {found : BlockRows} (h : scene.rows s c block entry = some found) :
    ∃ w', Runs scene.conduct (normalize c block entry) ⟨s, none, .new c.cacheCapacity, none⟩
      (some (.ok found)) w' := by
  obtain ⟨focus, hruns⟩ := Session.runs_of_perform scene.within_around none
    (normalize c block entry) (.start s c 0) none
  obtain ⟨result, hresult, hrows⟩ := Option.bind_eq_some_iff.mp h
  rw [hresult] at hruns
  cases result with
  | error e => cases hrows
  | ok rows =>
      cases hrows
      exact ⟨_, hruns⟩

end Scene

/-! ## Casts -/

def oneOf (scenes : List Scene) : Conduct := fun focus call reply =>
  ∃ scene ∈ scenes, scene.conduct focus call reply

def enact (c : Config) (scenes : List Scene) (s : Session Store) :
    List (Option Outcome) × Session Store :=
  lead c (scenes.map Scene.around) s

theorem answering_scenes {scenes shown : List Scene} (hshown : ∀ scene ∈ shown, scene ∈ scenes) :
    ∀ around ∈ shown.map Scene.around, around.Answering (oneOf scenes) := by
  intro around haround
  obtain ⟨scene, hscene, rfl⟩ := List.mem_map.mp haround
  exact ⟨scene.within_around.mono fun _ _ _ hreply => ⟨scene, hshown scene hscene, hreply⟩,
    fun call _ => ⟨scene.answer call, rfl⟩⟩

theorem reach_enact {kind : Config → Prop} {c : Config} {scenes shown : List Scene}
    (hkind : kind c) (hshown : ∀ scene ∈ shown, scene ∈ scenes) :
    ∃ focus, Reach (oneOf scenes) kind (some c)
      ((enact c shown (.start .empty c 0)).2.world id focus) :=
  reach_lead (answering_scenes hshown) (reach_start hkind)

def BlockTree.ofBlocks (blocks : List Block) (receipts : Hash → List Receipt)
    (trace : Hash → CallTrace)
    (hunique : ∀ a ∈ blocks, ∀ b ∈ blocks, a.hash = b.hash → a = b)
    (hparent : ∀ a ∈ blocks, ∀ b ∈ blocks, b.parentHash = a.hash → b.number = a.number + 1) :
    BlockTree where
  Holds b := b ∈ blocks
  receipts := receipts
  trace _ := trace
  unique ha hb := hunique _ ha _ hb
  parent ha hb := hparent _ ha _ hb

theorem admits_oneOf {blocks : List Block} {receipts : Hash → List Receipt}
    {trace : Hash → CallTrace} {hunique hparent} {scenes : List Scene}
    (h : ∀ scene ∈ scenes,
      (∀ b ∈ scene.blocks, b ∈ blocks) ∧ scene.receipts = receipts ∧ scene.trace = trace) :
    (BlockTree.ofBlocks blocks receipts trace hunique hparent).Admits (oneOf scenes) := by
  rintro focus call a ⟨scene, hscene, ha⟩
  obtain ⟨hheld, rfl, rfl⟩ := h scene hscene
  exact Scene.admits hheld (fun _ => rfl) (fun _ _ => rfl) focus call a ha

/-! ## A transaction that moves

One branch has a token movement in its first block above the root.  The other has the same
transaction one block higher, where it moves another token. -/

def movedTransaction (block : Hash) : Transaction where
  hash := ⟨0x11⟩
  blockHash := block
  index := 0
  sender := ⟨0xa1⟩
  recipient := some ⟨0xa2⟩
  value := 0
  nonce := 0
  gasPrice := 15
  gasLimit := 90000
  input := []
  signature := ⟨0, 0, 0⟩

def transferLog (index : UInt32) (contract : Address) (word : Word) : Log where
  address := contract
  topics := [Token.transferSignature, ⟨0xa1⟩, ⟨0xa3⟩]
  data := word.toBytes
  index := index

def rootBlock : Block := plainBlock 0 ⟨1⟩ ⟨0⟩

def pricedBlock (number : Nat) (hash parentHash : Hash) (transactions : List Transaction) : Block :=
  { plainBlock number hash parentHash with baseFee := some 10, transactions := transactions }

def earlyBlocks : List Block := [rootBlock, pricedBlock 1 ⟨2⟩ ⟨1⟩ [movedTransaction ⟨2⟩]]

def lateBlocks : List Block :=
  [rootBlock, pricedBlock 1 ⟨3⟩ ⟨1⟩ [], pricedBlock 2 ⟨4⟩ ⟨3⟩ [movedTransaction ⟨4⟩]]

def movedReceipts (block : Hash) : List Receipt :=
  if block = ⟨2⟩ then
    [{ Receipt.plain ⟨0x11⟩ true 30000 with
      logs := [transferLog 0 ⟨0xcc⟩ 7, transferLog 1 ⟨0xcc⟩ 8] }]
  else if block = ⟨4⟩ then
    [{ Receipt.plain ⟨0x11⟩ true 21000 with logs := [transferLog 1 ⟨0xcc⟩ 9] }]
  else []

def movedTrace : CallTrace :=
  (CallTrace.ofRoot (.plain .call ⟨0xa1⟩ (some ⟨0xa2⟩) 0)).pushChild 0
    (.plain .call ⟨0xa2⟩ (some ⟨0xa4⟩) 3)

def tokenCode (contract : Address) : Bytes :=
  if contract = ⟨0xcc⟩ then Capability.dispatcher Capability.erc721Selectors else []

def earlyScene : Scene := ⟨earlyBlocks, movedReceipts, fun _ => movedTrace, tokenCode⟩

def lateScene : Scene := ⟨lateBlocks, movedReceipts, fun _ => movedTrace, tokenCode⟩

def movingTree : BlockTree :=
  .ofBlocks (earlyBlocks ++ lateBlocks) movedReceipts (fun _ => movedTrace) (by decide) (by decide)

def movingNode : Conduct := oneOf [earlyScene, lateScene]

theorem admits_movingNode : movingTree.Admits movingNode := by
  apply admits_oneOf
  rw [List.forall_mem_cons, List.forall_mem_singleton]
  exact ⟨⟨fun _ => List.mem_append_left _, rfl, rfl⟩, ⟨fun _ => List.mem_append_right _, rfl, rfl⟩⟩

def afterMove (c : Config) : Session Store :=
  (enact c [earlyScene, earlyScene, lateScene, lateScene, lateScene] (.start .empty c 0)).2

theorem reach_afterMove (kind : Config → Prop) {c : Config} (hkind : kind c) :
    ∃ focus, Reach movingNode kind (some c) ((afterMove c).world id focus) :=
  reach_enact hkind (by simp)

/-! ## A call that fails

A block with an ommer and two calls.  The first one succeeds and calls, creates and destroys in
turn; the second fails, with value moved inside it. -/

def mixedCall (hash : Hash) (value : Word) : Transaction :=
  { movedTransaction ⟨2⟩ with hash := hash, value := value }

def mixedBlock : Block :=
  { pricedBlock 1 ⟨2⟩ ⟨1⟩ [mixedCall ⟨0x11⟩ 5, mixedCall ⟨0x12⟩ 7] with
    ommers := [⟨⟨9⟩, 0, ⟨0xb1⟩⟩] }

def mixedEntry : ImportEntry := { ImportEntry.pending mixedBlock.id 0 with status := .inProgress }

def succeededTrace : CallTrace :=
  (((CallTrace.ofRoot (.plain .call ⟨0xa1⟩ (some ⟨0xa2⟩) 5)).pushChild 0
    (.plain .call ⟨0xa2⟩ (some ⟨0xa4⟩) 3)).pushChild 0
    (.plain .create ⟨0xa2⟩ (some ⟨0xcc⟩) 2)).pushChild 0
    (.plain .selfDestruct ⟨0xcc⟩ (some ⟨0xa2⟩) 2)

def failedTrace : CallTrace :=
  (CallTrace.ofRoot { Frame.plain .call ⟨0xa1⟩ (some ⟨0xa2⟩) 7 with error := some "reverted" }).pushChild
    0 (.plain .call ⟨0xa2⟩ (some ⟨0xa4⟩) 4)

/-- What the receipt of the call that failed says is left open. -/
def mixedScene (failed : Receipt) : Scene where
  blocks := [rootBlock, mixedBlock]
  receipts block :=
    if block = ⟨2⟩ then
      [{ Receipt.plain ⟨0x11⟩ true 30000 with
        logs := [transferLog 0 ⟨0xcc⟩ 7, { transferLog 1 ⟨0xcc⟩ 8 with topics := [] }] }, failed]
    else []
  trace tx := if tx = ⟨0x11⟩ then succeededTrace else failedTrace
  code := tokenCode

def mixedRows (c : Config) (failed : Receipt) : Option BlockRows :=
  ((Session.start .empty c 0).perform (mixedScene failed).around none
    (normalize c mixedBlock mixedEntry)).1.bind Except.toOption

theorem runs_of_mixedRows {c : Config} {failed : Receipt} {rows : BlockRows}
    (h : mixedRows c failed = some rows) :
    ∃ w w', Runs (mixedScene failed).conduct (normalize c mixedBlock mixedEntry) w
      (some (.ok rows)) w' :=
  ⟨_, Scene.runs_of_rows h⟩

end ChainIngest.Importer
