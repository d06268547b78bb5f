import ChainIngest.Proofs.TransactionRows
import ChainIngest.Proofs.Triples
/-!
# Classification

Whether a contract moves single items or amounts is read from its code: from what
the trace of its creation shows, or from what the node serves when the contract
first moves a token.  It is remembered under the code's hash and in the table of
contracts, and no reorg takes it back.  Where all code that can be met for a contract
tells the same, what is remembered does too, and so the token movements of a block
are a function of the block.
-/

namespace ChainIngest.Importer

open Capability (Cache)
open Store (Table)

variable {tree : BlockTree} {code : Address → Bytes} {node : Conduct} {c : Config} {w w' : World}

/-! ## Code -/

/-- Whether a contract with this code moves single items. -/
def nonFungible (bytes : Bytes) : Bool := (Capability.detect bytes).isNonFungible

/-- A node that answers with the same code for a contract at any time. -/
def ServesCode (node : Conduct) (code : Address → Bytes) : Prop :=
  ∀ focus contract number bytes, node focus (.code contract number) (.ok bytes) →
    bytes = code contract

/-- A transaction of the tree has a trace in which a contract is created with some code. -/
def BlockTree.Deploys (tree : BlockTree) (contract : Address) (bytes : Bytes) : Prop :=
  ∃ b tx rows row, tree.Holds b ∧ tx ∈ txHashes b ∧
    Trace.extract tx (tree.trace b.hash tx) = .ok rows ∧ row ∈ rows.created ∧
    row.address = contract ∧ row.code = bytes ∧ bytes ≠ []

/-- Code that an importer can have to classify. -/
def BlockTree.Meets (tree : BlockTree) (code : Address → Bytes) (bytes : Bytes) : Prop :=
  (∃ contract, bytes = code contract) ∨ ∃ contract, tree.Deploys contract bytes

/-- All code of a contract tells the same of its movements, and so does all code with one hash. -/
structure CodeAgrees (tree : BlockTree) (code : Address → Bytes) : Prop where
  deployed : ∀ {contract bytes}, tree.Deploys contract bytes →
    nonFungible bytes = nonFungible (code contract)
  hashed : ∀ {a b}, tree.Meets code a → tree.Meets code b → keccak256 a = keccak256 b →
    nonFungible a = nonFungible b

/-- Capabilities that tell of a contract what its code tells. -/
def Agrees (code : Address → Bytes) (contract : Address) (found : Capabilities) : Prop :=
  found.isNonFungible = nonFungible (code contract)

def Classifies (code : Address → Bytes) (known : Token.Known) : Prop :=
  ∀ contract found, known contract = some found → Agrees code contract found

theorem Classifies.insert {known : KnownContracts} {contract : Address} {found : Capabilities}
    (h : Classifies code known.get?) (hfound : Agrees code contract found) :
    Classifies code (known.insert contract found).get? := by
  intro other found' hother
  by_cases hsame : contract = other
  · subst hsame
    rw [Table.get?_insert_self] at hother
    cases hother
    exact hfound
  · rw [Table.get?_insert_of_ne _ _ hsame] at hother
    exact h other found' hother

/-! ## Remembered detections -/

theorem mem_of_cached {cache : Cache} {hash : Hash} {found : Capabilities}
    (h : cache.get? hash = some found) : (hash, found) ∈ cache.entries := by
  obtain ⟨e, he, rfl⟩ := Option.map_eq_some_iff.mp h
  obtain rfl : e.1 = hash := by simpa using List.find?_some he
  exact List.mem_of_find?_eq_some he

theorem mem_of_used {cache : Cache} {hash : Hash} {found : Capabilities} {e : Hash × Capabilities}
    (h : e ∈ (cache.use hash found).entries) : e = (hash, found) ∨ e ∈ cache.entries := by
  rcases List.mem_cons.mp (List.mem_of_mem_take h) with rfl | hold
  · exact .inl rfl
  · exact .inr (List.mem_filter.mp hold).1

/-- A memory that holds of each hash what some code with this hash tells. -/
def Remembers (tree : BlockTree) (code : Address → Bytes) (cache : Cache) : Prop :=
  ∀ e ∈ cache.entries, ∃ bytes, tree.Meets code bytes ∧ keccak256 bytes = e.1 ∧
    e.2.isNonFungible = nonFungible bytes

theorem Remembers.use {cache : Cache} {bytes : Bytes} {found : Capabilities}
    (h : Remembers tree code cache) (hmeets : tree.Meets code bytes)
    (hfound : found.isNonFungible = nonFungible bytes) :
    Remembers tree code (cache.use (keccak256 bytes) found) := by
  intro e he
  rcases mem_of_used he with rfl | he
  · exact ⟨bytes, hmeets, rfl, hfound⟩
  · exact h e he

/-- Remembered or not, code is found to be what it is. -/
theorem Remembers.detect {cache : Cache} {bytes : Bytes} (h : Remembers tree code cache)
    (hcode : CodeAgrees tree code) (hmeets : tree.Meets code bytes) :
    (cache.detect bytes).1.found.isNonFungible = nonFungible bytes ∧
      Remembers tree code (cache.detect bytes).2 := by
  unfold Cache.detect
  dsimp only
  split
  · next found hfound =>
    obtain ⟨other, hother, hhash, htells⟩ := h _ (mem_of_cached hfound)
    have htells : found.isNonFungible = nonFungible bytes :=
      htells.trans (hcode.hashed hother hmeets hhash)
    exact ⟨htells, h.use hmeets htells⟩
  · exact ⟨rfl, h.use hmeets rfl⟩

/-! ## The movements of a block -/

/-- The token movements of a block if every contract is what its code tells; none where receipts
and transactions do not match. -/
def BlockTree.transfers (tree : BlockTree) (code : Address → Bytes) (b : Block) :
    List TokenTransfer :=
  match alignReceipts b (tree.receipts b.hash) with
  | .ok aligned =>
      let traces := (txHashes b).map (tree.trace b.hash)
      (interpretAll (List.zipWith explain aligned traces)
        fun contract => some (Capability.detect (code contract))).transfers
  | .error _ => []

theorem transferOf_congr {tx : Hash} {log : Log} {a b : Bool} (h : Token.isTransfer log → a = b) :
    Token.transferOf? tx log a = Token.transferOf? tx log b := by
  by_cases htransfer : Token.isTransfer log
  · rw [h htransfer]
  · -- without the signature it is a movement neither way
    have hsignature : log.topics.head? ≠ some Token.transferSignature := by
      simpa [Token.isTransfer] using htransfer
    unfold Token.transferOf?
    split
    · next signature _ _ htopics =>
      have hother : signature ≠ Token.transferSignature := by simpa [htopics] using hsignature
      rw [if_neg fun hshape => hother hshape.1, if_neg fun hshape => hother hshape.1]
    · rfl
    · rfl

theorem mem_transferEmitters {receipts : List Receipt} {r : Receipt} {log : Log}
    (hr : r ∈ receipts) (hlog : log ∈ r.logs) (htransfer : Token.isTransfer log) :
    log.address ∈ transferEmitters receipts := by
  have hmem : log ∈ (receipts.flatMap Receipt.logs).filter Token.isTransfer :=
    List.mem_filter.mpr ⟨List.mem_flatMap.mpr ⟨r, hr, hlog⟩, htransfer⟩
  obtain ⟨last, hlast⟩ := Table.exists_lastUnder Log.address ⟨log, hmem, rfl⟩
  refine List.mem_map.mpr ⟨(log.address, ()), Table.mem_entries_iff.mpr ?_, rfl⟩
  rw [Table.get?_foldl_insert Log.address (fun _ => ()), hlast]
  rfl

/-- Only what is known of the emitters of movements matters. -/
theorem interpretAll_congr {receipts : List Receipt} {known known' : Token.Known}
    (h : ∀ contract ∈ transferEmitters receipts,
      Token.knownNonFungible known contract = Token.knownNonFungible known' contract) :
    interpretAll receipts known = interpretAll receipts known' := by
  have hrows : ∀ r ∈ receipts,
      Token.interpret r.txHash r.logs known = Token.interpret r.txHash r.logs known' := by
    intro r hr
    have hlogs : ∀ log ∈ r.logs, Token.rowOf r.txHash known log = Token.rowOf r.txHash known' log := by
      intro log hlog
      unfold Token.rowOf
      rw [transferOf_congr fun htransfer => h _ (mem_transferEmitters hr hlog htransfer)]
    unfold Token.interpret
    rw [List.map_congr_left hlogs]
  unfold interpretAll
  rw [List.map_congr_left hrows]

/-! ## Working out rows -/

/-- Tables and memory in which all that was found of contracts agrees with their code, and the
movements of a transaction are those of the block it was last committed with. -/
structure Sound (tree : BlockTree) (code : Address → Bytes) (w : World) : Prop where
  remembers : Remembers tree code w.cache
  classifies : Classifies code w.store.capabilities?
  transfers : ∀ tx b, tree.Holds b → w.store.transactions.get? tx = some b.hash →
    ∀ i, w.store.transfers.get? (tx, i) = Table.lastUnder
      (fun t : TokenTransfer => (t.txHash, t.logIndex)) (tree.transfers code b) (tx, i)

@[simp] theorem cache_asking (w : World) (call : NodeCall) : (w.asking call).cache = w.cache := by
  cases call <;> rfl

theorem robust_sound : Robust (Sound tree code) where
  asking w call h := ⟨by simpa using h.remembers, by simpa using h.classifies,
    by simpa using h.transfers⟩
  setHead _ _ h := ⟨h.remembers, h.classifies, h.transfers⟩
  recordStatus _ _ _ h := ⟨h.remembers, h.classifies, h.transfers⟩
  markReorg _ _ _ _ h := ⟨h.remembers, h.classifies, h.transfers⟩

theorem triple_classify (hcode : CodeAgrees tree code) {bytes : Bytes}
    (hmeets : tree.Meets code bytes) :
    Triple node (Sound tree code) (Step.request (.classify bytes)) (Sound tree code)
      fun found w => Sound tree code w ∧ found.isNonFungible = nonFungible bytes := by
  apply triple_request (fun _ h => h)
  rintro w _ _ h ⟨rfl, rfl⟩
  obtain ⟨hfound, hremembers⟩ := h.remembers.detect hcode hmeets
  have h' : Sound tree code { w with cache := (w.cache.detect bytes).2 } :=
    ⟨hremembers, h.classifies, h.transfers⟩
  exact ⟨h', h', hfound⟩

theorem triple_code (hserves : ServesCode node code) (contract : Address) (number : Nat) :
    Triple node (Sound tree code) (callNode c (.code contract number)) (Sound tree code)
      fun bytes w => Sound tree code w ∧ bytes = code contract :=
  triple_callNode (fun _ h => h) (fun w h => robust_sound.asking w _ h)
    fun _ w h hreply => ⟨robust_sound.asking w _ h, hserves _ _ _ _ hreply⟩

theorem triple_codeOf (hcode : CodeAgrees tree code) (hserves : ServesCode node code) (number : Nat)
    {row : ContractCreated} (hdeploys : row.code ≠ [] → tree.Deploys row.address row.code) :
    Triple node (Sound tree code) (codeOf c number row) (Sound tree code) fun bytes w =>
      Sound tree code w ∧
        (tree.Meets code bytes ∧ nonFungible bytes = nonFungible (code row.address)) := by
  unfold codeOf
  split
  · refine (triple_code hserves _ _).post ?_
    rintro _ w ⟨h, rfl⟩
    exact ⟨h, .inl ⟨_, rfl⟩, rfl⟩
  · next hshown =>
    have hdeploys := hdeploys (by simpa using hshown)
    exact triple_pure (fun _ h => h) fun w h => ⟨h, .inr ⟨_, hdeploys⟩, hcode.deployed hdeploys⟩

theorem triple_classifyCreated (hcode : CodeAgrees tree code) (hserves : ServesCode node code)
    (number : Nat) {created : List ContractCreated} {known : KnownContracts}
    (hdeploys : ∀ row ∈ created, row.code ≠ [] → tree.Deploys row.address row.code)
    (hknown : Classifies code known.get?) :
    Triple node (Sound tree code) (classifyCreated c number created known) (Sound tree code)
      fun result w => Sound tree code w ∧
        (∀ row ∈ result.1, Agrees code row.address row.capabilities) ∧
        Classifies code result.2.get? := by
  induction created generalizing known with
  | nil => exact triple_pure (fun _ h => h) fun w h => ⟨h, by simp, hknown⟩
  | cons row rest ih =>
      obtain ⟨hdeploys, hrest⟩ := List.forall_mem_cons.mp hdeploys
      rw [classifyCreated_cons]
      refine (triple_codeOf hcode hserves number hdeploys).bind fun bytes => .pre ?_
      rintro ⟨hmeets, htells⟩
      refine (triple_classify hcode hmeets).bind fun found => .pre fun hfound => ?_
      have hfound : Agrees code row.address found := hfound.trans htells
      refine (ih hrest (hknown.insert hfound)).bind fun result => .pre ?_
      rintro ⟨hrows, hknown'⟩
      exact triple_pure (fun _ h => h) fun w h =>
        ⟨h, List.forall_mem_cons.mpr ⟨hfound, hrows⟩, hknown'⟩

def Covers (known : KnownContracts) (emitters : List Address) (after : KnownContracts) : Prop :=
  ∀ contract, contract ∈ emitters ∨ (known.get? contract).isSome → (after.get? contract).isSome

theorem Covers.cons {known after : KnownContracts} {contract : Address} {rest : List Address}
    (h : Covers known rest after) (hsome : (known.get? contract).isSome) :
    Covers known (contract :: rest) after := by
  rintro other (hmem | hother)
  · rcases List.mem_cons.mp hmem with rfl | hmem
    · exact h other (.inr hsome)
    · exact h other (.inl hmem)
  · exact h other (.inr hother)

theorem Covers.of_insert {known after : KnownContracts} {contract : Address}
    {rest : List Address} {found : Capabilities}
    (h : Covers (known.insert contract found) rest after) :
    Covers known (contract :: rest) after := by
  have hcons : Covers (known.insert contract found) (contract :: rest) after := h.cons (by simp)
  intro other hother
  refine hcons other (hother.imp_right fun hsome => ?_)
  by_cases hsame : contract = other
  · simp [hsame]
  · rwa [Table.get?_insert_of_ne _ _ hsame]

theorem triple_classifyEmitters (hcode : CodeAgrees tree code) (hserves : ServesCode node code)
    (number : Nat) {emitters : List Address} {known : KnownContracts}
    (hknown : Classifies code known.get?) :
    Triple node (Sound tree code) (classifyEmitters c number emitters known) (Sound tree code)
      fun result w => Sound tree code w ∧
        (∀ row ∈ result.1, Agrees code row.address row.capabilities) ∧
        Classifies code result.2.get? ∧ Covers known emitters result.2 := by
  induction emitters generalizing known with
  | nil => exact triple_pure (fun _ h => h) fun w h => ⟨h, by simp, hknown, by simp [Covers]⟩
  | cons contract rest ih =>
      rw [classifyEmitters]
      split
      · next hsome =>
        exact (ih hknown).post fun result w h => ⟨h.1, h.2.1, h.2.2.1, h.2.2.2.cons hsome⟩
      · refine Triple.bind (Q := fun stored w => Sound tree code w ∧ ∀ found, stored = some found →
          Agrees code contract found) ?_ ?_
        · exact triple_store (fun _ h => h) fun w now h => ⟨h, h, h.classifies contract⟩
        · rintro (_ | found)
          · refine .pre fun _ => ?_
            refine (triple_code hserves _ _).bind fun bytes => .pre ?_
            rintro rfl
            refine (triple_classify hcode (.inl ⟨_, rfl⟩)).bind fun found => .pre fun hfound => ?_
            refine (ih (hknown.insert hfound)).bind fun result => .pre ?_
            rintro ⟨hrows, hknown', hafter⟩
            exact triple_pure (fun _ h => h) fun w h =>
              ⟨h, List.forall_mem_cons.mpr ⟨hfound, hrows⟩, hknown', hafter.of_insert⟩
          · refine .pre fun hfound => ?_
            exact (ih (hknown.insert (hfound found rfl))).post fun result w h =>
              ⟨h.1, h.2.1, h.2.2.1, h.2.2.2.of_insert⟩

theorem deploys_of_extractAll {b : Block} {txs : List Hash} {rows : Trace.Output}
    (hheld : tree.Holds b) (htxs : ∀ tx ∈ txs, tx ∈ txHashes b)
    (h : extractAll txs (txs.map (tree.trace b.hash)) = .ok rows) :
    ∀ row ∈ rows.created, row.code ≠ [] → tree.Deploys row.address row.code := by
  induction txs generalizing rows with
  | nil =>
      cases h
      simp [Trace.Output.empty]
  | cons tx txs ih =>
      obtain ⟨htx, htxs⟩ := List.forall_mem_cons.mp htxs
      obtain ⟨first, others, hfirst, hothers, rfl⟩ := ok_of_extractAll_cons h
      intro row hrow hcode
      rcases List.mem_append.mp hrow with hrow | hrow
      · exact ⟨b, tx, first, row, hheld, htx, hfirst, hrow, rfl, rfl, hcode⟩
      · exact ih htxs hothers row hrow hcode

theorem triple_fetchTraces (hnode : tree.Admits node) (block : Hash) (txs : List Hash) :
    Triple node (fun w => Sound tree code w ∧ w.focus = some block) (fetchTraces c txs)
      (Sound tree code) fun traces w => Sound tree code w ∧ traces = txs.map (tree.trace block) := by
  rintro w out w' ⟨h, hfocus⟩ hruns
  have h' := (robust_sound.fetchTraces c txs w out w' h hruns).1
  refine ⟨h', ?_⟩
  rintro traces rfl
  obtain ⟨htraced, _⟩ := traced_of_fetchTraces hruns
  rw [hfocus] at htraced
  exact ⟨h', traces_of_forall hnode htraced⟩

structure Read (tree : BlockTree) (code : Address → Bytes) (block : Block) (rows : BlockRows) :
    Prop where
  created : ∀ row ∈ rows.created, Agrees code row.address row.capabilities
  classified : ∀ row ∈ rows.classified, Agrees code row.address row.capabilities
  transfers : rows.transfers = tree.transfers code block

theorem triple_normalize (hnode : tree.Admits node) (hserves : ServesCode node code)
    (hcode : CodeAgrees tree code) {block : Block} (hheld : tree.Holds block) (entry : ImportEntry) :
    Triple node (Sound tree code) (normalize c block entry) (Sound tree code)
      fun rows w => Sound tree code w ∧ Read tree code block rows := by
  unfold normalize
  refine Triple.bind (Q := fun fetched w => (Sound tree code w ∧ w.focus = some block.hash) ∧
    fetched = tree.receipts block.hash) ?_ fun fetched => .pre ?_
  · exact triple_callNode (fun _ h => h) (fun w h => robust_sound.asking w _ h)
      fun fetched w h hreply => ⟨⟨robust_sound.asking w _ h, rfl⟩, hnode _ _ _ hreply⟩
  rintro rfl
  refine Triple.bind (Q := fun aligned w => (Sound tree code w ∧ w.focus = some block.hash) ∧
    alignReceipts block (tree.receipts block.hash) = .ok aligned) ?_ fun aligned => .pre fun haligns => ?_
  · exact triple_ofExcept (fun _ h => h.1) fun aligned w hok h => ⟨h, ok_of_mapError hok⟩
  refine (triple_fetchTraces hnode block.hash _).bind fun traces => .pre ?_
  rintro rfl
  refine Triple.bind (Q := fun extracted w => Sound tree code w ∧
    extractAll (txHashes block) ((txHashes block).map (tree.trace block.hash)) = .ok extracted)
    (triple_ofExcept (fun _ h => h) fun _ w hok h => ⟨h, hok⟩) fun extracted => .pre fun hextracts => ?_
  have hdeploys := deploys_of_extractAll hheld (fun _ htx => htx) hextracts
  refine (triple_classifyCreated hcode hserves _ hdeploys ?_).bind fun ⟨created, known₁⟩ => .pre ?_
  · rintro contract found hnone
    cases hnone
  rintro ⟨hcreated, hknown₁⟩
  refine (triple_classifyEmitters hcode hserves _ hknown₁).bind fun ⟨classified, known⟩ => .pre ?_
  rintro ⟨hclassified, hknown, hall⟩
  have htransfers : (interpretAll (List.zipWith explain aligned
      ((txHashes block).map (tree.trace block.hash))) known.get?).transfers =
        tree.transfers code block := by
    unfold BlockTree.transfers
    rw [haligns, interpretAll_congr]
    intro contract hcontract
    obtain ⟨found, hfound⟩ := Option.isSome_iff_exists.mp (hall contract (.inl hcontract))
    unfold Token.knownNonFungible
    rw [hfound]
    exact hknown contract found hfound
  refine Triple.bind (keeps_ofExcept _) fun _ => Triple.bind keeps_now fun now => ?_
  refine Triple.bind (keeps_ofExcept _) fun committed => ?_
  exact triple_pure (fun _ h => h) fun w h => ⟨h, hcreated, hclassified, htransfers⟩

/-! ## Commits -/

theorem Classifies.commit {s : Store} {rows : BlockRows} {block : Block}
    (h : Classifies code s.capabilities?) (hrows : Read tree code block rows) :
    Classifies code (s.commit rows).capabilities? := by
  intro contract found hfound
  obtain ⟨stored, hstored, rfl⟩ := Option.map_eq_some_iff.mp hfound
  have hget := (Table.get?_foldl_insertNew ClassifiedContract.address Store.contractOfClassified
    rows.classified _ contract).symm.trans hstored
  rw [Table.get?_foldl_insert ContractCreated.address Store.contractOfCreated] at hget
  -- a creation replaces what was there, and a later look at the code only fills in
  rcases Option.or_eq_some_iff.mp hget with hbefore | ⟨_, hclassified⟩
  · rcases Option.or_eq_some_iff.mp hbefore with hcreated | ⟨_, hold⟩
    · obtain ⟨row, hrow, rfl⟩ := Option.map_eq_some_iff.mp hcreated
      obtain ⟨hmem, rfl⟩ := Table.of_lastUnder hrow
      exact hrows.created row hmem
    · exact h contract _ (by rw [Store.capabilities?, hold]; rfl)
  · obtain ⟨row, hrow, rfl⟩ := Option.map_eq_some_iff.mp hclassified
    obtain rfl : row.address = contract := by simpa using List.find?_some hrow
    exact hrows.classified row (List.mem_of_find?_eq_some hrow)

theorem Sound.commit {rows : BlockRows} (h : Sound tree code w) (hheld : tree.Holds rows.block)
    (hkeyed : Keyed rows) (hrows : Read tree code rows.block rows) :
    Sound tree code { w with store := w.store.commit rows } := by
  refine ⟨h.remembers, h.classifies.commit hrows, fun tx b hb htx i => ?_⟩
  by_cases hmem : tx ∈ txHashes rows.block
  · have hhash : rows.block.hash = b.hash :=
      Option.some.inj ((get?_transactions_of_mem w.store hmem).symm.trans htx)
    obtain rfl := tree.unique hheld hb hhash
    rw [← hrows.transfers]
    exact get?_refile_of_mem _ _ _ hmem i
  · rw [get?_transactions_of_not_mem w.store hmem] at htx
    rw [← h.transfers tx b hb htx i]
    exact get?_refile_of_not_mem _ hmem hkeyed.transfers i

theorem keeps_commitBlock (hnode : tree.Admits node) (hserves : ServesCode node code)
    (hcode : CodeAgrees tree code) {block : Block} (hheld : tree.Holds block) (entry : ImportEntry) :
    Keeps node (commitBlock c block entry) (Sound tree code) := by
  have hderived : ∀ w rows w', Sound tree code w →
      Runs node (normalize c block entry) w (some (.ok rows)) w' →
      rows.block = block ∧ Keyed rows := fun w rows w' _ hruns =>
    ⟨(derived_of_normalize hruns).marks.1, keyed_of_derived (derived_of_normalize hruns)⟩
  refine ((triple_normalize hnode hserves hcode hheld entry).adding hderived).bind fun rows => ?_
  refine .pre ?_
  rintro ⟨rfl, hkeyed⟩
  refine .pre fun hrows => ?_
  exact keeps_store fun w now h => h.commit hheld hkeyed hrows

theorem sound_of_reach {kind : Config → Prop} {at_work : Option Config} (hnode : tree.Admits node)
    (hserves : ServesCode node code) (hcode : CodeAgrees tree code)
    (h : Reach node kind at_work w) : Sound tree code w := by
  refine robust_sound.of_reach (fun c => ?_) (fun w c h => ?_) ?_ h
  · refine ⟨by simp [Remembers, World.fresh, Cache.new], ?_, ?_⟩
    · rintro contract found hnone
      cases hnone
    · rintro tx b _ hnone
      cases hnone
  · exact ⟨by simp [Remembers, World.renewed, Cache.new], h.classifies, h.transfers⟩
  · exact fun c _ number block hgiven entry =>
      keeps_commitBlock hnode hserves hcode (hnode.holds_of_number hgiven).1 entry

/-- The token movements of canonical transactions are a function of their block. -/
theorem transfers_of_reach {chain : Nat} {at_work : Option Config} (hnode : tree.Admits node)
    (hserves : ServesCode node code) (hcode : CodeAgrees tree code) (honce : tree.TransactionsOnce)
    (h : Reach node (fun c => c.chainId = chain) at_work w) {b : Block}
    (hb : b ∈ w.store.canonicalBlocks) {tx : Hash} (htx : tx ∈ txHashes b) (i : UInt32) :
    w.store.transfers.get? (tx, i) = Table.lastUnder
      (fun t : TokenTransfer => (t.txHash, t.logIndex)) (tree.transfers code b) (tx, i) := by
  obtain ⟨log, hlog⟩ := journal_of_reach h
  obtain ⟨rows, hrows, hfiled⟩ := follows_of_journal hnode honce (fun _ hc => hc) hlog b hb
  obtain rfl : rows.block = b := by simpa using List.find?_some hrows
  obtain ⟨start, blocks, hstanding, _⟩ := standing_of_chain hnode h
  exact (sound_of_reach hnode hserves hcode h).transfers tx rows.block
    (hstanding.holds (hstanding.mem_canonicalBlocks.mp hb)) (hfiled tx htx).block i

end ChainIngest.Importer
