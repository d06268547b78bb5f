import ChainIngest.Proofs.Tables
import ChainIngest.Proofs.World
/-!
# What an import step does

One step of an importer has few possible effects, whatever the node and the
clock do and wherever the step breaks off: none, rows written of the block under
way, a commit, or a reorg.  Each part of a step is described here by what it
leaves behind, and the whole step by the list of its effects, so nothing later
looks into a step again.
-/

namespace ChainIngest.Importer

variable {node : Conduct} {c : Config} {w w' : World}

/-! ## What rows are worked out from -/

/-- What is asked to work out rows, the receipts and the time of day apart. -/
def Request.Probes : Request → Prop
  | .node (.trace _) _ => True
  | .node (.code _ _) _ => True
  | .store (.capabilities _) => True
  | .classify _ => True
  | .count _ _ => True
  | .sleep _ => True
  | _ => False

theorem probes_callNode {call : NodeCall} (hcall : Request.Probes (.node call c.nodeTimeout)) :
    Dialogue.Asks Request.Probes (callNode c call).run :=
  asks_callNode hcall (fun _ _ => trivial) (fun _ => trivial)

theorem probes_fetchTraces (c : Config) (txs : List Hash) :
    Dialogue.Asks Request.Probes (fetchTraces c txs).run := by
  induction txs with
  | nil => exact .done
  | cons tx txs ih =>
      exact asks_bind (probes_callNode trivial) fun t => asks_bind ih fun ts => .done

def codeOf (c : Config) (number : Nat) (created : ContractCreated) : Step Bytes :=
  if created.code.isEmpty then callNode c (.code created.address number) else pure created.code

theorem classifyCreated_cons (c : Config) (number : Nat) (created : ContractCreated)
    (rest : List ContractCreated) (known : KnownContracts) :
    classifyCreated c number (created :: rest) known = (do
      let code ← codeOf c number created
      let found ← Step.request (.classify code)
      let after ← classifyCreated c number rest (known.insert created.address found)
      return ({ created with
        code := code, capabilities := found, contractType := found.contractType } :: after.1,
        after.2)) := by
  rw [classifyCreated, codeOf]
  split <;> rfl

theorem probes_classifyCreated (c : Config) (number : Nat) (created : List ContractCreated)
    (known : KnownContracts) :
    Dialogue.Asks Request.Probes (classifyCreated c number created known).run := by
  induction created generalizing known with
  | nil => exact .done
  | cons row rest ih =>
      rw [classifyCreated_cons]
      refine asks_bind ?_ fun code => asks_bind (asks_request trivial) fun found =>
        asks_bind (ih _) fun after => .done
      unfold codeOf
      split
      · exact probes_callNode trivial
      · exact .done

theorem probes_classifyEmitters (c : Config) (number : Nat) (emitters : List Address)
    (known : KnownContracts) :
    Dialogue.Asks Request.Probes (classifyEmitters c number emitters known).run := by
  induction emitters generalizing known with
  | nil => exact .done
  | cons contract rest ih =>
      rw [classifyEmitters]
      split
      · exact ih known
      · refine asks_bind (asks_store trivial) fun stored => ?_
        cases stored with
        | some found => exact ih _
        | none =>
            exact asks_bind (probes_callNode trivial) fun code =>
              asks_bind (asks_request trivial) fun found => asks_bind (ih _) fun rows => .done

/-- Nothing that is asked for rows changes the tables or the head. -/
theorem quiet_of_probes {α : Type} {step : Step α} (h : Dialogue.Asks Request.Probes step.run) :
    Quiet node step := by
  refine quiet_of_asks (fun q w reply w' hq hreply => ?_) h
  unfold Request.Probes at hq
  split at hq
  · exact hreply.2 ▸ World.same_asking w _
  · exact hreply.2 ▸ World.same_asking w _
  · rcases hreply with ⟨_, _, rfl⟩ | ⟨hcommit, _⟩
    · exact World.Same.refl w
    · exact hcommit.elim
  · obtain ⟨_, rfl⟩ := hreply
    exact ⟨rfl, rfl⟩
  · exact hreply ▸ World.Same.refl w
  · exact hreply ▸ World.Same.refl w
  · exact hq.elim

theorem quiet_normalize (c : Config) (block : Block) (entry : ImportEntry) :
    Quiet node (normalize c block entry) := by
  unfold normalize
  apply (quiet_callNode c _).bind
  intro fetched
  apply (quiet_ofExcept _).bind
  intro aligned
  apply (quiet_of_probes (probes_fetchTraces c _)).bind
  intro traces
  apply (quiet_ofExcept _).bind
  intro extracted
  apply (quiet_of_probes (probes_classifyCreated c _ _ _)).bind
  intro created
  apply (quiet_of_probes (probes_classifyEmitters c _ _ _)).bind
  intro classified
  apply (quiet_ofExcept _).bind
  intro _
  apply quiet_now.bind
  intro now
  apply (quiet_ofExcept _).bind
  intro committed
  exact quiet_pure _

/-! ## Rows of the block under way -/

theorem of_advance_eq_ok {entry e : ImportEntry} {next : ImportStatus} {error : Option String}
    {now : Int} (h : advance entry next error now = .ok e) :
    e.id = entry.id ∧ e.canonical = entry.canonical ∧ e.status = next := by
  unfold advance at h
  split at h
  · cases h
    exact ⟨rfl, rfl, rfl⟩
  · cases h

/-- An attempt is counted when it begins. -/
def attemptsAfter (entry : ImportEntry) : ImportStatus → Nat
  | .inProgress => entry.attempts + 1
  | _ => entry.attempts

theorem attempts_of_advance {entry e : ImportEntry} {next : ImportStatus} {error : Option String}
    {now : Int} (h : advance entry next error now = .ok e) : e.attempts = attemptsAfter entry next := by
  unfold advance at h
  split at h
  · cases h
    cases next <;> rfl
  · cases h

theorem recordStatus_recordStatus {e e' : ImportEntry} (h : e'.id = e.id) (s : Store) :
    (s.recordStatus e).recordStatus e' = s.recordStatus e' := by
  have hkey : (e'.number, e'.hash) = (e.number, e.hash) :=
    congrArg (fun id : BlockId => (id.number, id.hash)) h
  simp only [Store.recordStatus, hkey, Store.Table.insert_insert]

/-- A store in which nothing but the import row of a block under way may have changed. -/
def Touched (block : BlockId) (s s' : Store) : Prop :=
  s' = s ∨ ∃ e : ImportEntry, e.id = block ∧ e.canonical = true ∧ e.status ≠ .committed ∧
    s' = s.recordStatus e

theorem Touched.trans {block : BlockId} {s₁ s₂ s₃ : Store} (h : Touched block s₁ s₂)
    (h' : Touched block s₂ s₃) : Touched block s₁ s₃ := by
  rcases h' with rfl | ⟨e', hid', hcanonical', hstatus', rfl⟩
  · exact h
  · refine .inr ⟨e', hid', hcanonical', hstatus', ?_⟩
    rcases h with rfl | ⟨e, hid, _, _, rfl⟩
    · rfl
    · exact recordStatus_recordStatus (hid'.trans hid.symm) s₁

theorem Touched.blocks {block : BlockId} {s s' : Store} (h : Touched block s s') :
    s'.blocks = s.blocks := by
  rcases h with rfl | ⟨e, _, _, _, rfl⟩
  · rfl
  · rfl

theorem Touched.canonicalBlocks {block : BlockId} {s s' : Store} (h : Touched block s s') :
    s'.canonicalBlocks = s.canonicalBlocks := by
  rw [Store.canonicalBlocks, h.blocks]
  rfl

structure Moved (entry : ImportEntry) (next : ImportStatus) (w : World) (e : ImportEntry)
    (w' : World) : Prop where
  id : e.id = entry.id
  canonical : e.canonical = entry.canonical
  status : e.status = next
  store : w'.store = w.store.recordStatus e
  head : w'.head = w.head

theorem Moved.touched {entry e : ImportEntry} {next : ImportStatus} (h : Moved entry next w e w')
    (hcanonical : entry.canonical = true) (hnext : next ≠ .committed) :
    Touched entry.id w.store w'.store :=
  .inr ⟨e, h.id, h.canonical.trans hcanonical, h.status ▸ hnext, h.store⟩

theorem runs_bind_move {α : Type} {entry : ImportEntry} {next : ImportStatus}
    {error : Option String} {f : ImportEntry → Step α} {out : Option (Except IngestError α)}
    (h : Runs node (move entry next error >>= f) w out w') :
    (Unfinished out ∧ World.Same w w') ∨
      ∃ e w₁, Moved entry next w e w₁ ∧ Runs node (f e) w₁ out w' := by
  rw [move, bind_assoc] at h
  rcases runs_bind_quiet quiet_now h with hnothing | ⟨now, w₁, hsame₁, _, h⟩
  · exact .inl hnothing
  rw [bind_assoc] at h
  rcases runs_bind_quiet (quiet_ofExcept _) h with ⟨hout, hsame⟩ | ⟨e, w₂, hsame₂, hadvance, h⟩
  · exact .inl ⟨hout, hsame₁.trans hsame⟩
  have hsame := hsame₁.trans hsame₂
  obtain ⟨hid, hcanonical, hstatus⟩ := of_advance_eq_ok (ok_of_ofExcept hadvance)
  rw [bind_assoc] at h
  rcases runs_bind_store h with ⟨hout, rfl⟩ | ⟨now, h⟩
  · exact .inl ⟨hout, hsame⟩
  · rw [pure_bind] at h
    exact .inr ⟨e, w₂.storing (.recordStatus e) now, ⟨hid, hcanonical, hstatus,
      congrArg (Store.recordStatus · e) hsame.1, hsame.2⟩, h⟩

/-! ## Commits -/

/-- A store into which a block was committed, its rows having been worked out from a store in
which only its import row was touched. -/
def CommitOf (node : Conduct) (c : Config) (block : Block) (s s' : Store) : Prop :=
  ∃ entry rows w₁ w₂, Touched block.id s w₁.store ∧ entry.id = block.id ∧
    entry.canonical = true ∧ Runs node (normalize c block entry) w₁ (some (.ok rows)) w₂ ∧
    s' = w₁.store.commit rows

theorem CommitOf.after_touch {block : Block} {s₁ s₂ s₃ : Store}
    (h : Touched block.id s₁ s₂) (h' : CommitOf node c block s₂ s₃) :
    CommitOf node c block s₁ s₃ := by
  obtain ⟨entry, rows, w₁, w₂, htouched, hrest⟩ := h'
  exact ⟨entry, rows, w₁, w₂, h.trans htouched, hrest⟩

/-- What trying to import a block leaves behind: a row of the block under way, or a commit. -/
def Tried (node : Conduct) (c : Config) (block : Block) (s : Store)
    (out : Option (Except IngestError Outcome)) (s' : Store) : Prop :=
  (Unfinished out ∧ Touched block.id s s') ∨
    ((out = none ∨ out = some (.ok (.committed block.id))) ∧ CommitOf node c block s s')

theorem Tried.after_touch {block : Block} {s₁ s₂ s₃ : Store}
    {out : Option (Except IngestError Outcome)} (h : Touched block.id s₁ s₂)
    (h' : Tried node c block s₂ out s₃) : Tried node c block s₁ out s₃ := by
  rcases h' with ⟨hout, h'⟩ | ⟨hout, h'⟩
  · exact .inl ⟨hout, h.trans h'⟩
  · exact .inr ⟨hout, h'.after_touch h⟩

theorem runs_commitBlock {block : Block} {entry : ImportEntry}
    {out : Option (Except IngestError Unit)} (h : Runs node (commitBlock c block entry) w out w') :
    w'.head = w.head ∧
      ((Unfinished out ∧ w'.store = w.store) ∨
        ((out = none ∨ out = some (.ok ())) ∧ ∃ rows w₁,
          Runs node (normalize c block entry) w (some (.ok rows)) w₁ ∧
          w'.store = w.store.commit rows)) := by
  unfold commitBlock at h
  rcases runs_bind_quiet (quiet_normalize c block entry) h with
    ⟨hout, hsame⟩ | ⟨rows, w₁, hsame, hrows, h⟩
  · exact ⟨hsame.2, .inl ⟨hout, hsame.1⟩⟩
  · rcases runs_store h with ⟨hout, rfl⟩ | ⟨now, rfl, hout⟩
    · exact ⟨hsame.2, .inl ⟨hout, hsame.1⟩⟩
    · exact ⟨hsame.2, .inr ⟨hout, rows, w₁, hrows, congrArg (Store.commit · rows) hsame.1⟩⟩

/-- What follows a failed attempt: the next one after a pause, or the end. -/
def retry (c : Config) (block : Block) (left : Nat) (failed : ImportEntry) (e : IngestError) :
    Step Outcome :=
  match left with
  | 0 => throw (.fatal block.id failed.attempts e)
  | left + 1 =>
    if e.isTransient then do
      Step.request (.count .blockRetries 1)
      Step.request (.sleep (c.backoff failed.attempts))
      let entry ← move failed .pending none
      attemptBlock c block left entry
    else throw (.fatal block.id failed.attempts e)

theorem runs_retry {block : Block} {left : Nat} {failed : ImportEntry} {e : IngestError}
    {out : Option (Except IngestError Outcome)} (h : Runs node (retry c block left failed e) w out w') :
    (Unfinished out ∧ World.Same w w') ∨
      ∃ fewer again w₁ w₂, left = fewer + 1 ∧ World.Same w w₁ ∧ Moved failed .pending w₁ again w₂ ∧
        Runs node (attemptBlock c block fewer again) w₂ out w' := by
  unfold retry at h
  split at h
  · obtain ⟨hout, rfl⟩ := runs_throw_iff.mp h
    exact .inl ⟨unfinished_of_error hout, World.Same.refl _⟩
  · split at h
    · rcases runs_bind_quiet (quiet_count _ _) h with hnothing | ⟨_, w₁, hsame₁, _, h₁⟩
      · exact .inl hnothing
      rcases runs_bind_quiet (quiet_sleep _) h₁ with ⟨hout, hsame⟩ | ⟨_, w₂, hsame₂, _, h₂⟩
      · exact .inl ⟨hout, hsame₁.trans hsame⟩
      have hsame₂ := hsame₁.trans hsame₂
      rcases runs_bind_move h₂ with ⟨hout, hsame⟩ | ⟨again, w₃, hmoved, h₃⟩
      · exact .inl ⟨hout, hsame₂.trans hsame⟩
      · exact .inr ⟨_, again, w₂, w₃, rfl, hsame₂, hmoved, h₃⟩
    · obtain ⟨hout, rfl⟩ := runs_throw_iff.mp h
      exact .inl ⟨unfinished_of_error hout, World.Same.refl _⟩

/-- One attempt settles the block, or its row is pending again with fewer attempts left. -/
theorem runs_attemptBlock_once {block : Block} {left : Nat} {pending : ImportEntry}
    {out : Option (Except IngestError Outcome)} (hid : pending.id = block.id)
    (hcanonical : pending.canonical = true)
    (h : Runs node (attemptBlock c block left pending) w out w') :
    (w'.head = w.head ∧ Tried node c block w.store out w'.store) ∨
      ∃ fewer entry w₁, left = fewer + 1 ∧ entry.id = block.id ∧ entry.canonical = true ∧
        w₁.head = w.head ∧ Touched block.id w.store w₁.store ∧
        Runs node (attemptBlock c block fewer entry) w₁ out w' := by
  unfold attemptBlock at h
  rcases runs_bind_move h with ⟨hout, hsame⟩ | ⟨entry, w₁, hmoved, h₁⟩
  · exact .inl ⟨hsame.2, .inl ⟨hout, .inl hsame.1⟩⟩
  have hid₁ : entry.id = block.id := hmoved.id.trans hid
  have hcanonical₁ : entry.canonical = true := hmoved.canonical.trans hcanonical
  have htouched₁ : Touched block.id w.store w₁.store :=
    hid ▸ hmoved.touched hcanonical (by decide)
  -- whether the attempt breaks off after the commit or ends well, the commit is the same
  have hcommit : ∀ {rows w₂ s}, Runs node (normalize c block entry) w₁ (some (.ok rows)) w₂ →
      s = w₁.store.commit rows → CommitOf node c block w.store s :=
    fun hrows hs => ⟨entry, _, w₁, _, htouched₁, hid₁, hcanonical₁, hrows, hs⟩
  rcases runs_bind_attempt h₁ with ⟨rfl, result, hcut⟩ | ⟨r, w₂, hr, h₂⟩
  · obtain ⟨hhead, ⟨_, hs⟩ | ⟨_, rows, w₂, hrows, hs⟩⟩ := runs_commitBlock hcut
    · exact .inl ⟨hhead.trans hmoved.head, .inl ⟨unfinished_none, hs ▸ htouched₁⟩⟩
    · exact .inl ⟨hhead.trans hmoved.head, .inr ⟨.inl rfl, hcommit hrows hs⟩⟩
  obtain ⟨hhead, hr⟩ := runs_commitBlock hr
  have hhead₂ : w₂.head = w.head := hhead.trans hmoved.head
  cases r with
  | ok u =>
      cases u
      rcases hr with ⟨hout, _⟩ | ⟨_, rows, w₃, hrows, hs⟩
      · exact absurd hout (not_unfinished_ok _)
      -- the block is committed; what is left of the attempt only counts it
      rcases runs_bind_request h₂ with ⟨rfl, rfl⟩ | ⟨_, w₄, rfl, hend⟩
      · exact .inl ⟨hhead₂, .inr ⟨.inl rfl, hcommit hrows hs⟩⟩
      · obtain ⟨hout, rfl⟩ := runs_pure_iff.mp hend
        exact .inl ⟨hhead₂, .inr ⟨hout, hcommit hrows hs⟩⟩
  | error e =>
      rcases hr with ⟨_, hs⟩ | ⟨hnone | hok, _⟩
      · have htouched₂ : Touched block.id w.store w₂.store := hs ▸ htouched₁
        rcases runs_bind_move h₂ with ⟨hout, hsame⟩ | ⟨failed, w₃, hmoved₃, h₃⟩
        · exact .inl ⟨hsame.2.trans hhead₂, .inl ⟨hout, hsame.1 ▸ htouched₂⟩⟩
        have hid₃ : failed.id = block.id := hmoved₃.id.trans hid₁
        have hcanonical₃ : failed.canonical = true := hmoved₃.canonical.trans hcanonical₁
        have hhead₃ : w₃.head = w.head := hmoved₃.head.trans hhead₂
        have htouched₃ : Touched block.id w.store w₃.store :=
          htouched₂.trans (hid₁ ▸ hmoved₃.touched hcanonical₁ (by decide))
        -- the rest of the attempt is word for word a retry
        change Runs node (retry c block left failed e) w₃ out w' at h₃
        rcases runs_retry h₃ with ⟨hout, hsame⟩ | ⟨fewer, again, w₄, w₅, hleft, hsame, hmoved₅, h₅⟩
        · exact .inl ⟨hsame.2.trans hhead₃, .inl ⟨hout, hsame.1 ▸ htouched₃⟩⟩
        · have htouched₄ : Touched block.id w.store w₄.store := hsame.1 ▸ htouched₃
          exact .inr ⟨fewer, again, w₅, hleft, hmoved₅.id.trans hid₃,
            hmoved₅.canonical.trans hcanonical₃, hmoved₅.head.trans (hsame.2.trans hhead₃),
            htouched₄.trans (hid₃ ▸ hmoved₅.touched hcanonical₃ (by decide)), h₅⟩
      · cases hnone
      · cases hok

theorem runs_attemptBlock {block : Block} {left : Nat} {pending : ImportEntry}
    {out : Option (Except IngestError Outcome)} (hid : pending.id = block.id)
    (hcanonical : pending.canonical = true)
    (h : Runs node (attemptBlock c block left pending) w out w') :
    w'.head = w.head ∧ Tried node c block w.store out w'.store := by
  induction left generalizing pending w with
  | zero =>
      rcases runs_attemptBlock_once hid hcanonical h with hdone | ⟨fewer, _, _, hleft, _⟩
      · exact hdone
      · cases hleft
  | succ left ih =>
      rcases runs_attemptBlock_once hid hcanonical h with
        hdone | ⟨fewer, entry, w₁, hleft, hid₁, hcanonical₁, hh₁, htouched, h₁⟩
      · exact hdone
      · cases hleft
        obtain ⟨hhead, htried⟩ := ih hid₁ hcanonical₁ h₁
        exact ⟨hhead.trans hh₁, htried.after_touch htouched⟩

/-- A block that the store has as a committed canonical one is left alone, any other is tried. -/
theorem runs_processBlock {block : Block} {out : Option (Except IngestError Outcome)}
    (h : Runs node (processBlock c block) w out w') :
    w'.head = w.head ∧
      ((w'.store = w.store ∧ (Unfinished out ∨ out = some (.ok (.skipped block.id)) ∧
          ∃ e, w.store.importStatus? block.number = some e ∧ e.hash = block.hash ∧
            e.canonical = true ∧ e.status = .committed)) ∨
        Tried node c block w.store out w'.store) := by
  unfold processBlock at h
  rcases runs_bind_look (fun _ => rfl) h with ⟨hout, rfl⟩ | h
  · exact ⟨rfl, .inl ⟨rfl, .inl hout⟩⟩
  split at h
  · next hcommitted =>
    obtain ⟨hout, rfl⟩ := runs_pure_iff.mp h
    refine ⟨rfl, .inl ⟨rfl, ?_⟩⟩
    rcases hout with rfl | rfl
    · exact .inl unfinished_none
    · obtain ⟨e, he, htest⟩ := Option.any_eq_true _ _ |>.mp hcommitted
      simp only [Bool.and_eq_true, decide_eq_true_eq] at htest
      exact .inr ⟨rfl, e, he, htest.1.1, htest.1.2, htest.2⟩
  · rcases runs_bind_quiet (quiet_count _ _) h with ⟨hout, hsame⟩ | ⟨_, w₁, hs₁, _, h⟩
    · exact ⟨hsame.2, .inl ⟨hsame.1, .inl hout⟩⟩
    rcases runs_bind_quiet quiet_now h with ⟨hout, hsame⟩ | ⟨now, w₂, hs₂, _, h⟩
    · exact ⟨(hs₁.trans hsame).2, .inl ⟨(hs₁.trans hsame).1, .inl hout⟩⟩
    have hs₂ := hs₁.trans hs₂
    rcases runs_bind_store h with ⟨hout, rfl⟩ | ⟨stamp, h⟩
    · exact ⟨hs₂.2, .inl ⟨hs₂.1, .inl hout⟩⟩
    obtain ⟨hhead, htried⟩ := runs_attemptBlock rfl rfl h
    refine ⟨hhead.trans hs₂.2, .inr (htried.after_touch ?_)⟩
    exact .inr ⟨.pending block.id now, rfl, rfl, by simp [ImportEntry.pending],
      congrArg (Store.recordStatus · _) hs₂.1⟩

/-! ## Reorgs -/

/-- The way down a branch, parent by parent as the node tells them, past blocks that the store
has another canonical block beside, to the first that it has none other beside. -/
inductive Descent (node : Conduct) (s : Store) : BlockId → BlockId → Prop where
  | here {id : BlockId} :
      (∀ stored, s.canonicalBlock? id.number = some stored → stored.hash = id.hash) →
      Descent node s id id
  | down {number : Nat} {hash : Hash} {block : Block} {stored ancestor : BlockId} :
      s.canonicalBlock? (number + 1) = some stored → stored.hash ≠ hash →
      node.Gives (.block (.hash hash)) block →
      Descent node s ⟨number, block.parentHash⟩ ancestor →
      Descent node s ⟨number + 1, hash⟩ ancestor

theorem findAncestor_eq (c : Config) (head : BlockId) (number : Nat) (hash : Hash) :
    findAncestor c head number hash = (do
      let stored ← Step.store (.canonicalBlock number)
      if stored.all fun s => s.hash = hash then
        if c.maxReorgDepth < head.number - number then
          throw (.reorgTooDeep head (head.number - number) c.maxReorgDepth)
        else pure ⟨number, hash⟩
      else if c.maxReorgDepth < head.number - number + 1 then
        throw (.reorgTooDeep head (head.number - number + 1) c.maxReorgDepth)
      else
        match number with
        | 0 => throw (.reorgTooDeep head (head.number - number + 1) c.maxReorgDepth)
        | below + 1 => do
          let block ← callNode c (.block (.hash hash))
          findAncestor c head below block.parentHash) := by
  cases number <;> rfl

theorem quiet_findAncestor (c : Config) (head : BlockId) (number : Nat) (hash : Hash) :
    Quiet node (findAncestor c head number hash) := by
  induction number generalizing hash with
  | zero =>
      rw [findAncestor_eq]
      apply Quiet.bind (quiet_look fun s => ⟨_, fun _ => rfl⟩)
      intro stored
      exact quiet_ite (quiet_ite (quiet_throw _) (quiet_pure _))
        (quiet_ite (quiet_throw _) (quiet_throw _))
  | succ below ih =>
      rw [findAncestor_eq]
      apply Quiet.bind (quiet_look fun s => ⟨_, fun _ => rfl⟩)
      intro stored
      exact quiet_ite (quiet_ite (quiet_throw _) (quiet_pure _))
        (quiet_ite (quiet_throw _) ((quiet_callNode c _).bind fun block => ih _))

theorem not_runs_throw_ok {α : Type} {e : IngestError} {a : α} :
    ¬ Runs node (throw e) w (some (.ok a)) w' := by
  intro h
  obtain ⟨hnone | herror, _⟩ := runs_throw_iff.mp h
  · cases hnone
  · cases herror

/-- A search that succeeds ends at once or goes on from the parent that the node tells. -/
theorem runs_findAncestor {head ancestor : BlockId} {number : Nat} {hash : Hash}
    (h : Runs node (findAncestor c head number hash) w (some (.ok ancestor)) w') :
    ((∀ stored, w.store.canonicalBlock? number = some stored → stored.hash = hash) ∧
        ancestor = ⟨number, hash⟩ ∧ head.number - number ≤ c.maxReorgDepth) ∨
      ∃ below block stored w₁, number = below + 1 ∧
        w.store.canonicalBlock? number = some stored ∧ stored.hash ≠ hash ∧
        node.Gives (.block (.hash hash)) block ∧ World.Same w w₁ ∧
        Runs node (findAncestor c head below block.parentHash) w₁ (some (.ok ancestor)) w' := by
  rw [findAncestor_eq] at h
  rcases runs_bind_look (fun _ => rfl) h with ⟨hout, _⟩ | h₁
  · exact absurd hout (not_unfinished_ok _)
  split at h₁
  · next hhere =>
    split at h₁
    · exact absurd h₁ not_runs_throw_ok
    · next hdepth =>
      obtain ⟨hok, _⟩ := runs_pure_iff.mp h₁
      obtain rfl : ancestor = ⟨number, hash⟩ := by simpa using hok
      exact .inl ⟨fun stored hs => by simpa [hs] using hhere, rfl, by simpa using hdepth⟩
  · next hother =>
    obtain ⟨stored, hstored, hne⟩ : ∃ stored, w.store.canonicalBlock? number = some stored ∧
        stored.hash ≠ hash := by
      simpa [Option.all_eq_true] using hother
    split at h₁
    · exact absurd h₁ not_runs_throw_ok
    · cases number with
      | zero => exact absurd h₁ not_runs_throw_ok
      | succ below =>
          rcases runs_bind_quiet (quiet_callNode c _) h₁ with
            ⟨hout, _⟩ | ⟨block, w₁, hsame, hblock, h₂⟩
          · exact absurd hout (not_unfinished_ok _)
          · exact .inr ⟨below, block, stored, w₁, rfl, hstored, hne, gives_of_callNode hblock,
              hsame, h₂⟩

/-- An ancestor that was found lies on the way down and within the permitted depth. -/
theorem descent_of_findAncestor {head ancestor : BlockId} {number : Nat} {hash : Hash}
    (h : Runs node (findAncestor c head number hash) w (some (.ok ancestor)) w') :
    Descent node w.store ⟨number, hash⟩ ancestor ∧
      head.number - ancestor.number ≤ c.maxReorgDepth := by
  induction number generalizing hash w with
  | zero =>
      rcases runs_findAncestor h with ⟨hhere, rfl, hdepth⟩ | ⟨_, _, _, _, hnumber, _⟩
      · exact ⟨.here hhere, hdepth⟩
      · cases hnumber
  | succ below ih =>
      rcases runs_findAncestor h with
        ⟨hhere, rfl, hdepth⟩ | ⟨_, block, stored, w₁, hnumber, hstored, hne, hgiven, hsame, h₁⟩
      · exact ⟨.here hhere, hdepth⟩
      · cases hnumber
        obtain ⟨hdescent, hdepth⟩ := ih h₁
        rw [hsame.1] at hdescent
        exact ⟨.down hstored hne hgiven hdescent, hdepth⟩

/-- How far a step came in making a block the head after its rows were written. -/
def HeadMoves (w : World) (id : BlockId) (result : Outcome)
    (out : Option (Except IngestError Outcome)) (w' : World) : Prop :=
  (w'.head = w.head ∧ out = none) ∨
    (w'.head = some id ∧ (out = none ∨ out = some (.ok result)))

theorem not_headMoves_error {id : BlockId} {result : Outcome} {e : IngestError} :
    ¬ HeadMoves w id result (some (.error e)) w' := by
  rintro (⟨_, hnone⟩ | ⟨_, hnone | hok⟩)
  · cases hnone
  · cases hnone
  · cases hok

/-- What was committed or gone back to is the head when the step has ended. -/
theorem HeadMoves.of_ok {id : BlockId} {result outcome : Outcome}
    (h : HeadMoves w id result (some (.ok outcome)) w') : w'.head = some id ∧ outcome = result := by
  rcases h with ⟨_, hout⟩ | ⟨hhead, hout | hout⟩
  · cases hout
  · cases hout
  · cases hout
    exact ⟨hhead, rfl⟩

theorem runs_handleReorg {head candidate : BlockId} {out : Option (Except IngestError Outcome)}
    (h : Runs node (handleReorg c head candidate) w out w') :
    (Unfinished out ∧ World.Same w w') ∨
      ∃ ancestor now, Descent node w.store candidate ancestor ∧
        head.number - ancestor.number ≤ c.maxReorgDepth ∧
        w'.store = w.store.markReorg ancestor c.chainId now ∧
        HeadMoves w ancestor (.reorged ancestor (head.number - ancestor.number)) out w' := by
  unfold handleReorg at h
  rcases runs_bind_quiet (quiet_findAncestor c _ _ _) h with hnothing | ⟨ancestor, w₁, hs₁, hfound, h⟩
  · exact .inl hnothing
  obtain ⟨hdescent, hdepth⟩ := descent_of_findAncestor hfound
  rcases runs_bind_store h with ⟨hout, rfl⟩ | ⟨now, h⟩
  · exact .inl ⟨hout, hs₁⟩
  refine .inr ⟨ancestor, now, hdescent, hdepth, ?_⟩
  have hstore : (w₁.storing (.markReorg ancestor c.chainId) now).store =
      w.store.markReorg ancestor c.chainId now :=
    congrArg (Store.markReorg · ancestor c.chainId now) hs₁.1
  rcases runs_bind_request h with ⟨rfl, rfl⟩ | ⟨_, w₂, rfl, h₂⟩
  · exact ⟨hstore, .inl ⟨hs₁.2, rfl⟩⟩
  rcases runs_bind_request h₂ with ⟨rfl, rfl⟩ | ⟨_, w₃, rfl, h₃⟩
  · exact ⟨hstore, .inr ⟨rfl, .inl rfl⟩⟩
  rcases runs_bind_request h₃ with ⟨rfl, rfl⟩ | ⟨_, w₄, rfl, h₄⟩
  · exact ⟨hstore, .inr ⟨rfl, .inl rfl⟩⟩
  obtain ⟨hout, rfl⟩ := runs_pure_iff.mp h₄
  exact ⟨hstore, .inr ⟨rfl, hout⟩⟩

/-! ## The step -/

def nextNumber (c : Config) : Option BlockId → Nat
  | some head => head.number + 1
  | none => c.startBlock

/-- The block that the node serves above the head, and that extends the head. -/
structure Offered (node : Conduct) (c : Config) (head : Option BlockId) (block : Block) : Prop where
  reached : ∃ latest : Nat, node.Gives .latestBlockNumber latest ∧ nextNumber c head ≤ latest
  served : node.Gives (.block (.number (nextNumber c head))) block
  extends_head : ∀ id, head = some id → block.parentHash = id.hash

/-- The block of the node's branch where the search for a common ancestor begins. -/
inductive Rival (node : Conduct) (s : Store) (head : BlockId) : BlockId → Prop where
  /-- The parent of a block above the head that does not extend it. -/
  | parent {block : Block} : node.Gives (.block (.number (head.number + 1))) block →
      block.parentHash ≠ head.hash → Rival node s head ⟨head.number, block.parentHash⟩
  /-- Another block of the head's height, the node reaching no further. -/
  | sibling {block : Block} {latest : Nat} : node.Gives .latestBlockNumber latest →
      latest ≤ head.number → node.Gives (.block (.number head.number)) block →
      block.hash ≠ head.hash → Rival node s head block.id
  /-- The node's last block, another one being stored at its height. -/
  | lower {block : Block} {latest : Nat} {stored : BlockId} :
      node.Gives .latestBlockNumber latest → latest < head.number →
      node.Gives (.block (.number latest)) block →
      s.canonicalBlock? latest = some stored → stored.hash ≠ block.hash →
      Rival node s head block.id

/-- What the node shows to an importer that has nothing to do. -/
def CaughtUp (node : Conduct) (c : Config) (s : Store) : Option BlockId → Prop
  | none => ∃ latest : Nat, node.Gives .latestBlockNumber latest ∧ latest < c.startBlock
  | some head => ∃ (latest : Nat) (block : Block), node.Gives .latestBlockNumber latest ∧
      latest ≤ head.number ∧ node.Gives (.block (.number latest)) block ∧
      if latest < head.number then
        ∀ stored, s.canonicalBlock? latest = some stored → stored.hash = block.hash
      else block.hash = head.hash

/-- Everything that an import step can do. -/
inductive StepEffect (node : Conduct) (c : Config) (w : World) :
    Option (Except IngestError Outcome) → World → Prop where
  /-- It failed or broke off before anything was written. -/
  | nothing {out : Option (Except IngestError Outcome)} {w' : World} :
      Unfinished out → World.Same w w' → StepEffect node c w out w'
  /-- There was nothing new. -/
  | idle {w' : World} : CaughtUp node c w.store w.head → World.Same w w' →
      StepEffect node c w (some (.ok .idle)) w'
  /-- The block had been committed before. -/
  | skipped {block : Block} {e : ImportEntry} {out : Option (Except IngestError Outcome)} {w' : World} :
      Offered node c w.head block →
      w.store.importStatus? block.number = some e → e.hash = block.hash → e.canonical = true →
      e.status = .committed → w'.store = w.store →
      HeadMoves w block.id (.skipped block.id) out w' → StepEffect node c w out w'
  /-- The block's import row was written, and the step failed or broke off. -/
  | touched {block : Block} {out : Option (Except IngestError Outcome)} {w' : World} :
      Offered node c w.head block → Unfinished out →
      Touched block.id w.store w'.store → w'.head = w.head → StepEffect node c w out w'
  /-- The block was committed. -/
  | committed {block : Block} {out : Option (Except IngestError Outcome)} {w' : World} :
      Offered node c w.head block →
      CommitOf node c block w.store w'.store →
      HeadMoves w block.id (.committed block.id) out w' → StepEffect node c w out w'
  /-- The head's branch was left for an ancestor. -/
  | reorged {head rival ancestor : BlockId} {now : Int}
      {out : Option (Except IngestError Outcome)} {w' : World} : w.head = some head →
      Rival node w.store head rival → Descent node w.store rival ancestor →
      head.number - ancestor.number ≤ c.maxReorgDepth →
      w'.store = w.store.markReorg ancestor c.chainId now →
      HeadMoves w ancestor (.reorged ancestor (head.number - ancestor.number)) out w' →
      StepEffect node c w out w'

theorem HeadMoves.of_same {w₁ : World} {id : BlockId} {result : Outcome}
    {out : Option (Except IngestError Outcome)} (hsame : World.Same w w₁)
    (h : HeadMoves w₁ id result out w') : HeadMoves w id result out w' := by
  rwa [HeadMoves, hsame.2] at h

/-- Only the tables and the head decide what a step does. -/
theorem StepEffect.of_same {w₁ : World} {out : Option (Except IngestError Outcome)}
    (hsame : World.Same w w₁) (h : StepEffect node c w₁ out w') : StepEffect node c w out w' := by
  obtain ⟨hs, hh⟩ := hsame
  cases h with
  | nothing hout hend => exact .nothing hout (World.Same.trans ⟨hs, hh⟩ hend)
  | idle hidle hend => exact .idle (hs ▸ hh ▸ hidle) (World.Same.trans ⟨hs, hh⟩ hend)
  | skipped hoffer he hhash hcanonical hstatus hstore hmoves =>
      exact .skipped (hh ▸ hoffer) (hs ▸ he) hhash hcanonical hstatus (hstore.trans hs)
        (hmoves.of_same ⟨hs, hh⟩)
  | touched hoffer hout htouched hhead =>
      exact .touched (hh ▸ hoffer) hout (hs ▸ htouched) (hhead.trans hh)
  | committed hoffer hcommit hmoves =>
      exact .committed (hh ▸ hoffer) (hs ▸ hcommit) (hmoves.of_same ⟨hs, hh⟩)
  | reorged hhead hrival hdescent hdepth hstore hmoves =>
      exact .reorged (hh ▸ hhead) (hs ▸ hrival) (hs ▸ hdescent) hdepth (hs ▸ hstore)
        (hmoves.of_same ⟨hs, hh⟩)

theorem effect_of_handleReorg {head rival : BlockId}
    {out : Option (Except IngestError Outcome)} (hhead : w.head = some head)
    (hrival : Rival node w.store head rival) (h : Runs node (handleReorg c head rival) w out w') :
    StepEffect node c w out w' := by
  rcases runs_handleReorg h with ⟨hout, hsame⟩ | ⟨ancestor, now, hdescent, hdepth, hstore, hmoves⟩
  · exact .nothing hout hsame
  · exact .reorged hhead hrival hdescent hdepth hstore hmoves

theorem effect_of_importBlock {block : Block} {out : Option (Except IngestError Outcome)}
    (hreached : ∃ latest : Nat, node.Gives .latestBlockNumber latest ∧ nextNumber c w.head ≤ latest)
    (hserved : node.Gives (.block (.number (nextNumber c w.head))) block)
    (h : Runs node (importBlock c w.head block) w out w') : StepEffect node c w out w' := by
  unfold importBlock at h
  split at h
  · next id hfilter =>
    obtain ⟨hid, hparent⟩ := Option.filter_eq_some_iff.mp hfilter
    rw [hid] at hserved
    exact effect_of_handleReorg hid (.parent hserved (by simpa using hparent)) h
  · next hfilter =>
    -- the test that failed is the test for a rival, so the block extends the head
    have hoffer : Offered node c w.head block := by
      refine ⟨hreached, hserved, fun id hid => ?_⟩
      rw [hid] at hfilter
      simpa using hfilter
    rcases runs_bind_iff.mp h with ⟨rfl, hcut⟩ | ⟨e, hout, herror⟩ | ⟨outcome, w₁, hok, h₁⟩
    · obtain ⟨hhead, ⟨hstore, _⟩ | ⟨_, htouched⟩ | ⟨_, hcommit⟩⟩ := runs_processBlock hcut
      · exact .nothing unfinished_none ⟨hstore, hhead⟩
      · exact .touched hoffer unfinished_none htouched hhead
      · exact .committed hoffer hcommit (.inl ⟨hhead, rfl⟩)
    · have hunfinished := unfinished_of_error hout
      obtain ⟨hhead, ⟨hstore, _⟩ | ⟨_, htouched⟩ | ⟨hnone | hok, _⟩⟩ := runs_processBlock herror
      · exact .nothing hunfinished ⟨hstore, hhead⟩
      · exact .touched hoffer hunfinished htouched hhead
      · cases hnone
      · cases hok
    · obtain ⟨hhead, hdone⟩ := runs_processBlock hok
      have hmoves : w'.store = w₁.store ∧ HeadMoves w block.id outcome out w' := by
        rcases runs_bind_request h₁ with ⟨rfl, rfl⟩ | ⟨_, w₂, rfl, h₂⟩
        · exact ⟨rfl, .inl ⟨hhead, rfl⟩⟩
        · obtain ⟨hout, rfl⟩ := runs_pure_iff.mp h₂
          exact ⟨rfl, .inr ⟨rfl, hout⟩⟩
      obtain ⟨hstore, hmoves⟩ := hmoves
      rcases hdone with ⟨hstore₁, hout | ⟨hskip, e, he, hhash, hcanonical, hstatus⟩⟩ |
        ⟨hout, _⟩ | ⟨hnone | hcommitted, hcommit⟩
      · exact absurd hout (not_unfinished_ok _)
      · cases hskip
        exact .skipped hoffer he hhash hcanonical hstatus (hstore.trans hstore₁) hmoves
      · exact absurd hout (not_unfinished_ok _)
      · cases hnone
      · cases hcommitted
        exact .committed hoffer (hstore ▸ hcommit) hmoves

theorem effect_of_checkHead {head : BlockId} {latest : Nat}
    {out : Option (Except IngestError Outcome)} (hhead : w.head = some head)
    (hlatest : node.Gives .latestBlockNumber latest) (hle : latest ≤ head.number)
    (h : Runs node (checkHead c head latest) w out w') : StepEffect node c w out w' := by
  unfold checkHead at h
  rw [Nat.min_eq_right hle] at h
  rcases runs_bind_quiet (quiet_callNode c _) h with ⟨hout, hsame⟩ | ⟨tip, w₁, hsame, htip, h₁⟩
  · exact .nothing hout hsame
  have hserved := gives_of_callNode htip
  have hhead₁ : w₁.head = some head := hsame.2.trans hhead
  have hidle : CaughtUp node c w₁.store w₁.head → (out = none ∨ out = some (.ok .idle)) →
      w' = w₁ → StepEffect node c w₁ out w' := by
    rintro hcaught (rfl | rfl) rfl
    · exact .nothing unfinished_none (World.Same.refl _)
    · exact .idle hcaught (World.Same.refl _)
  apply StepEffect.of_same hsame
  by_cases hlower : latest < head.number
  · simp only [hlower, if_true] at h₁
    rcases runs_bind_look (fun _ => rfl) h₁ with ⟨hout, rfl⟩ | h₂
    · exact .nothing hout (World.Same.refl _)
    split at h₂
    · next hagree =>
      obtain ⟨hout, hw'⟩ := runs_pure_iff.mp h₂
      refine hidle ?_ hout hw'
      rw [hhead₁]
      refine ⟨latest, tip, hlatest, hle, hserved, ?_⟩
      rw [if_pos hlower]
      intro stored hstored
      simpa [hstored] using hagree
    · next hother =>
      obtain ⟨stored, hstored, hne⟩ : ∃ stored, w₁.store.canonicalBlock? latest = some stored ∧
          stored.hash ≠ tip.hash := by
        simpa [Option.all_eq_true] using hother
      exact effect_of_handleReorg hhead₁ (.lower hlatest hlower hserved hstored hne) h₂
  · obtain rfl : latest = head.number := by omega
    simp only [Nat.lt_irrefl, if_false] at h₁
    split at h₁
    · next hagree =>
      obtain ⟨hout, hw'⟩ := runs_pure_iff.mp h₁
      refine hidle ?_ hout hw'
      rw [hhead₁]
      exact ⟨head.number, tip, hlatest, hle, hserved, by rw [if_neg hlower]; exact hagree⟩
    · next hother =>
      exact effect_of_handleReorg hhead₁ (.sibling hlatest hle hserved hother) h₁

/-- Whatever an import step does is one of its effects. -/
theorem effect_of_importNext {out : Option (Except IngestError Outcome)}
    (h : Runs node (importNext c) w out w') : StepEffect node c w out w' := by
  unfold importNext at h
  rcases runs_bind_request h with ⟨rfl, rfl⟩ | ⟨head, w₀, ⟨rfl, hw⟩, h₁⟩
  · exact .nothing unfinished_none (World.Same.refl _)
  obtain rfl := hw.symm
  change Runs node (callNode c .latestBlockNumber >>= fun latest =>
    if latest < nextNumber c w.head then _ else _) w out w' at h₁
  rcases runs_bind_quiet (quiet_callNode c _) h₁ with ⟨hout, hsame⟩ | ⟨latest, w₁, hsame, hanswer, h₂⟩
  · exact .nothing hout hsame
  have hlatest := gives_of_callNode hanswer
  rw [← hsame.2] at h₂
  apply StepEffect.of_same hsame
  split at h₂
  · next hlow =>
    cases hhead : w₁.head with
    | none =>
        rw [hhead] at h₂ hlow
        obtain ⟨rfl | rfl, rfl⟩ := runs_pure_iff.mp h₂
        · exact .nothing unfinished_none (World.Same.refl _)
        · refine .idle ?_ (World.Same.refl _)
          rw [hhead]
          exact ⟨latest, hlatest, hlow⟩
    | some head =>
        rw [hhead] at h₂ hlow
        exact effect_of_checkHead hhead hlatest (Nat.lt_succ_iff.mp hlow) h₂
  · next hhigh =>
    rcases runs_bind_quiet (quiet_callNode c _) h₂ with
      ⟨hout, hsame₂⟩ | ⟨block, w₂, hsame₂, hblock, h₃⟩
    · exact .nothing hout hsame₂
    have hserved : node.Gives (.block (.number (nextNumber c w₂.head))) block := by
      rw [hsame₂.2]
      exact gives_of_callNode hblock
    have hreached : ∃ latest : Nat, node.Gives .latestBlockNumber latest ∧
        nextNumber c w₂.head ≤ latest := by
      rw [hsame₂.2]
      exact ⟨latest, hlatest, Nat.not_lt.mp hhigh⟩
    apply StepEffect.of_same hsame₂
    rw [← hsame₂.2] at h₃
    exact effect_of_importBlock hreached hserved h₃

end ChainIngest.Importer
