import ChainIngest.Proofs.CanonicalChain
/-!
# Active import rows

An import row is active while it is canonical and its block in progress or
committed.  Where a block of a height is committed, no other row of the height is
canonical.  Rows in progress are left behind by broken-off steps alone, one by
each, so a height can have two active rows only if at least two steps were broken
off; and then it can, because no importer retires a row in progress when it is
offered a sibling of the block.
-/

namespace ChainIngest.Importer

/-! ## Canonical rows -/

/-- Whether a block's import row is canonical and has such a status. -/
def Marked (s : Store) (status : ImportStatus → Prop) (number : Nat) (hash : Hash) : Prop :=
  ∃ e, s.queue.get? (number, hash) = some e ∧ e.canonical = true ∧ status e.status

def UnderWay (s : Store) : Nat → Hash → Prop := Marked s (· = .inProgress)

def Active (s : Store) : Nat → Hash → Prop :=
  Marked s fun status => status = .inProgress ∨ status = .committed

variable {status : ImportStatus → Prop} {s s' : Store} {number : Nat} {hash : Hash}

instance [DecidablePred status] : Decidable (Marked s status number hash) :=
  decidable_of_iff
    ((s.queue.get? (number, hash)).any (fun e => e.canonical && decide (status e.status)) = true)
    (by simp [Marked, Option.any_eq_true])

instance : Decidable (Active s number hash) :=
  inferInstanceAs (Decidable (Marked s _ number hash))

theorem Marked.mono {status' : ImportStatus → Prop} (h : Marked s status number hash)
    (hstatus : ∀ st, status st → status' st) : Marked s status' number hash := by
  obtain ⟨e, he, hcanonical, hmarked⟩ := h
  exact ⟨e, he, hcanonical, hstatus _ hmarked⟩

theorem queued_iff : Queued s number hash ↔ Marked s (· = .committed) number hash := Iff.rfl

theorem active_iff : Active s number hash ↔ UnderWay s number hash ∨ Queued s number hash := by
  rw [queued_iff]
  constructor
  · rintro ⟨e, he, hcanonical, hprogress | hcommitted⟩
    · exact .inl ⟨e, he, hcanonical, hprogress⟩
    · exact .inr ⟨e, he, hcanonical, hcommitted⟩
  · rintro (h | h)
    · exact h.mono fun _ => .inl
    · exact h.mono fun _ => .inr

theorem marked_of_recordStatus {entry : ImportEntry}
    (h : Marked (s.recordStatus entry) status number hash) :
    (entry.id = ⟨number, hash⟩ ∧ status entry.status) ∨ Marked s status number hash := by
  obtain ⟨e, he, hcanonical, hstatus⟩ := h
  by_cases hkey : (entry.number, entry.hash) = (number, hash)
  · cases hkey
    rw [Store.recordStatus, Store.Table.get?_insert_self] at he
    cases he
    exact .inl ⟨rfl, hstatus⟩
  · rw [Store.recordStatus, Store.Table.get?_insert_of_ne _ _ hkey] at he
    exact .inr ⟨e, he, hcanonical, hstatus⟩

theorem marked_of_commit {rows : BlockRows} (hid : rows.entry.id = rows.block.id)
    (h : Marked (s.commit rows) status number hash) :
    (rows.block.id = ⟨number, hash⟩ ∧ status rows.entry.status) ∨
      (rows.block.number ≠ number ∧ Marked s status number hash) := by
  obtain ⟨e, he, hcanonical, hstatus⟩ := h
  rw [← hid]
  by_cases hkey : (rows.entry.number, rows.entry.hash) = (number, hash)
  · cases hkey
    obtain rfl := Option.some.inj ((Store.Table.get?_insert_self _ _ _).symm.trans he)
    exact .inl ⟨rfl, hstatus⟩
  · have hget : (s.commit rows).queue.get? (number, hash) =
        (Store.demoteEntries s.queue rows.block.id).get? (number, hash) :=
      Store.Table.get?_insert_of_ne _ _ hkey
    rw [hget, Store.demoteEntries, Store.Table.get?_map] at he
    obtain ⟨old, hold, hdemoted⟩ := Option.map_eq_some_iff.mp he
    split at hdemoted
    · subst hdemoted
      cases hcanonical
    · next hkept =>
      subst hdemoted
      refine .inr ⟨fun hnumber => hkept ⟨hnumber.symm, fun hhash => hkey ?_⟩,
        old, hold, hcanonical, hstatus⟩
      calc (rows.entry.number, rows.entry.hash)
          = (rows.block.number, rows.block.hash) :=
            congrArg (fun id : BlockId => (id.number, id.hash)) hid
        _ = (number, hash) := Prod.ext hnumber hhash.symm

/-- Two marked rows of one height are one row after a commit, unless they were there before. -/
theorem marked_twice_of_commit {status' : ImportStatus → Prop} {hash' : Hash} {rows : BlockRows}
    (hid : rows.entry.id = rows.block.id) (h : Marked (s.commit rows) status number hash)
    (h' : Marked (s.commit rows) status' number hash') :
    hash' = hash ∨ Marked s status number hash ∧ Marked s status' number hash' := by
  rcases marked_of_commit hid h with ⟨hthis, _⟩ | ⟨hother, hbefore⟩
  · rcases marked_of_commit hid h' with ⟨hthis', _⟩ | ⟨hother', _⟩
    · exact .inl (congrArg BlockId.hash (hthis'.symm.trans hthis))
    · exact absurd (congrArg BlockId.number hthis) hother'
  · rcases marked_of_commit hid h' with ⟨hthis', _⟩ | ⟨_, hbefore'⟩
    · exact absurd (congrArg BlockId.number hthis') hother
    · exact .inr ⟨hbefore, hbefore'⟩

theorem marked_of_markReorg {ancestor : BlockId} {chain : Nat} {now : Int}
    (h : Marked (s.markReorg ancestor chain now) status number hash) :
    Marked s status number hash := by
  obtain ⟨e, he, hcanonical, hstatus⟩ := h
  rw [Store.markReorg, Store.Table.get?_map] at he
  obtain ⟨old, hold, hmarked⟩ := Option.map_eq_some_iff.mp he
  split at hmarked
  · subst hmarked
    cases hcanonical
  · subst hmarked
    exact ⟨old, hold, hcanonical, hstatus⟩

theorem le_of_marked_markReorg {ancestor : BlockId} {chain : Nat} {now : Int}
    (h : Marked (s.markReorg ancestor chain now) status number hash) : number ≤ ancestor.number := by
  obtain ⟨e, he, hcanonical, _⟩ := h
  rw [Store.markReorg, Store.Table.get?_map] at he
  obtain ⟨old, _, hmarked⟩ := Option.map_eq_some_iff.mp he
  split at hmarked
  · subst hmarked
    cases hcanonical
  · next hkept => exact Nat.not_lt.mp hkept

theorem marked_of_touched {id : BlockId} (htouched : Touched id s s')
    (h : Marked s' status number hash) :
    (id = ⟨number, hash⟩ ∧ ∃ st, st ≠ .committed ∧ status st) ∨ Marked s status number hash := by
  rcases htouched with rfl | ⟨e, rfl, _, hopen, rfl⟩
  · exact .inr h
  · rcases marked_of_recordStatus h with ⟨hid, hstatus⟩ | hbefore
    · exact .inl ⟨hid, _, hopen, hstatus⟩
    · exact .inr hbefore

theorem queued_of_touched {id : BlockId} (htouched : Touched id s s') (h : Queued s' number hash) :
    Queued s number hash := by
  rw [queued_iff] at h ⊢
  rcases marked_of_touched htouched h with ⟨_, st, hopen, hcommitted⟩ | hbefore
  · exact absurd hcommitted hopen
  · exact hbefore

/-! ## A committed block is alone at its height -/

/-- Whether no other row of a committed block's height is canonical. -/
def Alone (s : Store) : Prop :=
  ∀ number hash hash', Queued s number hash → Marked s (fun _ => True) number hash' → hash' = hash

theorem alone_empty : Alone .empty := by
  rintro number hash hash' ⟨e, he, _⟩
  cases he

theorem Alone.touched {id : BlockId} (h : Alone s) (hfree : ∀ hash, ¬ Queued s id.number hash)
    (htouched : Touched id s s') : Alone s' := by
  intro number hash hash' hqueued hmarked
  have hqueued := queued_of_touched htouched hqueued
  rcases marked_of_touched htouched hmarked with ⟨rfl, _⟩ | hmarked
  · exact absurd hqueued (hfree hash)
  · exact h _ _ _ hqueued hmarked

theorem Alone.commit {rows : BlockRows} (h : Alone s) (hid : rows.entry.id = rows.block.id) :
    Alone (s.commit rows) := by
  intro number hash hash' hqueued hmarked
  rw [queued_iff] at hqueued
  rcases marked_twice_of_commit hid hqueued hmarked with hsame | ⟨hqueued, hmarked⟩
  · exact hsame
  · exact h _ _ _ hqueued hmarked

theorem Alone.markReorg {ancestor : BlockId} {chain : Nat} {now : Int} (h : Alone s) :
    Alone (s.markReorg ancestor chain now) := by
  intro number hash hash' hqueued hmarked
  rw [queued_iff] at hqueued
  exact h _ _ _ (marked_of_markReorg hqueued) (marked_of_markReorg hmarked)

variable {tree : BlockTree} {chain : Nat} {node : Conduct} {kind : Config → Prop} {c : Config}
  {at_work : Option Config} {w w' : World}

theorem Alone.of_step {start : Nat} {blocks : List Block}
    {out : Option (Except IngestError Outcome)} (h : Alone w.store)
    (hstanding : Standing tree start chain w.store blocks) (hnode : tree.Admits node)
    (hstart : w.head = none → c.startBlock = start) (htops : Tops tree start blocks w.head)
    (heffect : StepEffect node c w out w') : Alone w'.store := by
  -- the block under way stands above the stack, and what is committed lies in it
  have hfree : ∀ {block}, Offered node c w.head block → ∀ hash,
      ¬ Queued w.store block.id.number hash := by
    intro block hoffer hash hqueued
    obtain ⟨_, hnumber, _⟩ := hoffer.fits hnode hstart htops
    obtain ⟨b, hb, hid⟩ := (hstanding.queued _ _).mp hqueued
    have hlt := (hstanding.stacked.number_lt hb).2
    have heq : b.number = block.number := congrArg BlockId.number hid
    omega
  cases heffect with
  | nothing _ hsame => exact hsame.1 ▸ h
  | idle _ hsame => exact hsame.1 ▸ h
  | skipped _ _ _ _ _ hstore _ => exact hstore ▸ h
  | touched hoffer _ htouched _ => exact h.touched (hfree hoffer) htouched
  | committed hoffer hcommit _ =>
      obtain ⟨entry, rows, w₁, w₂, htouched, hid, _, hrows, hstore⟩ := hcommit
      obtain ⟨rfl, hid', _⟩ := (derived_of_normalize hrows).marks
      rw [hstore]
      exact (h.touched (hfree hoffer) htouched).commit (hid'.trans hid)
  | reorged _ _ _ _ hstore _ => exact hstore ▸ h.markReorg

theorem alone_of_reach (hnode : tree.Admits node)
    (h : Reach node (fun c => c.chainId = chain) at_work w) : Alone w.store := by
  induction h with
  | start => exact alone_empty
  | enter _ _ hrestore ih => exact (runs_restoreHead hrestore rfl).1 ▸ ih
  | @step c out w w' hreach hstep ih =>
      obtain ⟨_, _, hstanding, hhead⟩ := standing_of_chain hnode hreach
      obtain ⟨start, hstanding, hstart⟩ := hstanding.for_work (hhead rfl) c
      exact ih.of_step hstanding hnode hstart (hhead rfl ▸ hstanding.topped)
        (effect_of_importNext hstep)

/-! ## A step that fails leaves nothing under way -/

theorem not_runs_move_error {entry : ImportEntry} {next : ImportStatus} {error : Option String}
    {e : IngestError} (hlegal : entry.status.canBecome next = true) :
    ¬ Runs node (move entry next error) w (some (.error e)) w' := by
  intro h
  rcases runs_bind_request h with ⟨hnone, _⟩ | ⟨now, w₁, _, h₁⟩
  · cases hnone
  obtain ⟨moved, hmoved⟩ : ∃ moved, advance entry next error now = .ok moved := ⟨_, if_pos hlegal⟩
  rw [hmoved] at h₁
  change Runs node (Step.store (.recordStatus moved) >>= fun _ => pure moved) _ _ _ at h₁
  rcases runs_bind_iff.mp h₁ with ⟨hnone, _⟩ | ⟨e', _, herror⟩ | ⟨_, w₂, _, hnext⟩
  · cases hnone
  · exact not_runs_store_error (by simp [StoreTask.IsCommit]) herror
  · exact absurd hnext not_runs_pure_error

theorem runs_bind_legal_move {α : Type} {entry : ImportEntry} {next : ImportStatus}
    {error : Option String} {f : ImportEntry → Step α} {r : Except IngestError α}
    (hlegal : entry.status.canBecome next = true)
    (h : Runs node (move entry next error >>= f) w (some r) w') :
    ∃ e w₁, Moved entry next w e w₁ ∧ Runs node (f e) w₁ (some r) w' := by
  rcases runs_bind_iff.mp h with ⟨hnone, _⟩ | ⟨e, _, herror⟩ | ⟨e, w₁, hmove, hnext⟩
  · cases hnone
  · exact absurd herror (not_runs_move_error hlegal)
  · rw [← bind_pure (move entry next error)] at hmove
    rcases runs_bind_move hmove with ⟨hout, _⟩ | ⟨e', w₂, hmoved, hpure⟩
    · exact absurd hout (not_unfinished_ok _)
    · obtain ⟨hnone | hsome, rfl⟩ := runs_pure_iff.mp hpure
      · cases hnone
      · cases hsome
        exact ⟨e, _, hmoved, hnext⟩

theorem Moved.after {entry e : ImportEntry} {next : ImportStatus} (h : Moved entry next w e w')
    (hstore : w.store = s.recordStatus entry) : w'.store = s.recordStatus e := by
  rw [h.store, hstore, recordStatus_recordStatus h.id]

theorem failed_of_attemptBlock {block : Block} {left : Nat} {pending : ImportEntry}
    {e : IngestError} (hpending : pending.status = .pending)
    (hstore : w.store = s.recordStatus pending)
    (h : Runs node (attemptBlock c block left pending) w (some (.error e)) w') :
    ∃ failed : ImportEntry, failed.status = .failed ∧ w'.store = s.recordStatus failed := by
  induction left using Nat.strongRecOn generalizing pending w with
  | ind left ih =>
    unfold attemptBlock at h
    obtain ⟨entry, w₁, hmoved, h₁⟩ := runs_bind_legal_move (by rw [hpending]; rfl) h
    have hstore₁ : w₁.store = s.recordStatus entry := hmoved.after hstore
    rcases runs_bind_attempt h₁ with ⟨hnone, _⟩ | ⟨r, w₂, hr, h₂⟩
    · cases hnone
    cases r with
    | ok u =>
        rcases runs_bind_request h₂ with ⟨hnone, _⟩ | ⟨_, w₃, _, hend⟩
        · cases hnone
        · exact absurd hend not_runs_pure_error
    | error reason =>
        have hstore₂ : w₂.store = s.recordStatus entry := by
          obtain ⟨_, ⟨_, hsame⟩ | ⟨hnone | hok, _⟩⟩ := runs_commitBlock hr
          · exact hsame.trans hstore₁
          · cases hnone
          · cases hok
        obtain ⟨failed, w₃, hmoved₃, h₃⟩ := runs_bind_legal_move (by rw [hmoved.status]; rfl) h₂
        have hstore₃ : w₃.store = s.recordStatus failed := hmoved₃.after hstore₂
        change Runs node (retry c block left failed reason) w₃ _ w' at h₃
        rcases runs_retry h₃ with ⟨_, hsame⟩ | ⟨fewer, again, w₄, w₅, hleft, hsame, hmoved₅, h₅⟩
        · exact ⟨failed, hmoved₃.status, hsame.1.trans hstore₃⟩
        · exact ih fewer (by omega) hmoved₅.status (hmoved₅.after (hsame.1.trans hstore₃)) h₅

/-- A store in which at most the row of a failed import was written. -/
def GaveUp (s s' : Store) : Prop :=
  s' = s ∨ ∃ failed : ImportEntry, failed.status = .failed ∧ s' = s.recordStatus failed

/-- A step that, if it fails, leaves at most the row of a failed import. -/
def Tidy {α : Type} (node : Conduct) (step : Step α) : Prop :=
  ∀ w e w', Runs node step w (some (.error e)) w' → GaveUp w.store w'.store

theorem Quiet.tidy {α : Type} {step : Step α} (h : Quiet node step) : Tidy node step := by
  intro w e w' hruns
  exact .inl (h _ _ _ hruns).1

theorem Quiet.bind_tidy {α β : Type} {x : Step α} {f : α → Step β} (hx : Quiet node x)
    (hf : ∀ a, Tidy node (f a)) : Tidy node (x >>= f) := by
  intro w e w' h
  rcases runs_bind_quiet hx h with ⟨_, hsame⟩ | ⟨a, w₁, hsame, _, hnext⟩
  · exact .inl hsame.1
  · rw [← hsame.1]
    exact hf a _ _ _ hnext

theorem tidy_ite {α : Type} {p : Prop} [Decidable p] {x y : Step α} (hx : Tidy node x)
    (hy : Tidy node y) : Tidy node (if p then x else y) := by
  split
  · exact hx
  · exact hy

theorem tidy_handleReorg (c : Config) (head candidate : BlockId) :
    Tidy node (handleReorg c head candidate) := by
  intro w e w' h
  rcases runs_handleReorg h with ⟨_, hsame⟩ | ⟨_, _, _, _, _, hmoves⟩
  · exact .inl hsame.1
  · exact absurd hmoves not_headMoves_error

theorem tidy_processBlock (c : Config) (block : Block) : Tidy node (processBlock c block) := by
  unfold processBlock
  apply Quiet.bind_tidy (quiet_look fun s => ⟨_, fun _ => rfl⟩)
  intro existing
  apply tidy_ite (quiet_pure _).tidy
  apply (quiet_count _ _).bind_tidy
  intro _
  apply quiet_now.bind_tidy
  intro now w e w' h
  rcases runs_bind_store h with ⟨_, rfl⟩ | ⟨stamp, h₁⟩
  · exact .inl rfl
  · exact .inr (failed_of_attemptBlock rfl rfl h₁)

theorem tidy_importBlock (c : Config) (head : Option BlockId) (block : Block) :
    Tidy node (importBlock c head block) := by
  unfold importBlock
  split
  · exact tidy_handleReorg c _ _
  · intro w e w' h
    rcases runs_bind_iff.mp h with ⟨hnone, _⟩ | ⟨e', _, herror⟩ | ⟨outcome, w₁, _, h₁⟩
    · cases hnone
    · exact tidy_processBlock c block _ _ _ herror
    · rcases runs_bind_request h₁ with ⟨hnone, _⟩ | ⟨_, w₂, _, hend⟩
      · cases hnone
      · exact absurd hend not_runs_pure_error

theorem tidy_checkHead (c : Config) (head : BlockId) (latest : Nat) :
    Tidy node (checkHead c head latest) := by
  unfold checkHead
  apply (quiet_callNode c _).bind_tidy
  intro tip
  apply tidy_ite
  · apply Quiet.bind_tidy (quiet_look fun s => ⟨_, fun _ => rfl⟩)
    intro stored
    exact tidy_ite (quiet_pure _).tidy (tidy_handleReorg c _ _)
  · exact tidy_ite (quiet_pure _).tidy (tidy_handleReorg c _ _)

theorem quiet_head : Quiet node (Step.request .head) := by
  apply quiet_request
  rintro w reply w' ⟨_, rfl⟩
  exact World.Same.refl _

theorem tidy_importNext (c : Config) : Tidy node (importNext c) := by
  unfold importNext
  apply quiet_head.bind_tidy
  intro head
  apply (quiet_callNode c _).bind_tidy
  intro latest
  apply tidy_ite
  · cases head with
    | none => exact (quiet_pure _).tidy
    | some id => exact tidy_checkHead c id latest
  · apply (quiet_callNode c _).bind_tidy
    intro block
    exact tidy_importBlock c head block

/-! ## Every broken-off step leaves one block under way -/

def UnderWayIn (s : Store) (ids : List BlockId) : Prop :=
  ∀ number hash, UnderWay s number hash → ⟨number, hash⟩ ∈ ids

variable {ids : List BlockId}

theorem underWayIn_empty : UnderWayIn .empty [] := by
  rintro number hash ⟨e, he, _⟩
  cases he

theorem UnderWayIn.gaveUp (h : UnderWayIn s ids) (hend : GaveUp s s') : UnderWayIn s' ids := by
  rcases hend with rfl | ⟨failed, hfailed, rfl⟩
  · exact h
  · intro number hash hunder
    rcases marked_of_recordStatus hunder with ⟨_, hprogress⟩ | hunder
    · cases hfailed.symm.trans hprogress
    · exact h number hash hunder

theorem UnderWayIn.touched {id : BlockId} (h : UnderWayIn s ids) (htouched : Touched id s s') :
    UnderWayIn s' (id :: ids) := by
  intro number hash hunder
  rcases marked_of_touched htouched hunder with ⟨rfl, _⟩ | hunder
  · exact List.mem_cons_self
  · exact List.mem_cons_of_mem id (h number hash hunder)

theorem UnderWayIn.commit {rows : BlockRows} (h : UnderWayIn s (rows.block.id :: ids))
    (hid : rows.entry.id = rows.block.id) (hstatus : rows.entry.status = .committed) :
    UnderWayIn (s.commit rows) ids := by
  intro number hash hunder
  rcases marked_of_commit hid hunder with ⟨_, hprogress⟩ | ⟨hnumber, hunder⟩
  · cases hstatus.symm.trans hprogress
  · rcases List.mem_cons.mp (h number hash hunder) with hthis | hother
    · exact absurd (congrArg BlockId.number hthis).symm hnumber
    · exact hother

theorem UnderWayIn.of_step {out : Option (Except IngestError Outcome)}
    (h : UnderWayIn w.store ids) (heffect : StepEffect node c w out w') :
    UnderWayIn w'.store ids ∨
      (Unfinished out ∧ ∃ id, UnderWayIn w'.store (id :: ids)) := by
  cases heffect with
  | nothing _ hsame => exact .inl (hsame.1 ▸ h)
  | idle _ hsame => exact .inl (hsame.1 ▸ h)
  | skipped _ _ _ _ _ hstore _ => exact .inl (hstore ▸ h)
  | touched _ hout htouched _ => exact .inr ⟨hout, _, h.touched htouched⟩
  | committed _ hcommit _ =>
      obtain ⟨entry, rows, w₁, w₂, htouched, hid, _, hrows, hstore⟩ := hcommit
      obtain ⟨rfl, hid', _, hstatus, _⟩ := (derived_of_normalize hrows).marks
      rw [hstore]
      exact .inl ((h.touched htouched).commit (hid'.trans hid) hstatus)
  | reorged _ _ _ _ hstore _ =>
      rw [hstore]
      exact .inl fun number hash hunder => h number hash (marked_of_markReorg hunder)

theorem UnderWayIn.of_ended_step {result : Except IngestError Outcome}
    (h : UnderWayIn w.store ids) (hstep : Runs node (importNext c) w (some result) w') :
    UnderWayIn w'.store ids := by
  cases result with
  | error e => exact h.gaveUp (tidy_importNext c _ _ _ hstep)
  | ok outcome =>
      rcases h.of_step (effect_of_importNext hstep) with hids | ⟨hout, _⟩
      · exact hids
      · exact absurd hout (not_unfinished_ok outcome)

/-- The states that importers in turn lead to, with the number of steps that were broken off. -/
inductive Interrupted (node : Conduct) (kind : Config → Prop) :
    Nat → Option Config → World → Prop where
  | start (c : Config) : Interrupted node kind 0 none (.fresh c)
  | enter {c : Config} {breaks : Nat} {at_work : Option Config} {w w' : World} :
      Interrupted node kind breaks at_work w → kind c →
      Runs node (restoreHead c) (w.renewed c) (some (.ok ())) w' →
      Interrupted node kind breaks (some c) w'
  | ended {c : Config} {breaks : Nat} {result : Except IngestError Outcome} {w w' : World} :
      Interrupted node kind breaks (some c) w → Runs node (importNext c) w (some result) w' →
      Interrupted node kind breaks (some c) w'
  | broken {c : Config} {breaks : Nat} {w w' : World} :
      Interrupted node kind breaks (some c) w → Runs node (importNext c) w none w' →
      Interrupted node kind (breaks + 1) none w'

theorem reach_iff_interrupted :
    Reach node kind at_work w ↔ ∃ breaks, Interrupted node kind breaks at_work w := by
  constructor
  · intro h
    induction h with
    | start c => exact ⟨0, .start c⟩
    | enter _ hkind hrestore ih =>
        obtain ⟨breaks, hbreaks⟩ := ih
        exact ⟨breaks, .enter hbreaks hkind hrestore⟩
    | @step c out w w' _ hstep ih =>
        obtain ⟨breaks, hbreaks⟩ := ih
        cases out with
        | none => exact ⟨breaks + 1, .broken hbreaks hstep⟩
        | some result => exact ⟨breaks, .ended hbreaks hstep⟩
  · rintro ⟨breaks, h⟩
    induction h with
    | start c => exact .start c
    | enter _ hkind hrestore ih => exact .enter ih hkind hrestore
    | ended _ hstep ih => exact .step ih hstep
    | broken _ hstep ih => exact .step ih hstep

theorem underWayIn_of_interrupted {breaks : Nat} (h : Interrupted node kind breaks at_work w) :
    ∃ ids : List BlockId, ids.length ≤ breaks ∧ UnderWayIn w.store ids := by
  induction h with
  | start c => exact ⟨[], Nat.le_refl 0, underWayIn_empty⟩
  | enter _ _ hrestore ih => exact (runs_restoreHead hrestore rfl).1 ▸ ih
  | ended _ hstep ih =>
      obtain ⟨ids, hlength, hids⟩ := ih
      exact ⟨ids, hlength, hids.of_ended_step hstep⟩
  | broken _ hstep ih =>
      obtain ⟨ids, hlength, hids⟩ := ih
      rcases hids.of_step (effect_of_importNext hstep) with hids' | ⟨_, id, hids'⟩
      · exact ⟨ids, by omega, hids'⟩
      · exact ⟨id :: ids, by rw [List.length_cons]; omega, hids'⟩

theorem UnderWayIn.unique {hash' : Hash} (h : UnderWayIn s ids) (hlength : ids.length ≤ 1)
    (hhash : UnderWay s number hash) (hhash' : UnderWay s number hash') : hash' = hash := by
  have hmem := h number hash hhash
  have hmem' := h number hash' hhash'
  match ids, hlength with
  | [], _ => cases hmem
  | [id], _ =>
      have hsame := (List.mem_singleton.mp hmem').trans (List.mem_singleton.mp hmem).symm
      exact congrArg BlockId.hash hsame

/-- However often steps were broken off: a committed block is the only one of its height with a
canonical row, and there are no more blocks under way than steps that were broken off.  If that
was one at most, no height has two active rows. -/
theorem active_unique_of_interrupted {breaks : Nat} (hnode : tree.Admits node)
    (h : Interrupted node (fun c => c.chainId = chain) breaks at_work w) :
    (∀ number hash hash', Queued w.store number hash →
      Marked w.store (fun _ => True) number hash' → hash' = hash) ∧
    (∃ ids : List BlockId, ids.length ≤ breaks ∧
      ∀ number hash, UnderWay w.store number hash → ⟨number, hash⟩ ∈ ids) ∧
    (breaks ≤ 1 → ∀ number hash hash', Active w.store number hash → Active w.store number hash' →
      hash' = hash) := by
  have halone : Alone w.store := alone_of_reach hnode (reach_iff_interrupted.mpr ⟨breaks, h⟩)
  obtain ⟨ids, hlength, hids⟩ := underWayIn_of_interrupted h
  refine ⟨halone, ⟨ids, hlength, hids⟩, fun hbreaks number hash hash' hactive hactive' => ?_⟩
  rcases active_iff.mp hactive with hunder | hqueued
  · rcases active_iff.mp hactive' with hunder' | hqueued'
    · exact hids.unique (Nat.le_trans hlength hbreaks) hunder hunder'
    · exact (halone _ _ _ hqueued' (hunder.mono fun _ _ => trivial)).symm
  · exact halone _ _ _ hqueued (hactive'.mono fun _ _ => trivial)

/-! The node does not answer for a block's receipts, and the importer is broken off. -/

/-- A plain node that is silent about receipts until the importer is broken off. -/
def Surroundings.stalling (blocks : List Block) : Surroundings Store where
  node call s :=
    match call with
    | .receipts _ => (.interruption, s)
    | call => (.answer (plainAnswer blocks call), s)
  store task now s := (.ok (s.perform task now).1, (s.perform task now).2)

theorem Surroundings.within_stalling (blocks : List Block) :
    (Surroundings.stalling blocks).Within id (plainConduct blocks) where
  answers {call s reply s'} h focus := by
    cases call <;> cases h <;> exact .inl rfl
  silence _ _ limit := .inr ⟨limit, rfl⟩
  apart call s := by cases call <;> rfl
  stores task now s := .inl ⟨rfl, rfl⟩

section

variable {breaks : Nat} {blocks : List Block} {focus : Option Hash} {session : Session Store}
  (hshown : ∀ focus call reply, plainConduct blocks focus call reply → node focus call reply)

include hshown

theorem Interrupted.enter_plain (h : Interrupted node kind breaks at_work (session.world id focus))
    (hkind : kind c) (hdone : ((session.restart c).perform (.plain blocks false) none
      (restoreHead c)).1.any Except.isOk = true) :
    ∃ focus', Interrupted node kind breaks (some c) (((session.restart c).perform
      (.plain blocks false) none (restoreHead c)).2.world id focus') := by
  obtain ⟨focus', hruns⟩ := Session.runs_of_perform
    ((Surroundings.within_plain blocks false).mono hshown) none (restoreHead c)
    (session.restart c) focus
  obtain ⟨result, hresult, hok⟩ := (Option.any_eq_true _ _).mp hdone
  cases result with
  | error e => cases hok
  | ok u =>
      rw [hresult] at hruns
      exact ⟨focus', h.enter hkind hruns⟩

theorem Interrupted.ended_plain
    (h : Interrupted node kind breaks (some c) (session.world id focus)) :
    ∃ focus', Interrupted node kind breaks (some c)
      ((session.perform (.plain blocks false) none (importNext c)).2.world id focus') := by
  have hplain : (Surroundings.plain blocks false).Answering node :=
    ⟨(Surroundings.within_plain blocks false).mono hshown, fun call _ => ⟨_, rfl⟩⟩
  obtain ⟨result, focus', _, hruns⟩ := runs_lead_step (c := c) hplain session focus
  exact ⟨focus', h.ended hruns⟩

theorem Interrupted.broken_stalling
    (h : Interrupted node kind breaks (some c) (session.world id focus))
    (hcut : (session.perform (.stalling blocks) none (importNext c)).1.isNone = true) :
    ∃ focus', Interrupted node kind (breaks + 1) none
      ((session.perform (.stalling blocks) none (importNext c)).2.world id focus') := by
  obtain ⟨focus', hruns⟩ := Session.runs_of_perform
    ((Surroundings.within_stalling blocks).mono hshown) none (importNext c) session focus
  rw [Option.isNone_iff_eq_none.mp hcut] at hruns
  exact ⟨focus', h.broken hruns⟩

end

def committedFirst : Session Store :=
  ((Session.start .empty evenSettings 0).perform (.plain oldBranch false) none
    (importNext evenSettings)).2

def brokenOff : Session Store :=
  (committedFirst.perform (.stalling oldBranch) none (importNext evenSettings)).2

def entered : Session Store :=
  ((brokenOff.restart evenSettings).perform (.plain newBranch false) none
    (restoreHead evenSettings)).2

def brokenOffAgain : Session Store :=
  (entered.perform (.stalling newBranch) none (importNext evenSettings)).2

theorem interrupted_brokenOff (hkind : kind evenSettings) :
    ∃ focus, Interrupted forkedNode kind 1 none (brokenOff.world id focus) := by
  have hshown : ∀ focus call reply, plainConduct oldBranch focus call reply →
      forkedNode focus call reply := fun _ _ _ => .inl
  have hstart : Interrupted forkedNode kind 0 (some evenSettings)
      ((Session.start .empty evenSettings 0).world id none) :=
    .enter (.start evenSettings) hkind (.ask (.inl ⟨0, rfl, rfl⟩) .done)
  obtain ⟨focus, hfirst⟩ : ∃ focus, Interrupted forkedNode kind 0 (some evenSettings)
      (committedFirst.world id focus) := hstart.ended_plain hshown
  exact hfirst.broken_stalling hshown (by decide +kernel)

theorem interrupted_brokenOffAgain (hkind : kind evenSettings) :
    ∃ focus, Interrupted forkedNode kind 2 none (brokenOffAgain.world id focus) := by
  have hshown : ∀ focus call reply, plainConduct newBranch focus call reply →
      forkedNode focus call reply := fun _ _ _ => .inr
  obtain ⟨_, hbroken⟩ := interrupted_brokenOff hkind
  obtain ⟨_, hentered⟩ : ∃ focus, Interrupted forkedNode kind 1 (some evenSettings)
      (entered.world id focus) := hbroken.enter_plain hshown hkind (by decide +kernel)
  exact hentered.broken_stalling hshown (by decide +kernel)

theorem active_unique_of_interrupted_once : ∃ w,
    Interrupted forkedNode (fun c => c.chainId = 1) 1 none w ∧ Active w.store 1 ⟨2⟩ ∧
      ∀ hash, Active w.store 1 hash → hash = ⟨2⟩ := by
  obtain ⟨focus, hbroken⟩ : ∃ focus, Interrupted forkedNode (fun c => c.chainId = 1) 1 none
      (brokenOff.world id focus) := interrupted_brokenOff rfl
  have hactive : Active brokenOff.outside 1 ⟨2⟩ := by decide +kernel
  have hunique := (active_unique_of_interrupted admits_forkedNode hbroken).2.2 (Nat.le_refl 1)
  exact ⟨_, hbroken, hactive, fun hash hother => hunique 1 ⟨2⟩ hash hactive hother⟩

/-- An importer may be broken off at a block, and the next one at a sibling of it: both rows are
active. -/
theorem not_active_unique : ∃ w, forkedTree.Admits forkedNode ∧
    Reach forkedNode (Config.On 0 1) none w ∧ Active w.store 1 ⟨2⟩ ∧ Active w.store 1 ⟨3⟩ := by
  obtain ⟨focus, hbroken⟩ : ∃ focus, Interrupted forkedNode (Config.On 0 1) 2 none
      (brokenOffAgain.world id focus) := interrupted_brokenOffAgain ⟨rfl, rfl⟩
  have hold : Active brokenOffAgain.outside 1 ⟨2⟩ := by decide +kernel
  have hnew : Active brokenOffAgain.outside 1 ⟨3⟩ := by decide +kernel
  exact ⟨_, admits_forkedNode, reach_iff_interrupted.mpr ⟨2, hbroken⟩, hold, hnew⟩

end ChainIngest.Importer
