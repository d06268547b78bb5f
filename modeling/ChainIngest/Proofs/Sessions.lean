import ChainIngest.Importer.Session
import ChainIngest.Proofs.World
/-!
# Sessions as runs

A session carries a step out with surroundings that are functions.  Where their
store is the in-memory one, but for commits that it refuses, and their node keeps
to a conduct, whatever the session does is a run in the sense of that conduct, so
what holds of all runs holds of it.
-/

namespace ChainIngest.Importer

variable {σ α : Type} {around : Surroundings σ} {tables : σ → Store} {node : Conduct}

def Request.Calls (call : NodeCall) (q : Request) : Prop :=
  ∀ other limit, q = .node other limit → other = call

/-- Surroundings with an in-memory store that may refuse commits, and a node within a conduct. -/
structure Surroundings.Within (around : Surroundings σ) (tables : σ → Store) (node : Conduct) :
    Prop where
  /-- The conduct permits every answer. -/
  answers : ∀ {call o reply o'}, around.node call o = (.answer reply, o') →
    ∀ focus, node focus call reply
  /-- It permits to answer too late. -/
  silence : ∀ focus call limit, node focus call (.error (.timeout call.operation limit))
  /-- No call reaches the store. -/
  apart : ∀ call o, tables (around.node call o).2 = tables o
  /-- A task is carried out, or it is a commit and refused. -/
  stores : ∀ task now o,
    ((around.store task now o).1 = .ok ((tables o).perform task now).1 ∧
      tables (around.store task now o).2 = ((tables o).perform task now).2) ∨
    (task.IsCommit ∧ (∃ e, (around.store task now o).1 = .error e) ∧
      tables (around.store task now o).2 = tables o)

theorem Surroundings.Within.mono {node' : Conduct} (h : around.Within tables node)
    (hnode : ∀ focus call reply, node focus call reply → node' focus call reply) :
    around.Within tables node' where
  answers hanswer focus := hnode _ _ _ (h.answers hanswer focus)
  silence focus call limit := hnode _ _ _ (h.silence focus call limit)
  apart := h.apart
  stores := h.stores

/-- The same with a conduct that need permit late answers only to calls that the node is silent
to. -/
structure Surroundings.Obeys (around : Surroundings σ) (tables : σ → Store) (node : Conduct) :
    Prop where
  answers : ∀ {call o reply o'}, around.node call o = (.answer reply, o') →
    ∀ focus, node focus call reply
  silence : ∀ {call o o'}, around.node call o = (.silence, o') →
    ∀ focus limit, node focus call (.error (.timeout call.operation limit))
  apart : ∀ call o, tables (around.node call o).2 = tables o
  stores : ∀ task now o,
    ((around.store task now o).1 = .ok ((tables o).perform task now).1 ∧
      tables (around.store task now o).2 = ((tables o).perform task now).2) ∨
    (task.IsCommit ∧ (∃ e, (around.store task now o).1 = .error e) ∧
      tables (around.store task now o).2 = tables o)

theorem Surroundings.Within.obeys (h : around.Within tables node) : around.Obeys tables node where
  answers := h.answers
  silence _ focus limit := h.silence focus _ limit
  apart := h.apart
  stores := h.stores

namespace Session

def world (tables : σ → Store) (focus : Option Hash) (s : Session σ) : World :=
  ⟨tables s.outside, s.head, s.cache, focus⟩

@[simp] theorem world_note (focus : Option Hash) (task : StoreTask) (s : Session σ) :
    (note task s).world tables focus = s.world tables focus := by
  cases task <;> rfl

theorem world_wait (tables : σ → Store) (focus : Option Hash) (deadline : Option Duration) (d : Duration)
    (s : Session σ) : (wait deadline d s).2.world tables focus = s.world tables focus := by
  unfold wait
  dsimp only
  split
  · rfl
  · rfl

theorem replies_of_answer (haround : around.Obeys tables node) {deadline : Option Duration}
    {q : Request} {s s' : Session σ} {reply : q.Reply} (focus : Option Hash)
    (h : answer around deadline q s = (some reply, s')) :
    ∃ focus', Replies node q (s.world tables focus) reply (s'.world tables focus') := by
  cases q with
  | node call limit =>
      -- a call changes nothing that steps see but which block's receipts were asked for
      have hasking : ∀ o, tables o = tables s.outside → ∀ t : Session σ,
          t.world tables focus = { s with outside := o }.world tables focus →
          ∃ focus', (s.world tables focus).asking call = t.world tables focus' := by
        intro o ho t ht
        refine ⟨((s.world tables focus).asking call).focus, ?_⟩
        simp only [world, World.mk.injEq, ho] at ht
        obtain ⟨hstore, hhead, hcache, _⟩ := ht
        rw [world, world, hstore, hhead, hcache]
        cases call <;> rfl
      have hapart := haround.apart call s.outside
      unfold answer at h
      dsimp only at h
      split at h
      · next reaction o hnode =>
        rw [hnode] at hapart
        cases h
        obtain ⟨focus', hfocus⟩ := hasking o hapart { s with outside := o } rfl
        exact ⟨focus', haround.answers hnode _, hfocus.symm⟩
      · cases h
      · next o hnode =>
        rw [hnode] at hapart
        split at h
        · next t hwait =>
          cases h
          have ht := world_wait tables focus deadline limit { s with outside := o }
          rw [hwait] at ht
          obtain ⟨focus', hfocus⟩ := hasking o hapart s' ht
          exact ⟨focus', haround.silence hnode _ _, hfocus.symm⟩
        · cases h
  | store task =>
      have hstores := haround.stores task s.stamp s.outside
      unfold answer at h
      dsimp only at h
      split at h
      · next a o hstore =>
        rw [hstore] at hstores
        cases h
        refine ⟨focus, ?_⟩
        rcases hstores with ⟨ha, ho⟩ | ⟨_, ⟨e, he⟩, _⟩
        · rw [world_note]
          exact .inl ⟨s.stamp, ha, by rw [world, ho]; rfl⟩
        · cases he
      · next e o hstore =>
        rw [hstore] at hstores
        cases h
        refine ⟨focus, ?_⟩
        rcases hstores with ⟨ha, _⟩ | ⟨hcommit, _, ho⟩
        · cases ha
        · exact .inr ⟨hcommit, ⟨e, rfl⟩, by rw [world, ho]; rfl⟩
  | classify code =>
      cases h
      exact ⟨focus, rfl, rfl⟩
  | sleep d =>
      unfold answer at h
      dsimp only at h
      split at h
      · next t hwait =>
        cases h
        have ht := world_wait tables focus deadline d s
        rw [hwait] at ht
        exact ⟨focus, ht⟩
      · cases h
  | head =>
      cases h
      exact ⟨focus, rfl, rfl⟩
  | setHead head =>
      cases h
      exact ⟨focus, rfl⟩
  | count metric amount =>
      cases h
      exact ⟨focus, rfl⟩
  | now =>
      cases h
      exact ⟨focus, rfl⟩

theorem world_of_cut (haround : around.Obeys tables node) {deadline : Option Duration}
    {q : Request} {s s' : Session σ} {focus : Option Hash}
    (h : answer around deadline q s = (none, s')) :
    s'.world tables focus = s.world tables focus := by
  cases q with
  | node call limit =>
      have hapart := haround.apart call s.outside
      unfold answer at h
      dsimp only at h
      split at h
      · cases h
      · next o hnode =>
        rw [hnode] at hapart
        cases h
        rw [world, hapart]
        rfl
      · next o hnode =>
        rw [hnode] at hapart
        split at h
        · cases h
        · next t hwait =>
          cases h
          have ht := world_wait tables focus deadline limit { s with outside := o }
          rw [hwait] at ht
          rw [ht, world, hapart]
          rfl
  | store task =>
      unfold answer at h
      dsimp only at h
      split at h <;> cases h
  | sleep d =>
      unfold answer at h
      dsimp only at h
      split at h
      · cases h
      · next t hwait =>
        cases h
        have ht := world_wait tables focus deadline d s
        rw [hwait] at ht
        exact ht
  | _ => cases h

/-- What a session makes of a step is a run of the step. -/
theorem runs_of_perform_obeying (haround : around.Obeys tables node) (deadline : Option Duration)
    (step : Step α) (s : Session σ) (focus : Option Hash) :
    ∃ focus', Runs node step (s.world tables focus) (s.perform around deadline step).1
      ((s.perform around deadline step).2.world tables focus') := by
  have hrun : ∃ w', Runs node step (s.world tables focus) (s.perform around deadline step).1 w' ∧
      ∃ focus', w' = (s.perform around deadline step).2.world tables focus' := by
    apply Dialogue.course_of_run (answer around deadline)
      (fun s w => ∃ focus, w = s.world tables focus)
    · rintro q s reply s' _ hanswer ⟨focus, rfl⟩
      obtain ⟨focus', hreply⟩ := replies_of_answer haround focus hanswer
      exact ⟨_, hreply, focus', rfl⟩
    · rintro q s s' _ hanswer ⟨focus, rfl⟩
      exact ⟨focus, (world_of_cut haround hanswer).symm⟩
    · exact ⟨focus, rfl⟩
  obtain ⟨_, hcourse, focus', rfl⟩ := hrun
  exact ⟨focus', hcourse⟩

theorem runs_of_perform (haround : around.Within tables node) (deadline : Option Duration)
    (step : Step α) (s : Session σ) (focus : Option Hash) :
    ∃ focus', Runs node step (s.world tables focus) (s.perform around deadline step).1
      ((s.perform around deadline step).2.world tables focus') :=
  runs_of_perform_obeying haround.obeys deadline step s focus

theorem answer_isSome {q : Request} {s : Session σ}
    (hwaits : ∀ call limit, q = .node call limit → (around.node call s.outside).1 ≠ .interruption) :
    (answer around none q s).1.isSome := by
  cases q with
  | node call limit =>
      have hcall := hwaits call limit rfl
      unfold answer
      dsimp only
      split
      · rfl
      · next hnode =>
        rw [hnode] at hcall
        exact absurd rfl hcall
      · rfl
  | store task =>
      unfold answer
      dsimp only
      split
      · rfl
      · rfl
  | _ => rfl

theorem perform_isSome_of_calls {call : NodeCall} {step : Step α}
    (hstep : Dialogue.Asks (Request.Calls call) step.run)
    (hwaits : ∀ o, (around.node call o).1 ≠ .interruption) (s : Session σ) :
    (s.perform around none step).1.isSome := by
  apply Dialogue.run_isSome_of_asks hstep
  intro q s hq
  apply answer_isSome
  intro other limit hnode
  obtain rfl := hq other limit hnode
  exact hwaits s.outside

theorem perform_isSome (hanswers : ∀ call o, ∃ reply, (around.node call o).1 = .answer reply)
    (step : Step α) (s : Session σ) : (s.perform around none step).1.isSome := by
  apply Dialogue.run_isSome
  intro q s
  apply answer_isSome
  intro call limit _ hinterrupted
  obtain ⟨reply, hreply⟩ := hanswers call s.outside
  cases hreply.symm.trans hinterrupted

end Session

/-! ## Plain blocks -/

def plainBlock (number : Nat) (hash parentHash : Hash) : Block where
  number := number
  hash := hash
  parentHash := parentHash
  timestamp := 0
  miner := ⟨0⟩
  gasUsed := 0
  gasLimit := 0
  baseFee := none
  ommers := []
  transactions := []

/-- What a node answers that serves some blocks without transactions, the last one being its
tip. -/
def plainAnswer (blocks : List Block) : (call : NodeCall) → Except NodeError call.Answer
  | .chainId => .ok 1
  | .latestBlockNumber =>
      match blocks.getLast? with
      | some tip => .ok tip.number
      | none => .error (.notFound "tip")
  | .block (.number number) =>
      match blocks.find? fun b => b.number = number with
      | some b => .ok b
      | none => .error (.notFound "block")
  | .block (.hash hash) =>
      match blocks.find? fun b => b.hash = hash with
      | some b => .ok b
      | none => .error (.notFound "block")
  | .trace _ => .error (.notFound "trace")
  | .receipts _ => .ok []
  | .code _ _ => .ok []

def Surroundings.plain (blocks : List Block) (refuses : Bool) : Surroundings Store where
  node call s := (.answer (plainAnswer blocks call), s)
  store task now s :=
    match task, refuses with
    | .commit _, true => (.error ⟨.conflict, "refused"⟩, s)
    | task, _ => (.ok (s.perform task now).1, (s.perform task now).2)

def plainConduct (blocks : List Block) : Conduct := fun _ call reply =>
  reply = plainAnswer blocks call ∨ ∃ limit, reply = .error (.timeout call.operation limit)

theorem Surroundings.within_plain (blocks : List Block) (refuses : Bool) :
    (Surroundings.plain blocks refuses).Within id (plainConduct blocks) where
  answers h focus := by
    cases h
    exact .inl rfl
  silence _ _ limit := .inr ⟨limit, rfl⟩
  apart _ _ := rfl
  stores task now s := by
    cases task with
    | commit rows =>
        cases refuses with
        | false => exact .inl ⟨rfl, rfl⟩
        | true => exact .inr ⟨trivial, ⟨_, rfl⟩, rfl⟩
    | _ => exact .inl ⟨rfl, rfl⟩

theorem gives_plainConduct {blocks : List Block} {call : NodeCall} {a : call.Answer}
    (h : (plainConduct blocks).Gives call a) : plainAnswer blocks call = .ok a := by
  obtain ⟨_, hreply | ⟨_, hlate⟩⟩ := h
  · exact hreply.symm
  · cases hlate

end ChainIngest.Importer
