import ChainIngest.Proofs.ActiveEntries
import ChainIngest.Proofs.Atomicity
/-!
# Retries within retries

A call of the node is repeated within an attempt at a block, and the attempt as a whole
is repeated.  Calls for receipts that fail are used up first, a full round of retries
costing one attempt; then refused commits cost one attempt each.  So it depends on two
numbers alone whether the block is committed, and after how many attempts and calls.
-/

namespace ChainIngest.Importer

variable {α β : Type} {node : Conduct} {c : Config} {block : Block}

/-! ## Failures to come -/

/-- A state with calls for receipts that are still to fail, commits that are still to be refused,
and a count of the calls for receipts so far. -/
structure Strain where
  world : World
  failures : Nat
  refusals : Nat
  asked : Nat

def Strain.asking (s : Strain) (block : Hash) : Strain :=
  { s with
    world := s.world.asking (.receipts block)
    failures := s.failures - 1
    asked := s.asked + 1 }

/-- A node that is not available for some calls for receipts, and otherwise keeps to a conduct,
beside a store that refuses some commits as conflicts and carries out all else. -/
def Strained (node : Conduct) : Dialogue.Rule Request Request.Reply Strain
  | .node (.receipts block) _, s, reply, s' =>
      (if s.failures = 0 then node (some block) (.receipts block) reply
        else ∃ detail, reply = .error (.unavailable detail)) ∧ s' = s.asking block
  | .store (.commit rows), s, reply, s' =>
      if s.refusals = 0 then
        ∃ now, reply = .ok () ∧ s' = { s with world := s.world.storing (.commit rows) now }
      else (∃ detail, reply = .error ⟨.conflict, detail⟩) ∧ s' = { s with refusals := s.refusals - 1 }
  | q, s, reply, s' => Replies node q s.world reply s'.world ∧ s' = { s with world := s'.world }

variable {s s' : Strain}

/-- A way in which a step can come to a result in such surroundings. -/
def Endures (node : Conduct) (step : Step α) (s : Strain) (r : Except IngestError α) (s' : Strain) :
    Prop :=
  Dialogue.Course (Strained node) step.run s (some r) s'

theorem endures_bind {x : Step α} {f : α → Step β} {r : Except IngestError β}
    (h : Endures node (x >>= f) s r s') :
    (∃ e, r = .error e ∧ Endures node x s (.error e) s') ∨
      ∃ a s₁, Endures node x s (.ok a) s₁ ∧ Endures node (f a) s₁ r s' := by
  rcases course_step_bind_iff.mp h with ⟨hnone, _⟩ | ⟨e, hnone | herror, hx⟩ | hok
  · cases hnone
  · cases hnone
  · exact .inl ⟨e, Option.some.inj herror, hx⟩
  · exact .inr hok

theorem endures_pure {a : α} {r : Except IngestError α} (h : Endures node (pure a) s r s') :
    r = .ok a ∧ s' = s := by
  cases h
  exact ⟨rfl, rfl⟩

theorem endures_throw {e : IngestError} {r : Except IngestError α}
    (h : Endures node (throw e) s r s') : r = .error e ∧ s' = s := by
  cases h
  exact ⟨rfl, rfl⟩

theorem endures_bind_lift {p : Program α} {f : α → Step β} {r : Except IngestError β}
    (h : Endures node (ExceptT.lift p >>= f) s r s') :
    ∃ a s₁, Dialogue.Course (Strained node) p s (some a) s₁ ∧ Endures node (f a) s₁ r s' := by
  have hrun : (ExceptT.lift p : Step α).run = p.bind fun a => .done (.ok a) := rfl
  rcases endures_bind h with ⟨e, _, hp⟩ | ⟨a, s₁, hp, hnext⟩
  · rw [Endures, hrun] at hp
    rcases Dialogue.course_bind_iff.mp hp with ⟨hnone, _⟩ | ⟨_, _, _, hdone⟩
    · cases hnone
    · cases hdone
  · rw [Endures, hrun] at hp
    rcases Dialogue.course_bind_iff.mp hp with ⟨hnone, _⟩ | ⟨_, _, hp, hdone⟩
    · cases hnone
    · cases hdone
      exact ⟨a, s₁, hp, hnext⟩

theorem endures_bind_attempt {x : Step α} {f : Except IngestError α → Step β}
    {r : Except IngestError β} (h : Endures node (Step.attempt x >>= f) s r s') :
    ∃ result s₁, Endures node x s result s₁ ∧ Endures node (f result) s₁ r s' :=
  endures_bind_lift h

/-! ## Undisturbed steps -/

/-- Neither a call for receipts nor a commit. -/
def Request.Calm : Request → Prop
  | .node (.receipts _) _ => False
  | .store (.commit _) => False
  | _ => True

theorem strained_iff_of_calm {q : Request} {reply : q.Reply} (hq : q.Calm) :
    Strained node q s reply s' ↔
      Replies node q s.world reply s'.world ∧ s' = { s with world := s'.world } := by
  cases q with
  | node call limit =>
      cases call with
      | receipts block => exact hq.elim
      | _ => exact Iff.rfl
  | store task =>
      cases task with
      | commit rows => exact hq.elim
      | _ => exact Iff.rfl
  | _ => exact Iff.rfl

theorem eq_of_still {q : Request} {reply : q.Reply} (h : Strained node q s reply s')
    (hq : q.Calm) (hstill : Replies node q s.world reply s'.world → s'.world = s.world) : s' = s := by
  obtain ⟨hreply, hend⟩ := (strained_iff_of_calm hq).mp h
  rw [hend, hstill hreply]

theorem course_of_calm {d : Program α} {out : Option α} (hd : Dialogue.Asks Request.Calm d)
    (h : Dialogue.Course (Strained node) d s out s') :
    Dialogue.Course (Replies node) d s.world out s'.world ∧ s' = { s with world := s'.world } := by
  induction h with
  | done => exact ⟨.done, rfl⟩
  | cut => exact ⟨.cut, rfl⟩
  | ask hreply _ ih =>
      cases hd with
      | ask hq hnext =>
          obtain ⟨hreply, hfirst⟩ := (strained_iff_of_calm hq).mp hreply
          obtain ⟨hcourse, hrest⟩ := ih (hnext _)
          refine ⟨.ask hreply hcourse, ?_⟩
          rw [hrest, hfirst]

/-- What a step does that asks for no receipts and commits nothing, it does without any failure
used up. -/
theorem runs_of_calm {step : Step α} {r : Except IngestError α}
    (hstep : Dialogue.Asks Request.Calm step.run) (h : Endures node step s r s') :
    Runs node step s.world (some r) s'.world ∧ s' = { s with world := s'.world } :=
  course_of_calm hstep h

theorem replies_of_strained {q : Request} {reply : q.Reply} (hfailures : s.failures = 0)
    (hrefusals : s.refusals = 0) (h : Strained node q s reply s') :
    Replies node q s.world reply s'.world ∧ s'.failures = 0 ∧ s'.refusals = 0 := by
  by_cases hq : q.Calm
  · obtain ⟨hreplies, hend⟩ := (strained_iff_of_calm hq).mp h
    exact ⟨hreplies, hend ▸ hfailures, hend ▸ hrefusals⟩
  cases q with
  | node call limit =>
      cases call with
      | receipts block =>
          obtain ⟨hreply, rfl⟩ := h
          rw [if_pos hfailures] at hreply
          have hnone : (s.asking block).failures = 0 := by rw [Strain.asking, hfailures]
          exact ⟨⟨hreply, rfl⟩, hnone, hrefusals⟩
      | _ => exact absurd trivial hq
  | store task =>
      cases task with
      | commit rows =>
          obtain ⟨now, rfl, rfl⟩ := (if_pos hrefusals).mp h
          exact ⟨.inl ⟨now, rfl, rfl⟩, hfailures, hrefusals⟩
      | _ => exact absurd trivial hq
  | _ => exact absurd trivial hq

theorem runs_of_endures {step : Step α} {r : Except IngestError α} (hfailures : s.failures = 0)
    (hrefusals : s.refusals = 0) (h : Endures node step s r s') :
    Runs node step s.world (some r) s'.world := by
  unfold Runs Endures at *
  generalize step.run = d at h ⊢
  generalize some r = out at h ⊢
  induction h with
  | done => exact .done
  | cut => exact .cut
  | ask hreply _ ih =>
      obtain ⟨hreplies, hnone, hnone'⟩ := replies_of_strained hfailures hrefusals hreply
      exact .ask hreplies (ih hnone hnone')

/-! ## Calls for receipts -/

/-- What calls for receipts come to that may be repeated: they are answered when the failures are
used up, or they use up one more than they may be repeated. -/
inductive Fetched (node : Conduct) (block : Hash) (left : Nat) (s : Strain) :
    Except NodeError (List Receipt) → Strain → Prop where
  | answered {receipts : List Receipt} : s.failures ≤ left →
      node (some block) (.receipts block) (.ok receipts) →
      Fetched node block left s (.ok receipts)
        { s with
          world := s.world.asking (.receipts block)
          failures := 0
          asked := s.asked + s.failures + 1 }
  | unanswered {detail : String} : left < s.failures →
      Fetched node block left s (.error (.unavailable detail))
        { s with
          world := s.world.asking (.receipts block)
          failures := s.failures - (left + 1)
          asked := s.asked + (left + 1) }

theorem fetched_at_once {hash : Hash} {left : Nat} {receipts : List Receipt}
    (hnone : s.failures = 0) (hreply : node (some hash) (.receipts hash) (.ok receipts)) :
    Fetched node hash left s (.ok receipts) (s.asking hash) := by
  have hend : s.asking hash = { s with
      world := s.world.asking (.receipts hash)
      failures := 0
      asked := s.asked + s.failures + 1 } := by
    rw [Strain.asking, hnone]
  rw [hend]
  exact .answered (by omega) hreply

theorem Fetched.of_asking {hash : Hash} {left : Nat} {reply : Except NodeError (List Receipt)}
    (hsome : s.failures ≠ 0) (h : Fetched node hash left (s.asking hash) reply s') :
    Fetched node hash (left + 1) s reply s' := by
  have hfailures : (s.asking hash).failures + 1 = s.failures :=
    Nat.succ_pred_eq_of_ne_zero hsome
  have hasked : (s.asking hash).asked = s.asked + 1 := rfl
  have hworld : (s.asking hash).world.asking (.receipts hash) = s.world.asking (.receipts hash) :=
    World.asking_asking s.world (.receipts hash)
  cases h with
  | answered hle hreply =>
      rw [hworld, show (s.asking hash).asked + (s.asking hash).failures + 1 =
        s.asked + s.failures + 1 by omega]
      exact .answered (by omega) hreply
  | unanswered hlt =>
      rw [hworld, show (s.asking hash).failures - (left + 1) = s.failures - (left + 1 + 1) by omega,
        show (s.asking hash).asked + (left + 1) = s.asked + (left + 1 + 1) by omega]
      exact .unanswered (by omega)

def Conduct.Serves (node : Conduct) (block : Hash) : Prop :=
  ∀ focus reply, node focus (.receipts block) reply → ∃ receipts, reply = .ok receipts

theorem strained_receipts {hash : Hash} {limit : Duration} {reply : Except NodeError (List Receipt)}
    (hserves : node.Serves hash) (h : Strained node (.node (.receipts hash) limit) s reply s') :
    s' = s.asking hash ∧
      ((s.failures = 0 ∧ ∃ receipts, reply = .ok receipts ∧
          node (some hash) (.receipts hash) (.ok receipts)) ∨
        (s.failures ≠ 0 ∧ ∃ detail, reply = .error (.unavailable detail))) := by
  obtain ⟨hreply, hend⟩ := h
  refine ⟨hend, ?_⟩
  split at hreply
  · next hnone =>
    obtain ⟨receipts, rfl⟩ := hserves _ _ hreply
    exact .inl ⟨hnone, receipts, rfl, hreply⟩
  · next hsome => exact .inr ⟨hsome, hreply⟩

theorem fetched_of_callWith {hash : Hash} {left : Nat} {reply : Except NodeError (List Receipt)}
    (hserves : node.Serves hash)
    (h : Dialogue.Course (Strained node) (callWith c (.receipts hash) left) s (some reply) s') :
    Fetched node hash left s reply s' := by
  induction left generalizing s with
  | zero =>
      cases h with
      | ask hcall hdone =>
          cases hdone
          obtain ⟨rfl, ⟨hnone, _, rfl, hreply⟩ | ⟨hsome, _, rfl⟩⟩ := strained_receipts hserves hcall
          · exact fetched_at_once hnone hreply
          · exact .unanswered (Nat.pos_of_ne_zero hsome)
  | succ left ih =>
      cases h with
      | ask hcall hnext =>
          obtain ⟨rfl, ⟨hnone, _, rfl, hreply⟩ | ⟨hsome, _, rfl⟩⟩ := strained_receipts hserves hcall
          · cases hnext
            exact fetched_at_once hnone hreply
          · -- the count and the pause change nothing; then one retry fewer is left
            cases hnext with
            | ask hcount hpause =>
                cases hpause with
                | ask hsleep hretry =>
                    obtain rfl := eq_of_still hcount trivial id
                    obtain rfl := eq_of_still hsleep trivial id
                    exact (ih hretry).of_asking hsome

theorem fetched_of_callNode {hash : Hash} {r : Except IngestError (List Receipt)}
    (hserves : node.Serves hash) (h : Endures node (callNode c (.receipts hash)) s r s') :
    ∃ reply, Fetched node hash c.nodeRetries s reply s' ∧ r = reply.mapError .node := by
  obtain ⟨reply, s₁, hcall, hnext⟩ := endures_bind_lift h
  have hfetched := fetched_of_callWith hserves hcall
  cases reply with
  | ok receipts =>
      obtain ⟨rfl, rfl⟩ := endures_pure hnext
      exact ⟨_, hfetched, rfl⟩
  | error e =>
      obtain ⟨rfl, rfl⟩ := endures_throw hnext
      exact ⟨_, hfetched, rfl⟩

/-! ## Working out rows -/

theorem calm_of_probes {α : Type} {step : Step α} (h : Dialogue.Asks Request.Probes step.run) :
    Dialogue.Asks Request.Calm step.run := by
  refine h.mono fun q hq => ?_
  unfold Request.Probes at hq
  split at hq
  all_goals trivial

theorem normalize_eq (c : Config) (block : Block) (entry : ImportEntry) :
    ∃ rest : List Receipt → Step BlockRows,
      normalize c block entry = (callNode c (.receipts block.hash) >>= rest) ∧
      ∀ fetched, Dialogue.Asks Request.Calm (rest fetched).run := by
  refine ⟨_, rfl, fun fetched => ?_⟩
  refine asks_bind .done fun aligned => ?_
  refine asks_bind (calm_of_probes (probes_fetchTraces c _)) fun traces => ?_
  refine asks_bind .done fun extracted => ?_
  refine asks_bind (calm_of_probes (probes_classifyCreated c _ _ _)) fun created => ?_
  refine asks_bind (calm_of_probes (probes_classifyEmitters c _ _ _)) fun classified => ?_
  exact asks_bind .done fun _ => asks_bind (asks_request trivial) fun now =>
    asks_bind .done fun committed => .done

theorem runs_callNode_at_once {w : World} {call : NodeCall} {a : call.Answer}
    (h : node (w.asking call).focus call (.ok a)) :
    Runs node (callNode c call) w (some (.ok a)) (w.asking call) := by
  have hcall : ∀ left, Dialogue.Course (Replies node) (callWith c call left) w
      (some (.ok a)) (w.asking call) := by
    intro left
    cases left with
    | zero => exact .ask ⟨h, rfl⟩ .done
    | succ left => exact .ask ⟨h, rfl⟩ .done
  have hlift : Runs node (ExceptT.lift (callWith c call c.nodeRetries)) w (some (.ok (.ok a)))
      (w.asking call) :=
    Dialogue.course_bind_iff.mpr (.inr ⟨_, _, hcall _, .done⟩)
  exact hlift.bind .done

/-- Rows are worked out as if nothing had failed, unless the failures last longer than the
retries. -/
theorem endures_normalize {entry : ImportEntry} {r : Except IngestError BlockRows}
    (hserves : node.Serves block.hash) (h : Endures node (normalize c block entry) s r s') :
    (s.failures ≤ c.nodeRetries ∧ Runs node (normalize c block entry) s.world (some r) s'.world ∧
        s' = { s with world := s'.world, failures := 0, asked := s.asked + s.failures + 1 }) ∨
      (c.nodeRetries < s.failures ∧ (∃ detail, r = .error (.node (.unavailable detail))) ∧
        s' = { s with
          world := s.world.asking (.receipts block.hash)
          failures := s.failures - (c.nodeRetries + 1)
          asked := s.asked + (c.nodeRetries + 1) }) := by
  obtain ⟨rest, hrest, hcalm⟩ := normalize_eq c block entry
  rw [hrest] at h ⊢
  rcases endures_bind h with ⟨e, rfl, hfailed⟩ | ⟨receipts, s₁, hcall, hnext⟩
  · obtain ⟨reply, hfetched, hreply⟩ := fetched_of_callNode hserves hfailed
    cases hfetched with
    | answered => cases hreply
    | unanswered hlt =>
        cases hreply
        exact .inr ⟨hlt, ⟨_, rfl⟩, rfl⟩
  · obtain ⟨reply, hfetched, hreply⟩ := fetched_of_callNode hserves hcall
    cases hfetched with
    | unanswered => cases hreply
    | answered hle hserved =>
        cases hreply
        obtain ⟨hruns, hend⟩ := runs_of_calm (hcalm receipts) hnext
        exact .inl ⟨hle, (runs_callNode_at_once hserved).bind hruns, hend⟩

/-- Whether the rows of a block can be worked out while its import is in progress. -/
def Normalizes (node : Conduct) (c : Config) (block : Block) (base : Store) : Prop :=
  ∀ entry w r w', entry.id = block.id → entry.status = .inProgress →
    w.store = base.recordStatus entry → Runs node (normalize c block entry) w (some r) w' →
    ∃ rows, r = .ok rows

/-! ## Attempts -/

structure Stands (block : Block) (base : Store) (status : ImportStatus) (attempts : Nat)
    (entry : ImportEntry) (w : World) : Prop where
  id : entry.id = block.id
  status : entry.status = status
  attempts : entry.attempts = attempts
  store : w.store = base.recordStatus entry

/-- The attempts that are going to fail. -/
def Strain.doomed (s : Strain) (c : Config) : Nat := s.failures / (c.nodeRetries + 1) + s.refusals

/-- The calls for receipts by the time the failures are used up. -/
def Strain.calls (s : Strain) : Nat := s.asked + s.failures + s.refusals

inductive Attempted (node : Conduct) (c : Config) (block : Block) (entry : ImportEntry)
    (s : Strain) : Except IngestError Unit → Strain → Prop where
  | failed {e : IngestError} {s' : Strain} : e.isTransient = true →
      s'.doomed c + 1 = s.doomed c → s'.calls = s.calls → s'.world.store = s.world.store →
      Attempted node c block entry s (.error e) s'
  | committed {rows : BlockRows} {s' : Strain} {w : World} : s.doomed c = 0 →
      s'.asked = s.calls + 1 →
      Runs node (normalize c block entry) s.world (some (.ok rows)) w →
      s'.world.store = s.world.store.commit rows → Attempted node c block entry s (.ok ()) s'

theorem endures_commit {rows : BlockRows} {r : Except IngestError Unit}
    (h : Endures node (Step.store (.commit rows)) s r s') :
    (s.refusals = 0 ∧ r = .ok () ∧
        ∃ now, s' = { s with world := s.world.storing (.commit rows) now }) ∨
      (s.refusals ≠ 0 ∧ (∃ detail, r = .error (.store ⟨.conflict, detail⟩)) ∧
        s' = { s with refusals := s.refusals - 1 }) := by
  obtain ⟨reply, s₁, hreply, hnext⟩ := endures_bind_lift h
  rcases Dialogue.course_request_iff.mp hreply with ⟨hnone, _⟩ | ⟨reply', hreply, hout⟩
  · cases hnone
  obtain rfl : reply = reply' := by simpa using hout
  unfold Strained at hreply
  dsimp only at hreply
  split at hreply
  · next hnone =>
    obtain ⟨now, rfl, rfl⟩ := hreply
    obtain ⟨rfl, rfl⟩ := endures_pure hnext
    exact .inl ⟨hnone, rfl, now, rfl⟩
  · next hsome =>
    obtain ⟨⟨detail, rfl⟩, rfl⟩ := hreply
    obtain ⟨rfl, rfl⟩ := endures_throw hnext
    exact .inr ⟨hsome, ⟨detail, rfl⟩, rfl⟩

theorem attempted_of_commitBlock {entry : ImportEntry} {base : Store} {attempts : Nat}
    {r : Except IngestError Unit} (hserves : node.Serves block.hash)
    (hnormalizes : Normalizes node c block base)
    (hentry : Stands block base .inProgress attempts entry s.world)
    (h : Endures node (commitBlock c block entry) s r s') :
    Attempted node c block entry s r s' := by
  unfold commitBlock at h
  rcases endures_bind h with ⟨e, rfl, hfailed⟩ | ⟨rows, s₁, hrows, hcommit⟩
  · rcases endures_normalize hserves hfailed with ⟨_, hruns, _⟩ | ⟨hlt, ⟨detail, hdetail⟩, rfl⟩
    · obtain ⟨_, hok⟩ := hnormalizes _ _ _ _ hentry.id hentry.status hentry.store hruns
      cases hok
    · cases hdetail
      -- a full round of retries is one attempt
      have hround : (s.failures - (c.nodeRetries + 1)) / (c.nodeRetries + 1) + 1 =
          s.failures / (c.nodeRetries + 1) := by
        rw [← Nat.add_div_right _ (Nat.succ_pos _), Nat.sub_add_cancel hlt]
      refine .failed rfl ?_ ?_ (World.asking_store _ _)
      · simp only [Strain.doomed]
        omega
      · simp only [Strain.calls]
        omega
  · rcases endures_normalize hserves hrows with ⟨hle, hruns, hend⟩ | ⟨_, ⟨_, herror⟩, _⟩
    · have hnone : s.failures / (c.nodeRetries + 1) = 0 := Nat.div_eq_of_lt (by omega)
      have hsame : s₁.world.store = s.world.store := (quiet_normalize c block entry _ _ _ hruns).1
      generalize s₁.world = w at hend hruns hsame
      subst hend
      rcases endures_commit hcommit with ⟨hrefusals, rfl, now, rfl⟩ | ⟨hrefusals, ⟨_, rfl⟩, rfl⟩
      · have hrefusals : s.refusals = 0 := hrefusals
        refine .committed ?_ ?_ hruns (congrArg (Store.commit · rows) hsame)
        · simp only [Strain.doomed]
          omega
        · simp only [Strain.calls]
          omega
      · have hrefusals : s.refusals ≠ 0 := hrefusals
        refine .failed rfl ?_ ?_ hsame
        · simp only [Strain.doomed, Nat.zero_div]
          omega
        · simp only [Strain.calls]
          omega
    · cases herror

/-! ## Moves -/

theorem calm_move (entry : ImportEntry) (next : ImportStatus) (error : Option String) :
    Dialogue.Asks Request.Calm (move entry next error).run :=
  asks_bind (asks_request trivial) fun _ => asks_bind .done fun _ =>
    asks_bind (asks_store trivial) fun _ => .done

theorem attempts_of_move {w w' : World} {entry e : ImportEntry} {next : ImportStatus}
    {error : Option String} (h : Runs node (move entry next error) w (some (.ok e)) w') :
    e.attempts = attemptsAfter entry next := by
  unfold move at h
  obtain ⟨now, w₁, _, h₁⟩ := runs_bind_ok h
  obtain ⟨moved, w₂, hadvance, h₂⟩ := runs_bind_ok h₁
  obtain ⟨_, w₃, _, h₃⟩ := runs_bind_ok h₂
  obtain ⟨rfl, _⟩ := of_runs_pure h₃
  exact attempts_of_advance (ok_of_ofExcept hadvance)

theorem endures_bind_move {entry : ImportEntry} {next : ImportStatus} {error : Option String}
    {f : ImportEntry → Step α} {r : Except IngestError α}
    (hlegal : entry.status.canBecome next = true)
    (h : Endures node (move entry next error >>= f) s r s') :
    ∃ e w, Moved entry next s.world e w ∧ e.attempts = attemptsAfter entry next ∧
      Endures node (f e) { s with world := w } r s' := by
  rcases endures_bind h with ⟨e, _, hmove⟩ | ⟨e, s₁, hmove, hnext⟩
  · obtain ⟨hruns, _⟩ := runs_of_calm (calm_move entry next error) hmove
    exact absurd hruns (not_runs_move_error hlegal)
  · obtain ⟨hruns, hend⟩ := runs_of_calm (calm_move entry next error) hmove
    have hattempts := attempts_of_move hruns
    rw [← bind_pure (move entry next error)] at hruns
    obtain ⟨_, w, hmoved, hpure⟩ := runs_bind_legal_move hlegal hruns
    obtain ⟨rfl, hw⟩ := of_runs_pure hpure
    rw [hend, hw] at hnext
    exact ⟨e, w, hmoved, hattempts, hnext⟩

theorem Stands.move {base : Store} {status next : ImportStatus} {attempts : Nat}
    {entry e : ImportEntry} {w w' : World} (h : Stands block base status attempts entry w)
    (hmoved : Moved entry next w e w') (hattempts : e.attempts = attemptsAfter entry next) :
    Stands block base next (attemptsAfter entry next) e w' where
  id := hmoved.id.trans h.id
  status := hmoved.status
  attempts := hattempts
  store := hmoved.after h.store

theorem endures_bind_still {q : Request} {f : q.Reply → Step α} {r : Except IngestError α}
    (h : Endures node (Step.request q >>= f) s r s') (hq : q.Calm)
    (hstill : ∀ {w reply w'}, Replies node q w reply w' → w' = w) :
    ∃ reply, Endures node (f reply) s r s' := by
  obtain ⟨reply, s₁, hreply, hnext⟩ := endures_bind_lift h
  rcases Dialogue.course_request_iff.mp hreply with ⟨hnone, _⟩ | ⟨reply', hreply, _⟩
  · cases hnone
  · obtain rfl := eq_of_still hreply hq hstill
    exact ⟨reply, hnext⟩

/-! ## All attempts at a block -/

/-- How the attempts at a block end of which `left` are permitted after the next one, `before`
having been made. -/
inductive Settled (node : Conduct) (c : Config) (block : Block) (base : Store) (left before : Nat)
    (s : Strain) : Except IngestError Outcome → Strain → Prop where
  | committed {entry : ImportEntry} {rows : BlockRows} {w w' : World} {s' : Strain} :
      s.doomed c ≤ left → s'.asked = s.calls + 1 → entry.id = block.id →
      entry.attempts = before + s.doomed c + 1 →
      Runs node (normalize c block entry) w (some (.ok rows)) w' →
      s'.world.store = (base.recordStatus entry).commit rows →
      Settled node c block base left before s (.ok (.committed block.id)) s'
  | exhausted {failed : ImportEntry} {cause : IngestError} {s' : Strain} : left < s.doomed c →
      failed.id = block.id → failed.status = .failed → failed.attempts = before + left + 1 →
      s'.world.store = base.recordStatus failed →
      Settled node c block base left before s (.error (.fatal block.id failed.attempts cause)) s'

theorem Settled.of_failure {s₁ : Strain} {base : Store} {left before : Nat}
    {r : Except IngestError Outcome} (h : Settled node c block base left (before + 1) s₁ r s')
    (hdoomed : s₁.doomed c + 1 = s.doomed c) (hcalls : s₁.calls = s.calls) :
    Settled node c block base (left + 1) before s r s' := by
  cases h with
  | committed hleft hasked hid hattempts hruns hstore =>
      exact .committed (by omega) (by omega) hid (by omega) hruns hstore
  | exhausted hleft hid hstatus hattempts hstore =>
      exact .exhausted (by omega) hid hstatus (by omega) hstore

/-- One attempt settles the block, or it fails and is followed by a retry. -/
theorem settled_of_attempt {base : Store} {left before : Nat} {pending : ImportEntry}
    {r : Except IngestError Outcome} (hserves : node.Serves block.hash)
    (hnormalizes : Normalizes node c block base)
    (hpending : Stands block base .pending before pending s.world)
    (h : Endures node (attemptBlock c block left pending) s r s') :
    Settled node c block base left before s r s' ∨
      ∃ e failed s₁, e.isTransient = true ∧ s₁.doomed c + 1 = s.doomed c ∧ s₁.calls = s.calls ∧
        Stands block base .failed (before + 1) failed s₁.world ∧
        Endures node (retry c block left failed e) s₁ r s' := by
  unfold attemptBlock at h
  obtain ⟨entry, w, hmoved, hattempts, h₁⟩ := endures_bind_move (by rw [hpending.status]; rfl) h
  have hentry : Stands block base .inProgress (before + 1) entry w :=
    hpending.attempts ▸ hpending.move hmoved hattempts
  obtain ⟨result, s₂, hattempt, h₂⟩ := endures_bind_attempt h₁
  cases attempted_of_commitBlock hserves hnormalizes hentry hattempt with
  | committed hdoomed hasked hruns hstore =>
      obtain ⟨_, h₃⟩ := endures_bind_still h₂ trivial id
      obtain ⟨rfl, rfl⟩ := endures_pure h₃
      have hdoomed : s.doomed c = 0 := hdoomed
      refine .inl (.committed (by omega) hasked hentry.id ?_ hruns ?_)
      · rw [hentry.attempts, hdoomed]
      · rw [hstore, hentry.store]
  | @failed e _ htransient hdoomed hcalls hsame =>
      obtain ⟨failed, w₃, hmoved₃, hattempts₃, h₃⟩ :=
        endures_bind_move (by rw [hentry.status]; rfl) h₂
      have hentry₂ : Stands block base .inProgress (before + 1) entry s₂.world :=
        { hentry with store := hsame.trans hentry.store }
      have hfailed : Stands block base .failed (before + 1) failed w₃ :=
        hentry₂.attempts ▸ hentry₂.move hmoved₃ hattempts₃
      exact .inr ⟨e, failed, { s₂ with world := w₃ }, htransient, hdoomed, hcalls, hfailed, h₃⟩

theorem Settled.of_world {base : Store} {left before : Nat} {w : World}
    {r : Except IngestError Outcome}
    (h : Settled node c block base left before { s with world := w } r s') :
    Settled node c block base left before s r s' := by
  cases h with
  | committed hleft hasked hid hattempts hruns hstore =>
      exact .committed hleft hasked hid hattempts hruns hstore
  | exhausted hleft hid hstatus hattempts hstore =>
      exact .exhausted hleft hid hstatus hattempts hstore

theorem settled_of_attemptBlock {base : Store} {left before : Nat} {pending : ImportEntry}
    {r : Except IngestError Outcome} (hserves : node.Serves block.hash)
    (hnormalizes : Normalizes node c block base)
    (hpending : Stands block base .pending before pending s.world)
    (h : Endures node (attemptBlock c block left pending) s r s') :
    Settled node c block base left before s r s' := by
  induction left generalizing before pending s with
  | zero =>
      rcases settled_of_attempt hserves hnormalizes hpending h with
        hsettled | ⟨e, failed, s₁, _, hdoomed, _, hfailed, hretry⟩
      · exact hsettled
      · obtain ⟨rfl, rfl⟩ := endures_throw hretry
        exact .exhausted (by omega) hfailed.id hfailed.status hfailed.attempts hfailed.store
  | succ left ih =>
      rcases settled_of_attempt hserves hnormalizes hpending h with
        hsettled | ⟨e, failed, s₁, htransient, hdoomed, hcalls, hfailed, hretry⟩
      · exact hsettled
      · unfold retry at hretry
        dsimp only at hretry
        rw [if_pos htransient] at hretry
        obtain ⟨_, hretry⟩ := endures_bind_still hretry trivial id
        obtain ⟨_, hretry⟩ := endures_bind_still hretry trivial id
        obtain ⟨again, w, hmoved, hattempts, hagain⟩ :=
          endures_bind_move (by rw [hfailed.status]; rfl) hretry
        have hpending' : Stands block base .pending (before + 1) again w :=
          hfailed.attempts ▸ hfailed.move hmoved hattempts
        exact (ih hpending' hagain).of_world.of_failure hdoomed hcalls

/-! ## Blocks without transactions -/

theorem normalizes_of_empty {base : Store} (hempty : block.transactions = [])
    (hreceipts : ∀ focus reply, node focus (.receipts block.hash) reply → reply = .ok [])
    (hsheet : (Balance.compute ⟨block, [], [], [], []⟩ c.schedule).verify = .ok ()) :
    Normalizes node c block base := by
  intro entry w r w' _ hstatus _ h
  unfold normalize at h
  rcases runs_bind_iff.mp h with ⟨hnone, _⟩ | ⟨e, _, hfailed⟩ | ⟨fetched, w₁, hcall, h₁⟩
  · cases hnone
  · obtain ⟨log, htells⟩ := Dialogue.course_iff_transcript.mp hfailed
    obtain ⟨_, _, ⟨_, hok, _⟩ | ⟨_, _, _, hreply⟩⟩ := tells_callNode htells
    · cases hok
    · cases hreceipts _ _ hreply
  · obtain ⟨_, hgiven⟩ := gives_of_callNode hcall
    obtain rfl : fetched = [] := Except.ok.inj (hreceipts _ _ hgiven)
    have haligned : (alignReceipts block []).mapError IngestError.node = .ok [] := by
      simp only [alignReceipts, hempty]
      rfl
    have h₂ := runs_bind_ofExcept_ok h₁ haligned
    rw [hempty] at h₂
    -- without transactions there is nothing to ask, to read or to classify
    have h₃ : Runs node (do
        let sheet := Balance.compute ⟨block, [], [], [], []⟩ c.schedule
        Step.ofExcept sheet.verify
        let now ← Step.request .now
        let committed ← Step.ofExcept (advance entry .committed none now)
        return assemble c ⟨block, [], [], [], []⟩ sheet [] (interpretAll [] fun _ => none) committed
          now)
        w₁ (some r) w' := h₂
    have h₄ := runs_bind_ofExcept_ok h₃ hsheet
    rcases runs_bind_request h₄ with ⟨hnone, _⟩ | ⟨now, w₂, _, h₅⟩
    · cases hnone
    have h₆ := runs_bind_ofExcept_ok h₅ (if_pos (by rw [hstatus]; rfl))
    obtain ⟨hnone | hok, _⟩ := runs_pure_iff.mp h₆
    · cases hnone
    · exact ⟨_, Option.some.inj hok⟩

/-! ## A block that was not imported yet -/

theorem calm_store {task : StoreTask} (h : ¬ task.IsCommit) : Request.Calm (.store task) := by
  cases task with
  | commit rows => exact h trivial
  | _ => trivial

theorem endures_bind_store {task : StoreTask} {f : task.Answer → Step α} {r : Except IngestError α}
    (htask : ¬ task.IsCommit) (h : Endures node (Step.store task >>= f) s r s') :
    ∃ now, Endures node (f (s.world.store.perform task now).1)
      { s with world := s.world.storing task now } r s' := by
  rcases endures_bind h with ⟨e, _, hstore⟩ | ⟨a, s₁, hstore, hnext⟩
  · obtain ⟨hruns, _⟩ := runs_of_calm (asks_store (calm_store htask)) hstore
    exact absurd hruns (not_runs_store_error htask)
  · obtain ⟨hruns, hend⟩ := runs_of_calm (asks_store (calm_store htask)) hstore
    rcases runs_store hruns with ⟨hout, _⟩ | ⟨now, hw, hout⟩
    · exact absurd hout (not_unfinished_ok _)
    · obtain rfl : a = _ := by simpa using hout
      rw [hend, hw] at hnext
      exact ⟨now, hnext⟩

def NotImported (block : Block) (s : Store) : Prop :=
  ∀ e, s.importStatus? block.number = some e → e.hash = block.hash → e.canonical = true →
    e.status ≠ .committed

theorem settled_of_processBlock {r : Except IngestError Outcome}
    (hserves : node.Serves block.hash) (hnormalizes : Normalizes node c block s.world.store)
    (hnew : NotImported block s.world.store) (h : Endures node (processBlock c block) s r s') :
    Settled node c block s.world.store (c.maxAttempts - 1) 0 s r s' := by
  unfold processBlock at h
  obtain ⟨_, h₁⟩ := endures_bind_store (by simp [StoreTask.IsCommit]) h
  split at h₁
  · next hcommitted =>
    obtain ⟨e, he, htest⟩ := Option.any_eq_true _ _ |>.mp hcommitted
    simp only [Bool.and_eq_true, decide_eq_true_eq] at htest
    exact absurd htest.2 (hnew e he htest.1.1 htest.1.2)
  · obtain ⟨_, h₂⟩ := endures_bind_still h₁ trivial id
    obtain ⟨now, h₃⟩ := endures_bind_still h₂ trivial id
    obtain ⟨stamp, h₄⟩ := endures_bind_store (by simp [StoreTask.IsCommit]) h₃
    exact (settled_of_attemptBlock hserves hnormalizes ⟨rfl, rfl, rfl, rfl⟩ h₄).of_world

theorem exists_endures (hresponds : node.Responds) (step : Step α) (s : Strain) :
    ∃ r s', Endures node step s r s' := by
  apply Dialogue.exists_course
  intro q s
  have hcalm : q.Calm → ∃ reply s', Strained node q s reply s' := by
    intro hq
    obtain ⟨reply, w, hreply⟩ := exists_reply hresponds q s.world
    exact ⟨reply, { s with world := w }, (strained_iff_of_calm hq).mpr ⟨hreply, rfl⟩⟩
  cases q with
  | node call limit =>
      cases call with
      | receipts block =>
          by_cases hnone : s.failures = 0
          · obtain ⟨reply, hreply⟩ := hresponds (some block) (.receipts block)
            exact ⟨reply, s.asking block, (if_pos hnone).mpr hreply, rfl⟩
          · exact ⟨.error (.unavailable ""), s.asking block, (if_neg hnone).mpr ⟨"", rfl⟩, rfl⟩
      | _ => exact hcalm trivial
  | store task =>
      cases task with
      | commit rows =>
          by_cases hnone : s.refusals = 0
          · exact ⟨.ok (), _, (if_pos hnone).mpr ⟨0, rfl, rfl⟩⟩
          · exact ⟨.error ⟨.conflict, ""⟩, _, (if_neg hnone).mpr ⟨⟨"", rfl⟩, rfl⟩⟩
      | _ => exact hcalm trivial
  | _ => exact hcalm trivial

theorem stored_of_settled {base : Store} {entry : ImportEntry} {rows : BlockRows} {w w' : World}
    (hid : entry.id = block.id)
    (hruns : Runs node (normalize c block entry) w (some (.ok rows)) w') :
    ((base.recordStatus entry).commit rows).blocks.get? block.hash = some ⟨block, true⟩ ∧
      ∃ e, ((base.recordStatus entry).commit rows).queue.get? (block.number, block.hash) = some e ∧
        e.status = .committed ∧ e.attempts = entry.attempts := by
  have hattempts := (derived_of_normalize hruns).attempts
  obtain ⟨rfl, hrow, _, hstatus, _⟩ := (derived_of_normalize hruns).marks
  refine ⟨get?_blocks_commit_self _ rows, rows.entry, ?_, hstatus, hattempts⟩
  have hkey : (rows.entry.number, rows.entry.hash) = (rows.block.number, rows.block.hash) :=
    congrArg (fun id : BlockId => (id.number, id.hash)) (hrow.trans hid)
  rw [Store.commit, hkey]
  exact Store.Table.get?_insert_self _ _ _

/-- A node that is not available for the next `k` calls for receipts, beside a store that refuses
the next `n` commits: of a block that was not imported yet, and whose rows can be worked out, as
many attempts fail as `k` has full rounds of retries, and `n` more.  If that is fewer than are
permitted, the block is committed by the next one; else the step ends with the last permitted one,
and nothing is written but the block's import row. -/
theorem nested_retries {w : World} (k n : Nat) (hresponds : node.Responds)
    (hserves : node.Serves block.hash) (hnormalizes : Normalizes node c block w.store)
    (hnew : NotImported block w.store) :
    (∃ r s', Endures node (processBlock c block) ⟨w, k, n, 0⟩ r s') ∧
    ∀ r s', Endures node (processBlock c block) ⟨w, k, n, 0⟩ r s' →
      (r = .ok (.committed block.id) ↔ k / (c.nodeRetries + 1) + n < max 1 c.maxAttempts) ∧
      (k / (c.nodeRetries + 1) + n < max 1 c.maxAttempts →
        s'.asked = k + n + 1 ∧
        s'.world.store.blocks.get? block.hash = some ⟨block, true⟩ ∧
        ∃ e, s'.world.store.queue.get? (block.number, block.hash) = some e ∧
          e.status = .committed ∧ e.attempts = k / (c.nodeRetries + 1) + n + 1) ∧
      (max 1 c.maxAttempts ≤ k / (c.nodeRetries + 1) + n → ∃ cause failed,
        r = .error (.fatal block.id (max 1 c.maxAttempts) cause) ∧
        failed.id = block.id ∧ failed.status = .failed ∧ failed.attempts = max 1 c.maxAttempts ∧
        s'.world.store = w.store.recordStatus failed) := by
  refine ⟨exists_endures hresponds _ _, fun r s' h => ?_⟩
  have hdoomed : (⟨w, k, n, 0⟩ : Strain).doomed c = k / (c.nodeRetries + 1) + n := rfl
  have hcalls : (⟨w, k, n, 0⟩ : Strain).calls = k + n := by
    simp only [Strain.calls]
    omega
  generalize k / (c.nodeRetries + 1) + n = doomed at hdoomed ⊢
  cases settled_of_processBlock hserves hnormalizes hnew h with
  | committed hleft hasked hid hattempts hruns hstore =>
      have hlt : doomed < max 1 c.maxAttempts := by omega
      obtain ⟨hblock, e, hentry, hstatus, he⟩ := stored_of_settled hid hruns
      rw [← hstore] at hblock hentry
      refine ⟨iff_of_true rfl hlt, fun _ => ⟨?_, hblock, e, hentry, hstatus, ?_⟩, fun hge => ?_⟩
      · rw [hasked, hcalls]
      · omega
      · omega
  | @exhausted failed cause _ hleft hid hstatus hattempts hstore =>
      have hge : max 1 c.maxAttempts ≤ doomed := by omega
      have hlast : failed.attempts = max 1 c.maxAttempts := by omega
      refine ⟨iff_of_false (fun hok => nomatch hok) (by omega), fun hlt => by omega, fun _ => ?_⟩
      rw [hlast]
      exact ⟨cause, failed, rfl, hid, hstatus, hlast, hstore⟩

/-! Three attempts at an empty block, each with one retry of a call. -/

def threeAttempts : Config := { Config.standard with maxAttempts := 3, nodeRetries := 1 }

def promptConduct (blocks : List Block) : Conduct := fun _ call reply =>
  reply = plainAnswer blocks call

theorem responds_prompt (blocks : List Block) : (promptConduct blocks).Responds :=
  fun _ _ => ⟨_, rfl⟩

theorem serves_prompt (blocks : List Block) (block : Hash) :
    (promptConduct blocks).Serves block := by
  rintro _ _ rfl
  exact ⟨[], rfl⟩

def promptNode : Conduct := promptConduct [bottomBlock]

/-- Three failed calls cost one attempt, and one call of the next; with one refused commit the third
attempt succeeds, with two it does not. -/
theorem nested_retries_three_attempts :
    (∃ s', Endures promptNode (processBlock threeAttempts bottomBlock)
      ⟨.fresh threeAttempts, 3, 1, 0⟩ (.ok (.committed bottomBlock.id)) s' ∧ s'.asked = 5 ∧
      ∃ e, s'.world.store.queue.get? (0, ⟨1⟩) = some e ∧ e.status = .committed ∧ e.attempts = 3) ∧
    ∃ cause failed s', Endures promptNode (processBlock threeAttempts bottomBlock)
      ⟨.fresh threeAttempts, 3, 2, 0⟩ (.error (.fatal bottomBlock.id 3 cause)) s' ∧
      failed.status = .failed ∧ s'.world.store = Store.empty.recordStatus failed := by
  have hresponds : promptNode.Responds := responds_prompt _
  have hserves : promptNode.Serves bottomBlock.hash := serves_prompt _ _
  have hnormalizes : Normalizes promptNode threeAttempts bottomBlock .empty :=
    normalizes_of_empty rfl (fun _ _ hreply => hreply) (by decide +kernel)
  have hnew : NotImported bottomBlock .empty := fun _ hnone => nomatch hnone
  constructor
  · obtain ⟨⟨r, s', h⟩, hends⟩ := nested_retries (w := .fresh threeAttempts) 3 1 hresponds hserves
      hnormalizes hnew
    obtain ⟨hiff, hcommitted, _⟩ := hends r s' h
    obtain rfl := hiff.mpr (by decide)
    obtain ⟨hasked, _, hentry⟩ := hcommitted (by decide)
    exact ⟨s', h, hasked, hentry⟩
  · obtain ⟨⟨r, s', h⟩, hends⟩ := nested_retries (w := .fresh threeAttempts) 3 2 hresponds hserves
      hnormalizes hnew
    obtain ⟨_, _, hexhausted⟩ := hends r s' h
    obtain ⟨cause, failed, rfl, _, hstatus, _, hstore⟩ := hexhausted (by decide)
    exact ⟨cause, failed, s', h, hstatus, hstore⟩

end ChainIngest.Importer
