import ChainIngest.Importer.Import
import ChainIngest.Importer.Memory
import ChainIngest.Proofs.Courses
/-!
# Importers at large

An importer over the in-memory store, with everything left open that is not in
its hands: what the node answers, and when it changes its mind; which commits
the store refuses; what the clock says; where a step is broken off.  A conduct
tells which answers of the node are possible at all.
-/

namespace ChainIngest.Importer

/-! ## States -/

/-- What an importer's requests can read or change. -/
structure World where
  store : Store
  head : Option BlockId
  cache : Capability.Cache
  /-- The block whose receipts the node was last asked for. -/
  focus : Option Hash

namespace World

def asking (w : World) : NodeCall → World
  | .receipts block => { w with focus := some block }
  | _ => w

def storing (w : World) (task : StoreTask) (now : Int) : World :=
  { w with store := (w.store.perform task now).2 }

def renewed (w : World) (c : Config) : World :=
  { w with head := none, cache := .new c.cacheCapacity }

def fresh (c : Config) : World := ⟨.empty, none, .new c.cacheCapacity, none⟩

def Same (w w' : World) : Prop := w'.store = w.store ∧ w'.head = w.head

theorem Same.refl (w : World) : Same w w := ⟨rfl, rfl⟩

theorem Same.trans {w₁ w₂ w₃ : World} (h : Same w₁ w₂) (h' : Same w₂ w₃) : Same w₁ w₃ :=
  ⟨h'.1.trans h.1, h'.2.trans h.2⟩

@[simp] theorem asking_store (w : World) (call : NodeCall) : (w.asking call).store = w.store := by
  cases call <;> rfl

@[simp] theorem asking_head (w : World) (call : NodeCall) : (w.asking call).head = w.head := by
  cases call <;> rfl

@[simp] theorem asking_asking (w : World) (call : NodeCall) :
    (w.asking call).asking call = w.asking call := by
  cases call <;> rfl

theorem same_asking (w : World) (call : NodeCall) : Same w (w.asking call) :=
  ⟨asking_store w call, asking_head w call⟩

end World

/-! ## Surroundings -/

/-- The replies a node may give to a call, failures included.  A trace is asked for by its
transaction alone, so the block whose receipts were last asked for is given with the call. -/
abbrev Conduct := (focus : Option Hash) → (call : NodeCall) → Except NodeError call.Answer → Prop

def Conduct.Gives (node : Conduct) (call : NodeCall) (answer : call.Answer) : Prop :=
  ∃ focus, node focus call (.ok answer)

def StoreTask.IsCommit : StoreTask → Prop
  | .commit _ => True
  | _ => False

def Conduct.Responds (node : Conduct) : Prop := ∀ focus call, ∃ reply, node focus call reply

/-- What can become of a request: the store carries out its tasks at any time of day and may
refuse commits, and the node answers within its conduct. -/
def Replies (node : Conduct) : Dialogue.Rule Request Request.Reply World
  | .node call _, w, reply, w' => node (w.asking call).focus call reply ∧ w' = w.asking call
  | .store task, w, reply, w' =>
      (∃ now, reply = .ok (w.store.perform task now).1 ∧ w' = w.storing task now) ∨
      (task.IsCommit ∧ (∃ e, reply = .error e) ∧ w' = w)
  | .classify code, w, reply, w' =>
      reply = (w.cache.detect code).1.found ∧ w' = { w with cache := (w.cache.detect code).2 }
  | .sleep _, w, _, w' => w' = w
  | .head, w, reply, w' => reply = w.head ∧ w' = w
  | .setHead head, w, _, w' => w' = { w with head := head }
  | .count _ _, w, _, w' => w' = w
  | .now, w, _, w' => w' = w

/-- A way in which a step can go: its result or failure, or none if it was broken off. -/
def Runs {α : Type} (node : Conduct) (step : Step α) (w : World)
    (out : Option (Except IngestError α)) (w' : World) : Prop :=
  Dialogue.Course (Replies node) step.run w out w'

/-- Whether a step failed or was broken off. -/
def Unfinished {α : Type} (out : Option (Except IngestError α)) : Prop := ∀ a, out ≠ some (.ok a)

variable {α β : Type} {node : Conduct} {w w' : World}

@[simp] theorem unfinished_none : Unfinished (none : Option (Except IngestError α)) := by
  simp [Unfinished]

@[simp] theorem unfinished_error (e : IngestError) :
    Unfinished (some (.error e) : Option (Except IngestError α)) := by
  simp [Unfinished]

@[simp] theorem not_unfinished_ok (a : α) : ¬ Unfinished (some (.ok a)) := by
  simp [Unfinished]

theorem unfinished_of_error {e : IngestError} {out : Option (Except IngestError α)}
    (h : out = none ∨ out = some (.error e)) : Unfinished out := by
  rcases h with rfl | rfl
  · exact unfinished_none
  · exact unfinished_error e

/-! ## Steps in sequence -/

theorem exists_reply (h : node.Responds) (q : Request) (w : World) :
    ∃ reply w', Replies node q w reply w' := by
  cases q with
  | node call limit =>
      obtain ⟨reply, hreply⟩ := h (w.asking call).focus call
      exact ⟨reply, w.asking call, hreply, rfl⟩
  | store task => exact ⟨_, _, .inl ⟨0, rfl, rfl⟩⟩
  | classify code => exact ⟨_, _, rfl, rfl⟩
  | sleep d => exact ⟨(), w, rfl⟩
  | head => exact ⟨w.head, w, rfl, rfl⟩
  | setHead head => exact ⟨(), _, rfl⟩
  | count metric amount => exact ⟨(), w, rfl⟩
  | now => exact ⟨0, w, rfl⟩

theorem exists_runs (h : node.Responds) (step : Step α) (w : World) :
    ∃ r w', Runs node step w (some r) w' :=
  Dialogue.exists_course (exists_reply h) step.run w

theorem runs_pure_iff {a : α} {out : Option (Except IngestError α)} :
    Runs node (pure a) w out w' ↔ (out = none ∨ out = some (.ok a)) ∧ w' = w :=
  Dialogue.course_done_iff

theorem runs_throw_iff {e : IngestError} {out : Option (Except IngestError α)} :
    Runs node (throw e) w out w' ↔ (out = none ∨ out = some (.error e)) ∧ w' = w :=
  Dialogue.course_done_iff

theorem runs_ofExcept_iff {r : Except IngestError α} {out : Option (Except IngestError α)} :
    Runs node (Step.ofExcept r) w out w' ↔ (out = none ∨ out = some r) ∧ w' = w :=
  Dialogue.course_done_iff

theorem ok_of_ofExcept {r : Except IngestError α} {a : α}
    (h : Runs node (Step.ofExcept r) w (some (.ok a)) w') : r = .ok a := by
  obtain ⟨hnone | hsome, _⟩ := runs_ofExcept_iff.mp h
  · cases hnone
  · exact (Option.some.inj hsome).symm

/-- One step after another is one dialogue after another, unless the first fails. -/
theorem run_bind (x : Step α) (f : α → Step β) :
    (x >>= f).run = x.run.bind fun r =>
      match r with
      | .ok a => (f a).run
      | .error e => .done (.error e) := by
  apply congrArg (Dialogue.bind x.run)
  funext r
  cases r <;> rfl

theorem course_step_bind_iff {σ : Type} {R : Dialogue.Rule Request Request.Reply σ} {s s' : σ}
    {x : Step α} {f : α → Step β} {out : Option (Except IngestError β)} :
    Dialogue.Course R (x >>= f).run s out s' ↔
      (out = none ∧ Dialogue.Course R x.run s none s') ∨
      (∃ e, (out = none ∨ out = some (.error e)) ∧ Dialogue.Course R x.run s (some (.error e)) s') ∨
      ∃ a s₁, Dialogue.Course R x.run s (some (.ok a)) s₁ ∧ Dialogue.Course R (f a).run s₁ out s' := by
  rw [run_bind, Dialogue.course_bind_iff]
  apply or_congr_right
  constructor
  · rintro ⟨r, s₁, hx, hf⟩
    cases r with
    | error e =>
        obtain ⟨hout, rfl⟩ := Dialogue.course_done_iff.mp hf
        exact .inl ⟨e, hout, hx⟩
    | ok a => exact .inr ⟨a, s₁, hx, hf⟩
  · rintro (⟨e, hout, hx⟩ | ⟨a, s₁, hx, hf⟩)
    · exact ⟨.error e, s', hx, Dialogue.course_done_iff.mpr ⟨hout, rfl⟩⟩
    · exact ⟨.ok a, s₁, hx, hf⟩

theorem runs_bind_iff {x : Step α} {f : α → Step β} {out : Option (Except IngestError β)} :
    Runs node (x >>= f) w out w' ↔
      (out = none ∧ Runs node x w none w') ∨
      (∃ e, (out = none ∨ out = some (.error e)) ∧ Runs node x w (some (.error e)) w') ∨
      ∃ a w₁, Runs node x w (some (.ok a)) w₁ ∧ Runs node (f a) w₁ out w' :=
  course_step_bind_iff

theorem Runs.bind {x : Step α} {f : α → Step β} {a : α} {w₁ : World}
    {out : Option (Except IngestError β)} (hx : Runs node x w (some (.ok a)) w₁)
    (hf : Runs node (f a) w₁ out w') : Runs node (x >>= f) w out w' :=
  runs_bind_iff.mpr (.inr (.inr ⟨a, w₁, hx, hf⟩))

theorem runs_bind_ofExcept_ok {r : Except IngestError α} {a : α} {f : α → Step β}
    {out : Option (Except IngestError β)} (h : Runs node (Step.ofExcept r >>= f) w out w')
    (hr : r = .ok a) : Runs node (f a) w out w' := by
  subst hr
  exact h

/-! ## Requests -/

theorem runs_lift {p : Program α} {out : Option (Except IngestError α)}
    (h : Runs node (ExceptT.lift p) w out w') :
    ∃ result, Dialogue.Course (Replies node) p w result w' ∧
      (out = none ∨ ∃ a, result = some a ∧ out = some (.ok a)) := by
  have hrun : (ExceptT.lift p : Step α).run = p.bind fun a => .done (.ok a) := rfl
  rw [Runs, hrun, Dialogue.course_bind_iff] at h
  rcases h with ⟨rfl, hcut⟩ | ⟨a, w₁, hp, hdone⟩
  · exact ⟨none, hcut, .inl rfl⟩
  · obtain ⟨hout, rfl⟩ := Dialogue.course_done_iff.mp hdone
    refine ⟨some a, hp, ?_⟩
    rcases hout with rfl | rfl
    · exact .inl rfl
    · exact .inr ⟨a, rfl, rfl⟩

/-- A step taken as a value goes on whether or not it failed. -/
theorem runs_bind_attempt {x : Step α} {f : Except IngestError α → Step β}
    {out : Option (Except IngestError β)} (h : Runs node (Step.attempt x >>= f) w out w') :
    (out = none ∧ ∃ result, Runs node x w result w') ∨
      ∃ r w₁, Runs node x w (some r) w₁ ∧ Runs node (f r) w₁ out w' := by
  rcases runs_bind_iff.mp h with ⟨rfl, hcut⟩ | ⟨e, _, herror⟩ | ⟨r, w₁, hok, hnext⟩
  · obtain ⟨result, hcourse, _⟩ := runs_lift hcut
    exact .inl ⟨rfl, result, hcourse⟩
  · obtain ⟨_, _, hnone | ⟨_, _, hok⟩⟩ := runs_lift herror
    · cases hnone
    · cases hok
  · obtain ⟨_, hcourse, hnone | ⟨_, rfl, hok⟩⟩ := runs_lift hok
    · cases hnone
    · cases hok
      exact .inr ⟨r, w₁, hcourse, hnext⟩

theorem runs_request {r : Request} {out : Option (Except IngestError r.Reply)}
    (h : Runs node (Step.request r) w out w') :
    (out = none ∧ w' = w) ∨
      ∃ reply, Replies node r w reply w' ∧ (out = none ∨ out = some (.ok reply)) := by
  obtain ⟨result, hcourse, hout⟩ := runs_lift h
  rcases Dialogue.course_request_iff.mp hcourse with ⟨rfl, rfl⟩ | ⟨reply, hreply, hresult⟩
  · rcases hout with rfl | ⟨a, hnone, _⟩
    · exact .inl ⟨rfl, rfl⟩
    · cases hnone
  · refine .inr ⟨reply, hreply, ?_⟩
    rcases hout with rfl | ⟨a, rfl, rfl⟩
    · exact .inl rfl
    · obtain rfl : a = reply := by simpa using hresult
      exact .inr rfl

/-- A task for the store was refused, or not put at all, or carried out. -/
theorem runs_store {task : StoreTask} {out : Option (Except IngestError task.Answer)}
    (h : Runs node (Step.store task) w out w') :
    (Unfinished out ∧ w' = w) ∨
      ∃ now, w' = w.storing task now ∧
        (out = none ∨ out = some (.ok (w.store.perform task now).1)) := by
  rw [Step.store, runs_bind_iff] at h
  rcases h with ⟨rfl, h⟩ | ⟨e, hout, h⟩ | ⟨reply, w₁, h, hnext⟩
  · rcases runs_request h with ⟨_, rfl⟩ | ⟨reply, ⟨now, _, rfl⟩ | ⟨_, _, rfl⟩, _⟩
    · exact .inl ⟨unfinished_none, rfl⟩
    · exact .inr ⟨now, rfl, .inl rfl⟩
    · exact .inl ⟨unfinished_none, rfl⟩
  · rcases runs_request h with ⟨hnone, _⟩ | ⟨reply, _, hnone | hsome⟩
    · cases hnone
    · cases hnone
    · cases hsome
  · rcases runs_request h with ⟨hnone, _⟩ | ⟨reply', hreply, hnone | hsome⟩
    · cases hnone
    · cases hnone
    · cases hsome
      rcases hreply with ⟨now, rfl, rfl⟩ | ⟨_, ⟨e, rfl⟩, rfl⟩
      · obtain ⟨hout, rfl⟩ := runs_pure_iff.mp hnext
        exact .inr ⟨now, rfl, hout⟩
      · obtain ⟨hout, rfl⟩ := runs_throw_iff.mp hnext
        exact .inl ⟨unfinished_of_error hout, rfl⟩

theorem runs_bind_request {r : Request} {f : r.Reply → Step β}
    {out : Option (Except IngestError β)} (h : Runs node (Step.request r >>= f) w out w') :
    (out = none ∧ w' = w) ∨
      ∃ reply w₁, Replies node r w reply w₁ ∧ Runs node (f reply) w₁ out w' := by
  rcases runs_bind_iff.mp h with ⟨rfl, hcut⟩ | ⟨e, _, herror⟩ | ⟨reply, w₁, hr, hnext⟩
  · rcases runs_request hcut with ⟨_, rfl⟩ | ⟨reply, hreply, _⟩
    · exact .inl ⟨rfl, rfl⟩
    · exact .inr ⟨reply, w', hreply, .cut⟩
  · rcases runs_request herror with ⟨hnone, _⟩ | ⟨_, _, hnone | hok⟩
    · cases hnone
    · cases hnone
    · cases hok
  · rcases runs_request hr with ⟨hnone, _⟩ | ⟨reply', hreply, hout⟩
    · cases hnone
    · obtain rfl : reply = reply' := by simpa using hout
      exact .inr ⟨reply, w₁, hreply, hnext⟩

theorem runs_bind_store {task : StoreTask} {f : task.Answer → Step β}
    {out : Option (Except IngestError β)} (h : Runs node (Step.store task >>= f) w out w') :
    (Unfinished out ∧ w' = w) ∨
      ∃ now, Runs node (f (w.store.perform task now).1) (w.storing task now) out w' := by
  rcases runs_bind_iff.mp h with ⟨rfl, hcut⟩ | ⟨e, hout, herror⟩ | ⟨a, w₁, hok, hnext⟩
  · rcases runs_store hcut with ⟨_, rfl⟩ | ⟨now, rfl, _⟩
    · exact .inl ⟨unfinished_none, rfl⟩
    · exact .inr ⟨now, .cut⟩
  · rcases runs_store herror with ⟨_, rfl⟩ | ⟨_, _, hnone | hok⟩
    · exact .inl ⟨unfinished_of_error hout, rfl⟩
    · cases hnone
    · cases hok
  · rcases runs_store hok with ⟨hout, _⟩ | ⟨now, rfl, hout⟩
    · exact absurd hout (not_unfinished_ok a)
    · obtain rfl : a = _ := by simpa using hout
      exact .inr ⟨now, hnext⟩

theorem runs_bind_look {task : StoreTask} {answer : task.Answer} {f : task.Answer → Step β}
    {out : Option (Except IngestError β)}
    (hlook : ∀ now, w.store.perform task now = (answer, w.store))
    (h : Runs node (Step.store task >>= f) w out w') :
    (Unfinished out ∧ w' = w) ∨ Runs node (f answer) w out w' := by
  rcases runs_bind_store h with hnothing | ⟨now, hnext⟩
  · exact .inl hnothing
  · rw [World.storing, hlook] at hnext
    exact .inr hnext

theorem not_runs_pure_error {a : α} {e : IngestError} :
    ¬ Runs node (pure a : Step α) w (some (.error e)) w' := by
  intro h
  obtain ⟨hnone | hok, _⟩ := runs_pure_iff.mp h
  · cases hnone
  · cases hok

theorem not_runs_store_error {task : StoreTask} {e : IngestError} (htask : ¬ task.IsCommit) :
    ¬ Runs node (Step.store task) w (some (.error e)) w' := by
  intro h
  rcases runs_bind_request h with ⟨hnone, _⟩ | ⟨reply, w₁, ⟨now, rfl, _⟩ | ⟨hcommit, _⟩, hnext⟩
  · cases hnone
  · exact absurd hnext not_runs_pure_error
  · exact htask hcommit

/-! ## Steps that write nothing -/

/-- A step that leaves tables and head alone, however it goes. -/
def Quiet (node : Conduct) (step : Step α) : Prop :=
  ∀ w out w', Runs node step w out w' → World.Same w w'

theorem Quiet.bind {x : Step α} {f : α → Step β} (hx : Quiet node x)
    (hf : ∀ a, Quiet node (f a)) : Quiet node (x >>= f) := by
  intro w out w' h
  rcases runs_bind_iff.mp h with ⟨_, h⟩ | ⟨e, _, h⟩ | ⟨a, w₁, h, hnext⟩
  · exact hx _ _ _ h
  · exact hx _ _ _ h
  · exact (hx _ _ _ h).trans (hf a _ _ _ hnext)

theorem quiet_ofExcept (r : Except IngestError α) : Quiet node (Step.ofExcept r) := by
  intro w out w' h
  obtain ⟨_, rfl⟩ := runs_ofExcept_iff.mp h
  exact World.Same.refl _

theorem quiet_pure (a : α) : Quiet node (pure a : Step α) :=
  quiet_ofExcept (.ok a)

theorem quiet_throw (e : IngestError) : Quiet node (throw e : Step α) :=
  quiet_ofExcept (.error e)

theorem quiet_ite {p : Prop} [Decidable p] {x y : Step α} (hx : Quiet node x)
    (hy : Quiet node y) : Quiet node (if p then x else y) := by
  split
  · exact hx
  · exact hy

theorem quiet_request {r : Request}
    (hr : ∀ {w reply w'}, Replies node r w reply w' → World.Same w w') :
    Quiet node (Step.request r) := by
  intro w out w' h
  rcases runs_request h with ⟨_, rfl⟩ | ⟨reply, hreply, _⟩
  · exact World.Same.refl _
  · exact hr hreply

theorem quiet_now : Quiet node (Step.request .now) := by
  apply quiet_request
  rintro w reply w' rfl
  exact World.Same.refl _

theorem quiet_count (metric : Metric) (amount : Nat) :
    Quiet node (Step.request (.count metric amount)) := by
  apply quiet_request
  rintro w reply w' rfl
  exact World.Same.refl _

theorem quiet_sleep (d : Duration) : Quiet node (Step.request (.sleep d)) := by
  apply quiet_request
  rintro w reply w' rfl
  exact World.Same.refl _

theorem quiet_of_asks {p : Request → Prop} {step : Step α}
    (hp : ∀ q w reply w', p q → Replies node q w reply w' → World.Same w w')
    (h : Dialogue.Asks p step.run) : Quiet node step := by
  intro w out w' hruns
  rw [Runs] at hruns
  generalize step.run = d at h hruns
  induction hruns with
  | done => exact World.Same.refl _
  | cut => exact World.Same.refl _
  | ask hreply _ ih =>
      cases h with
      | ask hq hnext => exact (hp _ _ _ _ hq hreply).trans (ih (hnext _))

theorem quiet_look {task : StoreTask}
    (hlook : ∀ s : Store, ∃ answer, ∀ now, s.perform task now = (answer, s)) :
    Quiet node (Step.store task) := by
  intro w out w' h
  obtain ⟨answer, hanswer⟩ := hlook w.store
  rcases runs_store h with ⟨_, rfl⟩ | ⟨now, rfl, _⟩
  · exact World.Same.refl _
  · exact ⟨congrArg Prod.snd (hanswer now), rfl⟩

/-- After a step that writes nothing the next one finds the tables and the head as they were. -/
theorem runs_bind_quiet {x : Step α} {f : α → Step β} {out : Option (Except IngestError β)}
    (hx : Quiet node x) (h : Runs node (x >>= f) w out w') :
    (Unfinished out ∧ World.Same w w') ∨
      ∃ a w₁, World.Same w w₁ ∧ Runs node x w (some (.ok a)) w₁ ∧ Runs node (f a) w₁ out w' := by
  rcases runs_bind_iff.mp h with ⟨rfl, hcut⟩ | ⟨e, hout, herror⟩ | ⟨a, w₁, hok, hnext⟩
  · exact .inl ⟨unfinished_none, hx _ _ _ hcut⟩
  · exact .inl ⟨unfinished_of_error hout, hx _ _ _ herror⟩
  · exact .inr ⟨a, w₁, hx _ _ _ hok, hok, hnext⟩

/-! ## Calls of the node -/

theorem course_still {r : Request} {f : r.Reply → Program β} {out : Option β}
    (hr : ∀ {w reply w'}, Replies node r w reply w' → w' = w)
    (h : Dialogue.Course (Replies node) (Program.request r >>= f) w out w') :
    (out = none ∧ w' = w) ∨ ∃ reply, Dialogue.Course (Replies node) (f reply) w out w' := by
  rcases Dialogue.course_bind_iff.mp h with ⟨rfl, hcut⟩ | ⟨reply, w₁, hr₁, hnext⟩
  · rcases Dialogue.course_request_iff.mp hcut with ⟨_, rfl⟩ | ⟨reply, hreply, _⟩
    · exact .inl ⟨rfl, rfl⟩
    · exact .inl ⟨rfl, hr hreply⟩
  · rcases Dialogue.course_request_iff.mp hr₁ with ⟨hnone, _⟩ | ⟨reply', hreply, _⟩
    · cases hnone
    · obtain rfl := hr hreply
      exact .inr ⟨reply, hnext⟩

theorem course_callWith (c : Config) (call : NodeCall) (left : Nat)
    {out : Option (Except NodeError call.Answer)}
    (h : Dialogue.Course (Replies node) (callWith c call left) w out w') :
    (out = none ∧ (w' = w ∨ w' = w.asking call)) ∨
      ∃ reply, out = some reply ∧ node (w.asking call).focus call reply ∧ w' = w.asking call := by
  induction left generalizing w with
  | zero =>
      rcases Dialogue.course_request_iff.mp h with ⟨rfl, rfl⟩ | ⟨reply, ⟨hreply, rfl⟩, rfl | rfl⟩
      · exact .inl ⟨rfl, .inl rfl⟩
      · exact .inl ⟨rfl, .inr rfl⟩
      · exact .inr ⟨reply, rfl, hreply, rfl⟩
  | succ left ih =>
      rcases Dialogue.course_bind_iff.mp h with ⟨rfl, hcut⟩ | ⟨reply, w₁, hcall, hnext⟩
      · rcases Dialogue.course_request_iff.mp hcut with ⟨_, rfl⟩ | ⟨reply, ⟨_, rfl⟩, _⟩
        · exact .inl ⟨rfl, .inl rfl⟩
        · exact .inl ⟨rfl, .inr rfl⟩
      · rcases Dialogue.course_request_iff.mp hcall with ⟨hnone, _⟩ | ⟨_, ⟨hreply, rfl⟩, hout⟩
        · cases hnone
        · obtain rfl : reply = _ := by simpa using hout
          cases reply with
          | ok a =>
              obtain ⟨rfl | rfl, rfl⟩ := Dialogue.course_done_iff.mp hnext
              · exact .inl ⟨rfl, .inr rfl⟩
              · exact .inr ⟨_, rfl, hreply, rfl⟩
          | error e =>
              by_cases htransient : e.isTransient
              · simp only [htransient, if_true] at hnext
                -- the count and the pause change nothing; then one retry fewer is left
                rcases course_still id hnext with ⟨rfl, rfl⟩ | ⟨_, hpause⟩
                · exact .inl ⟨rfl, .inr rfl⟩
                · rcases course_still id hpause with ⟨rfl, rfl⟩ | ⟨_, hretry⟩
                  · exact .inl ⟨rfl, .inr rfl⟩
                  · rcases ih hretry with ⟨rfl, hend⟩ | ⟨reply, rfl, hlast, rfl⟩
                    · exact .inl ⟨rfl, .inr (by simpa using hend)⟩
                    · rw [World.asking_asking] at hlast ⊢
                      exact .inr ⟨reply, rfl, hlast, rfl⟩
              · simp only [htransient] at hnext
                obtain ⟨rfl | rfl, rfl⟩ := Dialogue.course_done_iff.mp hnext
                · exact .inl ⟨rfl, .inr rfl⟩
                · exact .inr ⟨_, rfl, hreply, rfl⟩

theorem runs_callNode {c : Config} {call : NodeCall}
    {out : Option (Except IngestError call.Answer)} (h : Runs node (callNode c call) w out w') :
    (Unfinished out ∧ (w' = w ∨ w' = w.asking call)) ∨
      ∃ a, (out = none ∨ out = some (.ok a)) ∧ node (w.asking call).focus call (.ok a) ∧
        w' = w.asking call := by
  rw [callNode, runs_bind_iff] at h
  rcases h with ⟨rfl, hcut⟩ | ⟨e, _, herror⟩ | ⟨reply, w₁, hcall, hnext⟩
  · obtain ⟨result, hcourse, _⟩ := runs_lift hcut
    rcases course_callWith c call _ hcourse with ⟨_, hend⟩ | ⟨reply, _, _, hend⟩
    · exact .inl ⟨unfinished_none, hend⟩
    · exact .inl ⟨unfinished_none, .inr hend⟩
  · obtain ⟨result, _, hnone | ⟨a, _, hok⟩⟩ := runs_lift herror
    · cases hnone
    · cases hok
  · obtain ⟨result, hcourse, hnone | ⟨a, rfl, hok⟩⟩ := runs_lift hcall
    · cases hnone
    · cases hok
      rcases course_callWith c call _ hcourse with ⟨hnone, _⟩ | ⟨reply', hsome, hreply, rfl⟩
      · cases hnone
      · cases hsome
        cases reply with
        | ok a =>
            obtain ⟨hout, rfl⟩ := runs_pure_iff.mp hnext
            exact .inr ⟨a, hout, hreply, rfl⟩
        | error e =>
            obtain ⟨hout, rfl⟩ := runs_throw_iff.mp hnext
            exact .inl ⟨unfinished_of_error hout, .inr rfl⟩

theorem quiet_callNode (c : Config) (call : NodeCall) : Quiet node (callNode c call) := by
  intro w out w' h
  rcases runs_callNode h with ⟨_, rfl | rfl⟩ | ⟨a, _, _, rfl⟩
  · exact World.Same.refl _
  · exact World.same_asking w call
  · exact World.same_asking w call

theorem gives_of_callNode {c : Config} {call : NodeCall} {a : call.Answer}
    (h : Runs node (callNode c call) w (some (.ok a)) w') : node.Gives call a := by
  rcases runs_callNode h with ⟨hout, _⟩ | ⟨a', hout, hreply, _⟩
  · exact absurd hout (not_unfinished_ok a)
  · obtain rfl : a = a' := by simpa using hout
    exact ⟨_, hreply⟩

/-! ## What a step may ask -/

section

variable {p : Request → Prop}

theorem asks_bind {x : Step α} {f : α → Step β} (hx : Dialogue.Asks p x.run)
    (hf : ∀ a, Dialogue.Asks p (f a).run) : Dialogue.Asks p (x >>= f).run := by
  rw [run_bind]
  refine hx.bind fun r => ?_
  cases r with
  | error e => exact .done
  | ok a => exact hf a

theorem asks_request {q : Request} (hq : p q) : Dialogue.Asks p (Step.request q).run :=
  .ask hq fun _ => .done

theorem asks_store {task : StoreTask} (htask : p (.store task)) :
    Dialogue.Asks p (Step.store task).run := by
  refine asks_bind (asks_request htask) fun reply => ?_
  cases reply with
  | ok a => exact .done
  | error e => exact .done

variable {c : Config} {call : NodeCall}
  (hcall : p (.node call c.nodeTimeout)) (hcount : ∀ metric amount, p (.count metric amount))
  (hsleep : ∀ d, p (.sleep d))

include hcall hcount hsleep

theorem asks_callWith (left : Nat) : Dialogue.Asks p (callWith c call left) := by
  induction left with
  | zero => exact .ask hcall fun _ => .done
  | succ left ih =>
      refine .ask hcall fun reply => ?_
      cases reply with
      | ok a => exact .done
      | error e =>
          show Dialogue.Asks p (if e.isTransient then _ else _)
          split
          · exact .ask (hcount _ _) fun _ => .ask (hsleep _) fun _ => ih
          · exact .done

theorem asks_callNode : Dialogue.Asks p (callNode c call).run := by
  refine asks_bind ((asks_callWith hcall hcount hsleep c.nodeRetries).bind fun _ => .done) ?_
  intro reply
  cases reply with
  | ok a => exact .done
  | error e => exact .done

end

end ChainIngest.Importer
