import ChainIngest.Proofs.World
/-!
# Transcripts

A course tells where a dialogue ends, and a transcript also what was said: every
question with its reply, in order.  Of a step only those calls of the node matter
that were answered.  A call that is repeated until the node answers counts once.
-/

namespace ChainIngest

namespace Dialogue

variable {ι : Type} {ρ : ι → Type} {α β σ : Type}

structure Exchange {ι : Type} (ρ : ι → Type) where
  question : ι
  reply : ρ question

/-- A course to a result, with all that was said on the way. -/
inductive Transcript (R : Rule ι ρ σ) : Dialogue ι ρ α → σ → List (Exchange ρ) → α → σ → Prop where
  | done {a : α} {s : σ} : Transcript R (.done a) s [] a s
  | ask {q : ι} {next : ρ q → Dialogue ι ρ α} {reply : ρ q} {log : List (Exchange ρ)} {a : α}
      {s s₁ s₂ : σ} : R q s reply s₁ → Transcript R (next reply) s₁ log a s₂ →
      Transcript R (.ask q next) s (⟨q, reply⟩ :: log) a s₂

variable {R : Rule ι ρ σ} {s s' : σ} {log : List (Exchange ρ)}

theorem Transcript.course {d : Dialogue ι ρ α} {a : α} (h : Transcript R d s log a s') :
    Course R d s (some a) s' := by
  induction h with
  | done => exact .done
  | ask hreply _ ih => exact .ask hreply ih

theorem course_iff_transcript {d : Dialogue ι ρ α} {a : α} :
    Course R d s (some a) s' ↔ ∃ log, Transcript R d s log a s' := by
  constructor
  · intro h
    generalize hout : some a = out at h
    induction h with
    | done =>
        cases hout
        exact ⟨[], .done⟩
    | cut => cases hout
    | ask hreply _ ih =>
        obtain ⟨log, hnext⟩ := ih hout
        exact ⟨_, .ask hreply hnext⟩
  · rintro ⟨log, h⟩
    exact h.course

theorem transcript_request {q : ι} {reply : ρ q} (h : Transcript R (request q) s log reply s') :
    log = [⟨q, reply⟩] ∧ R q s reply s' := by
  cases h with
  | ask hreply hnext =>
      cases hnext
      exact ⟨rfl, hreply⟩

/-- What one dialogue after another says is what the first says and then what the second does. -/
theorem transcript_bind {d : Dialogue ι ρ α} {f : α → Dialogue ι ρ β} {b : β}
    (h : Transcript R (d.bind f) s log b s') :
    ∃ log₁ log₂ a s₁, log = log₁ ++ log₂ ∧ Transcript R d s log₁ a s₁ ∧
      Transcript R (f a) s₁ log₂ b s' := by
  induction d generalizing s log with
  | done a => exact ⟨[], log, a, s, rfl, .done, h⟩
  | ask q next ih =>
      cases h with
      | ask hreply hnext =>
          obtain ⟨log₁, log₂, a, s₁, rfl, hfirst, hsecond⟩ := ih _ hnext
          exact ⟨_, log₂, a, s₁, rfl, .ask hreply hfirst, hsecond⟩

/-- What is said was asked for and answered within the rule. -/
theorem Transcript.replied {d : Dialogue ι ρ α} {a : α} (h : Transcript R d s log a s') :
    ∀ e ∈ log, ∃ s₁ s₂, R e.question s₁ e.reply s₂ := by
  induction h with
  | done => exact fun _ hnil => nomatch hnil
  | ask hreply _ ih => exact List.forall_mem_cons.mpr ⟨⟨_, _, hreply⟩, ih⟩

end Dialogue

namespace Importer

variable {α β : Type} {node : Conduct} {c : Config} {w w' : World}

abbrev Said := Dialogue.Exchange Request.Reply

/-- A way in which a step can come to a result, with all that was said on the way. -/
def Says (node : Conduct) (step : Step α) (w : World) (log : List Said) (a : α) (w' : World) : Prop :=
  Dialogue.Transcript (Replies node) step.run w log (.ok a) w'

/-- The same, where the step may also fail. -/
def Tells (node : Conduct) (step : Step α) (w : World) (log : List Said) (r : Except IngestError α)
    (w' : World) : Prop :=
  Dialogue.Transcript (Replies node) step.run w log r w'

variable {log : List Said}

theorem Says.runs {step : Step α} {a : α} (h : Says node step w log a w') :
    Runs node step w (some (.ok a)) w' :=
  Dialogue.Transcript.course h

theorem exists_says {step : Step α} {a : α} (h : Runs node step w (some (.ok a)) w') :
    ∃ log, Says node step w log a w' :=
  Dialogue.course_iff_transcript.mp h

theorem Tells.runs {step : Step α} {r : Except IngestError α} (h : Tells node step w log r w') :
    Runs node step w (some r) w' :=
  Dialogue.Transcript.course h

theorem tells_bind {x : Step α} {f : α → Step β} {r : Except IngestError β}
    (h : Tells node (x >>= f) w log r w') :
    (∃ e, r = .error e ∧ Tells node x w log (.error e) w') ∨
      ∃ log₁ log₂ a w₁, log = log₁ ++ log₂ ∧ Says node x w log₁ a w₁ ∧
        Tells node (f a) w₁ log₂ r w' := by
  rw [Tells, run_bind] at h
  obtain ⟨log₁, log₂, result, w₁, rfl, hx, hf⟩ := Dialogue.transcript_bind h
  cases result with
  | error e =>
      cases hf
      rw [List.append_nil]
      exact .inl ⟨e, rfl, hx⟩
  | ok a => exact .inr ⟨log₁, log₂, a, w₁, rfl, hx, hf⟩

theorem says_bind {x : Step α} {f : α → Step β} {b : β} (h : Says node (x >>= f) w log b w') :
    ∃ log₁ log₂ a w₁, log = log₁ ++ log₂ ∧ Says node x w log₁ a w₁ ∧
      Says node (f a) w₁ log₂ b w' := by
  rcases tells_bind h with ⟨e, herror, _⟩ | hsaid
  · cases herror
  · exact hsaid

theorem tells_ofExcept {result r : Except IngestError α}
    (h : Tells node (Step.ofExcept result) w log r w') : log = [] ∧ r = result ∧ w' = w := by
  cases h
  exact ⟨rfl, rfl, rfl⟩

theorem says_ofExcept {r : Except IngestError α} {a : α}
    (h : Says node (Step.ofExcept r) w log a w') : log = [] ∧ r = .ok a ∧ w' = w := by
  obtain ⟨hlog, hr, hw⟩ := tells_ofExcept h
  exact ⟨hlog, hr.symm, hw⟩

theorem says_pure {a b : α} (h : Says node (pure a : Step α) w log b w') :
    log = [] ∧ b = a ∧ w' = w := by
  obtain ⟨hlog, hok, hw⟩ := says_ofExcept (r := .ok a) h
  cases hok
  exact ⟨hlog, rfl, hw⟩

theorem says_lift {p : Program α} {a : α} (h : Says node (ExceptT.lift p) w log a w') :
    Dialogue.Transcript (Replies node) p w log a w' := by
  have hrun : (ExceptT.lift p : Step α).run = p.bind fun a => .done (.ok a) := rfl
  rw [Says, hrun] at h
  obtain ⟨log₁, log₂, b, w₁, rfl, hp, hdone⟩ := Dialogue.transcript_bind h
  cases hdone
  rwa [List.append_nil]

theorem says_request {r : Request} {reply : r.Reply}
    (h : Says node (Step.request r) w log reply w') :
    log = [⟨r, reply⟩] ∧ Replies node r w reply w' :=
  Dialogue.transcript_request (says_lift h)

theorem says_store {task : StoreTask} {a : task.Answer}
    (h : Says node (Step.store task) w log a w') :
    log = [⟨.store task, .ok a⟩] ∧
      ∃ now, a = (w.store.perform task now).1 ∧ w' = w.storing task now := by
  obtain ⟨log₁, log₂, reply, w₁, rfl, hr, hnext⟩ := says_bind h
  obtain ⟨rfl, hreply⟩ := says_request hr
  cases reply with
  | error e => nomatch hnext
  | ok found =>
      obtain ⟨rfl, rfl, rfl⟩ := says_pure hnext
      refine ⟨rfl, ?_⟩
      rcases hreply with ⟨now, hok, hw⟩ | ⟨_, ⟨_, herror⟩, _⟩
      · exact ⟨now, Except.ok.inj hok, hw⟩
      · cases herror

theorem tells_bind_look {task : StoreTask} {answer : task.Answer} {f : task.Answer → Step β}
    {r : Except IngestError β} (htask : ¬ task.IsCommit)
    (hlook : ∀ now, w.store.perform task now = (answer, w.store))
    (h : Tells node (Step.store task >>= f) w log r w') :
    ∃ rest, log = ⟨.store task, .ok answer⟩ :: rest ∧ Tells node (f answer) w rest r w' := by
  rcases tells_bind h with ⟨e, _, hfailed⟩ | ⟨log₁, log₂, a, w₁, rfl, hstore, hnext⟩
  · exact absurd hfailed.runs (not_runs_store_error htask)
  · obtain ⟨rfl, now, rfl, rfl⟩ := says_store hstore
    rw [World.storing, hlook] at hnext
    rw [hlook]
    exact ⟨log₂, rfl, hnext⟩

/-- What a call with its retries says: failures, each counted and slept over and followed by one
retry fewer, and a last reply. -/
inductive Retried (c : Config) (call : NodeCall) :
    (left : Nat) → List Said → Except NodeError call.Answer → Prop where
  | last {left : Nat} {reply : Except NodeError call.Answer} :
      Retried c call left [⟨.node call c.nodeTimeout, reply⟩] reply
  | again {left : Nat} {e : NodeError} {log : List Said} {reply : Except NodeError call.Answer} :
      Retried c call left log reply →
      Retried c call (left + 1) (⟨.node call c.nodeTimeout, .error e⟩ ::
        ⟨.count (.nodeRetries call.operation) 1, ()⟩ ::
        ⟨.sleep (c.backoff (c.nodeRetries - left)), ()⟩ :: log) reply

theorem retried_of_callWith {call : NodeCall} {left : Nat} {reply : Except NodeError call.Answer}
    (h : Dialogue.Transcript (Replies node) (callWith c call left) w log reply w') :
    Retried c call left log reply := by
  induction left generalizing w log with
  | zero =>
      obtain ⟨rfl, _⟩ := Dialogue.transcript_request h
      exact .last
  | succ left ih =>
      obtain ⟨log₁, log₂, first, w₁, rfl, hcall, hnext⟩ := Dialogue.transcript_bind h
      obtain ⟨rfl, _⟩ := Dialogue.transcript_request hcall
      cases first with
      | ok a =>
          cases hnext
          exact .last
      | error e =>
          dsimp only at hnext
          split at hnext
          · obtain ⟨log₃, log₄, _, w₂, rfl, hcount, hpause⟩ := Dialogue.transcript_bind hnext
            obtain ⟨rfl, _⟩ := Dialogue.transcript_request hcount
            obtain ⟨log₅, log₆, _, w₃, rfl, hsleep, hretry⟩ := Dialogue.transcript_bind hpause
            obtain ⟨rfl, _⟩ := Dialogue.transcript_request hsleep
            exact .again (ih hretry)
          · cases hnext
            exact .last

/-! ## Answers -/

abbrev Answered := (call : NodeCall) × call.Answer

def answer? : Said → Option Answered
  | ⟨.node call _, .ok a⟩ => some ⟨call, a⟩
  | _ => none

def answersIn (log : List Said) : List Answered := log.filterMap answer?

@[simp] theorem answersIn_append (log₁ log₂ : List Said) :
    answersIn (log₁ ++ log₂) = answersIn log₁ ++ answersIn log₂ :=
  List.filterMap_append

@[simp] theorem answersIn_store (task : StoreTask) (reply : Except StoreError task.Answer) :
    answersIn [⟨.store task, reply⟩] = [] := rfl

@[simp] theorem answersIn_now (now : Int) : answersIn [⟨.now, now⟩] = [] := rfl

theorem answersIn_of_retried {call : NodeCall} {left : Nat} {a : call.Answer}
    (h : Retried c call left log (.ok a)) : answersIn log = [⟨call, a⟩] := by
  generalize hreply : Except.ok a = reply at h
  induction h with
  | last =>
      subst hreply
      rfl
  | again _ ih => exact ih hreply

theorem answersIn_callNode {call : NodeCall} {a : call.Answer}
    (h : Says node (callNode c call) w log a w') : answersIn log = [⟨call, a⟩] := by
  obtain ⟨log₁, log₂, reply, w₁, rfl, hcall, hnext⟩ := says_bind h
  have hcall := says_lift hcall
  cases reply with
  | error e => nomatch hnext
  | ok b =>
      obtain ⟨rfl, rfl, _⟩ := says_pure hnext
      rw [List.append_nil]
      exact answersIn_of_retried (retried_of_callWith hcall)

theorem gives_of_answersIn {step : Step α} {a : α} (h : Says node step w log a w') {e : Answered}
    (he : e ∈ answersIn log) : node.Gives e.1 e.2 := by
  obtain ⟨⟨question, reply⟩, hsaid, hanswer⟩ := List.mem_filterMap.mp he
  obtain ⟨w₁, w₂, hreply⟩ := Dialogue.Transcript.replied h _ hsaid
  unfold answer? at hanswer
  split at hanswer
  · next call limit found heq =>
    cases heq
    cases hanswer
    exact ⟨_, hreply.1⟩
  · cases hanswer

/-! ## Calls -/

def call? : Said → Option NodeCall
  | ⟨.node call _, _⟩ => some call
  | _ => none

def callsIn (log : List Said) : List NodeCall := log.filterMap call?

@[simp] theorem callsIn_append (log₁ log₂ : List Said) :
    callsIn (log₁ ++ log₂) = callsIn log₁ ++ callsIn log₂ :=
  List.filterMap_append

theorem callsIn_of_retried {call : NodeCall} {left : Nat} {reply : Except NodeError call.Answer}
    (h : Retried c call left log reply) : ∃ n, n ≤ left + 1 ∧ callsIn log = List.replicate n call := by
  induction h with
  | last => exact ⟨1, Nat.le_add_left 1 _, rfl⟩
  | again _ ih =>
      obtain ⟨n, hn, hcalls⟩ := ih
      exact ⟨n + 1, Nat.succ_le_succ hn, congrArg (call :: ·) hcalls⟩

/-- A call is put at most once more than it may be repeated, and comes to an answer of the node or
to a failure of it. -/
theorem tells_callNode {call : NodeCall} {r : Except IngestError call.Answer}
    (h : Tells node (callNode c call) w log r w') :
    (∃ n, n ≤ c.nodeRetries + 1 ∧ callsIn log = List.replicate n call) ∧ w' = w.asking call ∧
      ((∃ a, r = .ok a ∧ node.Gives call a) ∨
        ∃ e focus, r = .error (.node e) ∧ node focus call (.error e)) := by
  rcases tells_bind h with ⟨e, _, hfailed⟩ | ⟨log₁, log₂, reply, w₁, rfl, hcall, hnext⟩
  · obtain ⟨_, _, hnone | ⟨_, _, hok⟩⟩ := runs_lift hfailed.runs
    · cases hnone
    · cases hok
  · have hcall := says_lift hcall
    obtain ⟨n, hn, hcalls⟩ := callsIn_of_retried (retried_of_callWith hcall)
    rcases course_callWith c call _ hcall.course with ⟨hnone, _⟩ | ⟨reply', hsome, hreply, rfl⟩
    · cases hnone
    obtain rfl : reply = reply' := Option.some.inj hsome
    cases reply with
    | ok a =>
        obtain ⟨rfl, rfl, rfl⟩ := tells_ofExcept hnext
        refine ⟨⟨n, hn, ?_⟩, rfl, .inl ⟨a, rfl, _, hreply⟩⟩
        rw [List.append_nil, hcalls]
    | error e =>
        obtain ⟨rfl, rfl, rfl⟩ := tells_ofExcept hnext
        refine ⟨⟨n, hn, ?_⟩, rfl, .inr ⟨e, _, rfl, hreply⟩⟩
        rw [List.append_nil, hcalls]

/-! ## Receipts, traces and code -/

def servedReceipts (block : Hash) (receipts : List Receipt) : Answered := ⟨.receipts block, receipts⟩

def servedTrace (e : Hash × CallTrace) : Answered := ⟨.trace e.1, e.2⟩

def servedCode (number : Nat) (e : Address × Bytes) : Answered := ⟨.code e.1 number, e.2⟩

def trace? : Answered → Option (Hash × CallTrace)
  | ⟨.trace tx, t⟩ => some (tx, t)
  | _ => none

def code? : Answered → Option (Address × Nat × Bytes)
  | ⟨.code contract number, code⟩ => some (contract, number, code)
  | _ => none

def tracesIn (log : List Said) : List (Hash × CallTrace) := (answersIn log).filterMap trace?

def codesIn (log : List Said) : List (Address × Nat × Bytes) := (answersIn log).filterMap code?

@[simp] theorem trace?_servedReceipts (block : Hash) (receipts : List Receipt) :
    trace? (servedReceipts block receipts) = none := rfl

@[simp] theorem code?_servedReceipts (block : Hash) (receipts : List Receipt) :
    code? (servedReceipts block receipts) = none := rfl

@[simp] theorem trace?_servedTrace (e : Hash × CallTrace) : trace? (servedTrace e) = some e := rfl

@[simp] theorem trace?_servedCode (number : Nat) (e : Address × Bytes) :
    trace? (servedCode number e) = none := rfl

@[simp] theorem code?_servedTrace (e : Hash × CallTrace) : code? (servedTrace e) = none := rfl

@[simp] theorem code?_servedCode (number : Nat) (e : Address × Bytes) :
    code? (servedCode number e) = some (e.1, number, e.2) := rfl

theorem codesIn_append (log₁ log₂ : List Said) :
    codesIn (log₁ ++ log₂) = codesIn log₁ ++ codesIn log₂ := by
  rw [codesIn, answersIn_append, List.filterMap_append]
  rfl

theorem gives_of_codesIn {step : Step α} {a : α} (h : Says node step w log a w')
    {e : Address × Nat × Bytes} (he : e ∈ codesIn log) : node.Gives (.code e.1 e.2.1) e.2.2 := by
  obtain ⟨⟨call, answer⟩, hanswer, hcode⟩ := List.mem_filterMap.mp he
  unfold code? at hcode
  split at hcode
  · next contract number code heq =>
    cases heq
    cases hcode
    exact gives_of_answersIn h hanswer
  · cases hcode

end Importer

end ChainIngest
