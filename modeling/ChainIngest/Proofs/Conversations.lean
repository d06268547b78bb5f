import ChainIngest.Proofs.StepEffect
import ChainIngest.Proofs.Transcripts
/-!
# Conversations

What can be said in a dialogue whatever the surroundings are: the questions that it comes
to, each with any reply at all.  Every transcript is such a conversation, so what is known
of conversations holds beside any node and any store, one that fails to read included.
-/

namespace ChainIngest

namespace Dialogue

variable {ι : Type} {ρ : ι → Type} {α β σ : Type}

/-- Whether a dialogue comes to a result by way of what is said. -/
def Goes : Dialogue ι ρ α → List (Exchange ρ) → α → Prop
  | done a, log, b => log = [] ∧ b = a
  | ask q next, log, b => ∃ reply rest, log = ⟨q, reply⟩ :: rest ∧ (next reply).Goes rest b

theorem goes_bind_iff {d : Dialogue ι ρ α} {f : α → Dialogue ι ρ β} {log : List (Exchange ρ)}
    {b : β} : (d.bind f).Goes log b ↔
      ∃ log₁ log₂ a, log = log₁ ++ log₂ ∧ d.Goes log₁ a ∧ (f a).Goes log₂ b := by
  induction d generalizing log with
  | done a =>
      constructor
      · exact fun h => ⟨[], log, a, rfl, ⟨rfl, rfl⟩, h⟩
      · rintro ⟨_, _, _, rfl, ⟨rfl, rfl⟩, h⟩
        exact h
  | ask q next ih =>
      constructor
      · rintro ⟨reply, rest, rfl, h⟩
        obtain ⟨log₁, log₂, a, rfl, hd, hf⟩ := (ih reply).mp h
        exact ⟨_, log₂, a, rfl, ⟨reply, log₁, rfl, hd⟩, hf⟩
      · rintro ⟨_, log₂, a, rfl, ⟨reply, log₁, rfl, hd⟩, hf⟩
        exact ⟨reply, _, rfl, (ih reply).mpr ⟨log₁, log₂, a, rfl, hd, hf⟩⟩

theorem Transcript.goes {R : Rule ι ρ σ} {d : Dialogue ι ρ α} {s s' : σ}
    {log : List (Exchange ρ)} {a : α} (h : Transcript R d s log a s') : d.Goes log a := by
  induction h with
  | done => exact ⟨rfl, rfl⟩
  | ask _ _ ih => exact ⟨_, _, rfl, ih⟩

theorem goes_unique {d : Dialogue ι ρ α} {log log' rest rest' : List (Exchange ρ)} {a a' : α}
    (h : d.Goes log a) (h' : d.Goes log' a') (hsame : log ++ rest = log' ++ rest') :
    log = log' ∧ a = a' ∧ rest = rest' := by
  induction d generalizing log log' with
  | done b =>
      obtain ⟨rfl, rfl⟩ := h
      obtain ⟨rfl, rfl⟩ := h'
      exact ⟨rfl, rfl, hsame⟩
  | ask q next ih =>
      obtain ⟨reply, said, rfl, hnext⟩ := h
      obtain ⟨reply', said', rfl, hnext'⟩ := h'
      obtain ⟨hfirst, hlater⟩ := List.cons.inj hsame
      cases hfirst
      obtain ⟨rfl, hend⟩ := ih reply hnext hnext' hlater
      exact ⟨rfl, hend⟩

/-- Nothing is said but what a dialogue may ask. -/
theorem Asks.of_goes {p : ι → Prop} {d : Dialogue ι ρ α} {log : List (Exchange ρ)} {a : α}
    (hd : Asks p d) (h : d.Goes log a) : ∀ e ∈ log, p e.question := by
  induction hd generalizing log with
  | done =>
      obtain ⟨rfl, _⟩ := h
      exact fun _ hnil => nomatch hnil
  | ask hq _ ih =>
      obtain ⟨reply, rest, rfl, hnext⟩ := h
      exact List.forall_mem_cons.mpr ⟨hq, ih reply hnext⟩

/-- A conversation is a transcript beside surroundings that may give any reply. -/
theorem transcript_of_goes {d : Dialogue ι ρ α} {log : List (Exchange ρ)} {a : α}
    (h : d.Goes log a) : Transcript (fun _ (_ : Unit) _ _ => True) d () log a () := by
  induction d generalizing log with
  | done b =>
      obtain ⟨rfl, rfl⟩ := h
      exact .done
  | ask q next ih =>
      obtain ⟨reply, rest, rfl, hnext⟩ := h
      exact .ask trivial (ih reply hnext)

end Dialogue

namespace Importer

variable {α β : Type} {c : Config} {log : List Said}

/-! ## Steps in sequence -/

theorem goes_step_bind_iff {x : Step α} {f : α → Step β} {r : Except IngestError β} :
    (x >>= f).run.Goes log r ↔
      (∃ e, r = .error e ∧ x.run.Goes log (.error e)) ∨
        ∃ log₁ log₂ a, log = log₁ ++ log₂ ∧ x.run.Goes log₁ (.ok a) ∧ (f a).run.Goes log₂ r := by
  rw [run_bind, Dialogue.goes_bind_iff]
  constructor
  · rintro ⟨log₁, log₂, result, rfl, hx, hf⟩
    cases result with
    | error e =>
        obtain ⟨rfl, rfl⟩ := hf
        rw [List.append_nil]
        exact .inl ⟨e, rfl, hx⟩
    | ok a => exact .inr ⟨log₁, log₂, a, rfl, hx, hf⟩
  · rintro (⟨e, rfl, hx⟩ | ⟨log₁, log₂, a, rfl, hx, hf⟩)
    · exact ⟨log, [], .error e, (List.append_nil log).symm, hx, rfl, rfl⟩
    · exact ⟨log₁, log₂, .ok a, rfl, hx, hf⟩

theorem goes_attempt_bind_iff {x : Step α} {f : Except IngestError α → Step β}
    {r : Except IngestError β} : (x.attempt >>= f).run.Goes log r ↔
      ∃ log₁ log₂ result, log = log₁ ++ log₂ ∧ x.run.Goes log₁ result ∧
        (f result).run.Goes log₂ r := by
  have hrun : (x.attempt >>= f).run = x.run.bind fun result => (f result).run := by
    rw [run_bind]
    exact Dialogue.bind_assoc x.run _ _
  rw [hrun, Dialogue.goes_bind_iff]

theorem goes_store_bind_iff {task : StoreTask} {f : task.Answer → Step β}
    {r : Except IngestError β} : (Step.store task >>= f).run.Goes log r ↔
      (∃ e, log = [⟨.store task, .error e⟩] ∧ r = .error (.store e)) ∨
        ∃ a rest, log = ⟨.store task, .ok a⟩ :: rest ∧ (f a).run.Goes rest r := by
  constructor
  · rintro ⟨reply, rest, rfl, h⟩
    cases reply with
    | error e =>
        obtain ⟨rfl, rfl⟩ := h
        exact .inl ⟨e, rfl, rfl⟩
    | ok a => exact .inr ⟨a, rest, rfl, h⟩
  · rintro (⟨e, rfl, rfl⟩ | ⟨a, rest, rfl, h⟩)
    · exact ⟨.error e, [], rfl, rfl, rfl⟩
    · exact ⟨.ok a, rest, rfl, h⟩

/-! ## Steps that only look -/

/-- Whether a request writes no rows. -/
def Request.Reads : Request → Prop
  | .store (.commit _) => False
  | .store (.recordStatus _) => False
  | _ => True

/-- Whatever the replies, a step writes no rows, what it comes to is as expected, and it does not
fail for a reason of its own. -/
def Looks (step : Step α) (P : α → Prop) : Prop :=
  ∀ log r, step.run.Goes log r →
    (∀ e ∈ log, e.question.Reads) ∧ (∀ a, r = .ok a → P a) ∧ ∀ detail, r ≠ .error (.internal detail)

theorem Looks.bind {x : Step α} {f : α → Step β} {P : α → Prop} {Q : β → Prop} (hx : Looks x P)
    (hf : ∀ a, P a → Looks (f a) Q) : Looks (x >>= f) Q := by
  intro log r h
  rcases goes_step_bind_iff.mp h with ⟨e, rfl, hfailed⟩ | ⟨log₁, log₂, a, rfl, hgone, hnext⟩
  · obtain ⟨hreads, _, hreason⟩ := hx _ _ hfailed
    refine ⟨hreads, fun _ hok => (nomatch hok), fun detail hinternal => ?_⟩
    cases hinternal
    exact hreason detail rfl
  · obtain ⟨hreads₁, hresult, _⟩ := hx _ _ hgone
    obtain ⟨hreads₂, hend⟩ := hf a (hresult a rfl) _ _ hnext
    exact ⟨List.forall_mem_append.mpr ⟨hreads₁, hreads₂⟩, hend⟩

theorem looks_ofExcept {r : Except IngestError α} {P : α → Prop} (hok : ∀ a, r = .ok a → P a)
    (hreason : ∀ detail, r ≠ .error (.internal detail)) : Looks (Step.ofExcept r) P := by
  rintro log result ⟨rfl, rfl⟩
  exact ⟨fun _ hnil => (nomatch hnil), hok, hreason⟩

theorem looks_pure {a : α} {P : α → Prop} (ha : P a) : Looks (pure a) P :=
  looks_ofExcept (fun _ hok => Except.ok.inj hok ▸ ha) fun _ herror => nomatch herror

theorem looks_request {q : Request} (hq : q.Reads) : Looks (Step.request q) fun _ => True := by
  rintro log r ⟨reply, rest, rfl, rfl, rfl⟩
  exact ⟨by simpa using hq, fun _ _ => trivial, fun _ herror => nomatch herror⟩

theorem looks_store {task : StoreTask} (htask : Request.Reads (.store task)) :
    Looks (Step.store task) fun _ => True := by
  rintro log r ⟨reply, rest, rfl, h⟩
  cases reply with
  | error e =>
      obtain ⟨rfl, rfl⟩ := h
      exact ⟨by simpa using htask, fun _ _ => trivial, fun _ herror => nomatch herror⟩
  | ok a =>
      obtain ⟨rfl, rfl⟩ := h
      exact ⟨by simpa using htask, fun _ _ => trivial, fun _ herror => nomatch herror⟩

theorem exists_goes_callWith_error (c : Config) (call : NodeCall) (e : NodeError) (left : Nat) :
    ∃ log, (callWith c call left).Goes log (.error e) := by
  induction left with
  | zero => exact ⟨_, .error e, [], rfl, rfl, rfl⟩
  | succ left ih =>
      obtain ⟨rest, hrest⟩ := ih
      have hnext : ∃ more, Dialogue.Goes (if e.isTransient then (do
          Program.request (.count (Metric.nodeRetries call.operation) 1)
          Program.request (.sleep (c.backoff (c.nodeRetries - left)))
          callWith c call left) else pure (.error e)) more (.error e) := by
        split
        · exact ⟨_, (), _, rfl, (), rest, rfl, hrest⟩
        · exact ⟨[], rfl, rfl⟩
      obtain ⟨more, hmore⟩ := hnext
      exact ⟨_, .error e, more, rfl, hmore⟩

theorem goes_callNode_iff {call : NodeCall} {r : Except IngestError call.Answer} :
    (callNode c call).run.Goes log r ↔
      ∃ reply, (callWith c call c.nodeRetries).Goes log reply ∧ r = reply.mapError .node := by
  constructor
  · intro h
    obtain ⟨_, log₂, _, rfl, hlift, hend⟩ := Dialogue.goes_bind_iff.mp h
    obtain ⟨log₁, _, reply, rfl, hcalls, rfl, rfl⟩ := Dialogue.goes_bind_iff.mp hlift
    refine ⟨reply, ?_⟩
    cases reply with
    | ok a =>
        obtain ⟨rfl, rfl⟩ := hend
        exact ⟨by simpa using hcalls, rfl⟩
    | error e =>
        obtain ⟨rfl, rfl⟩ := hend
        exact ⟨by simpa using hcalls, rfl⟩
  · rintro ⟨reply, hcalls, rfl⟩
    refine Dialogue.goes_bind_iff.mpr ⟨log, [], .ok reply, (List.append_nil log).symm,
      Dialogue.goes_bind_iff.mpr ⟨log, [], reply, (List.append_nil log).symm, hcalls, rfl, rfl⟩, ?_⟩
    cases reply with
    | ok a => exact ⟨rfl, rfl⟩
    | error e => exact ⟨rfl, rfl⟩

theorem looks_callNode (c : Config) (call : NodeCall) :
    Looks (callNode c call) fun _ => True := by
  intro log r h
  obtain ⟨reply, hcalls, rfl⟩ := goes_callNode_iff.mp h
  have hasks : Dialogue.Asks Request.Reads (callWith c call c.nodeRetries) :=
    asks_callWith trivial (fun _ _ => trivial) (fun _ => trivial) _
  refine ⟨hasks.of_goes hcalls, fun _ _ => trivial, fun detail hinternal => ?_⟩
  cases reply with
  | ok a => cases hinternal
  | error e => cases hinternal

/-! ## What is asked first -/

def Opens (step : Step α) (q : Request) : Prop :=
  ∀ log r, step.run.Goes log r → ∃ reply rest, log = ⟨q, reply⟩ :: rest

theorem Opens.bind {x : Step α} {q : Request} (h : Opens x q) (f : α → Step β) :
    Opens (x >>= f) q := by
  intro log r hgoes
  rcases goes_step_bind_iff.mp hgoes with ⟨e, _, hfailed⟩ | ⟨_, _, _, rfl, hgone, _⟩
  · exact h _ _ hfailed
  · obtain ⟨reply, rest, rfl⟩ := h _ _ hgone
    exact ⟨reply, _, rfl⟩

theorem opens_callNode (c : Config) (call : NodeCall) :
    Opens (callNode c call) (.node call c.nodeTimeout) := by
  intro log r hgoes
  obtain ⟨_, hcalls, _⟩ := goes_callNode_iff.mp hgoes
  cases hleft : c.nodeRetries with
  | zero =>
      rw [hleft] at hcalls
      obtain ⟨reply, rest, rfl, _⟩ := hcalls
      exact ⟨reply, rest, rfl⟩
  | succ left =>
      rw [hleft] at hcalls
      obtain ⟨reply, rest, rfl, _⟩ := hcalls
      exact ⟨reply, rest, rfl⟩

/-! ## Working out rows -/

def moved (entry : ImportEntry) (next : ImportStatus) (error : Option String) (now : Int) :
    ImportEntry :=
  { entry with
    status := next
    attempts := if next = .inProgress then entry.attempts + 1 else entry.attempts
    lastError := error <|> entry.lastError
    updatedAt := now }

theorem advance_eq_ok {entry : ImportEntry} {next : ImportStatus} {error : Option String}
    {now : Int} (h : entry.status.canBecome next = true) :
    advance entry next error now = .ok (moved entry next error now) := if_pos h

theorem looks_fetchTraces (c : Config) (txs : List Hash) :
    Looks (fetchTraces c txs) fun _ => True := by
  induction txs with
  | nil => exact looks_pure trivial
  | cons tx txs ih =>
      exact (looks_callNode c _).bind fun _ _ => ih.bind fun _ _ => looks_pure trivial

theorem looks_classifyCreated (c : Config) (number : Nat) (created : List ContractCreated)
    (known : KnownContracts) : Looks (classifyCreated c number created known) fun _ => True := by
  induction created generalizing known with
  | nil => exact looks_pure trivial
  | cons row rest ih =>
      rw [classifyCreated_cons]
      refine Looks.bind (P := fun _ => True) ?_ fun code _ =>
        (looks_request (q := .classify code) trivial).bind fun found _ =>
        (ih _).bind fun after _ => looks_pure trivial
      unfold codeOf
      split
      · exact looks_callNode c _
      · exact looks_pure trivial

theorem looks_classifyEmitters (c : Config) (number : Nat) (emitters : List Address)
    (known : KnownContracts) : Looks (classifyEmitters c number emitters known) fun _ => True := by
  induction emitters generalizing known with
  | nil => exact looks_pure trivial
  | cons contract rest ih =>
      rw [classifyEmitters]
      split
      · exact ih known
      · have hlook : Request.Reads (.store (.capabilities contract)) := trivial
        refine (looks_store hlook).bind fun stored _ => ?_
        cases stored with
        | some found => exact ih _
        | none =>
            exact (looks_callNode c _).bind fun code _ =>
              (looks_request (q := .classify code) trivial).bind fun found _ =>
              (ih _).bind fun after _ => looks_pure trivial

theorem extractAll_error {txs : List Hash} {traces : List CallTrace} {e : IngestError}
    (h : extractAll txs traces = .error e) : ∃ tx reason, e = .malformedTrace tx reason := by
  induction txs generalizing traces with
  | nil => cases h
  | cons tx txs ih =>
      cases traces with
      | nil => cases h
      | cons t ts =>
          rw [extractAll] at h
          split at h
          · cases h
            exact ⟨_, _, rfl⟩
          · cases hrest : extractAll txs ts with
            | ok rows =>
                rw [hrest] at h
                cases h
            | error e' =>
                rw [hrest] at h
                cases h
                exact ih hrest

/-- While the import of a block is in progress its rows are worked out by looking alone, and what
they say of the import is that it is done. -/
theorem looks_normalize (c : Config) (block : Block) {entry : ImportEntry}
    (hstatus : entry.status = .inProgress) : Looks (normalize c block entry) fun rows =>
      rows.block = block ∧ ∃ now, rows.entry = moved entry .committed none now := by
  unfold normalize
  refine (looks_callNode c _).bind fun fetched _ => ?_
  refine (looks_ofExcept (P := fun _ => True) (fun _ _ => trivial) ?_).bind fun aligned _ => ?_
  · intro detail hinternal
    cases halign : alignReceipts block fetched with
    | ok aligned => rw [halign] at hinternal; cases hinternal
    | error e => rw [halign] at hinternal; cases hinternal
  refine (looks_fetchTraces c _).bind fun traces _ => ?_
  refine (looks_ofExcept (P := fun _ => True) (fun _ _ => trivial) ?_).bind fun extracted _ => ?_
  · intro detail hinternal
    obtain ⟨_, _, hmalformed⟩ := extractAll_error hinternal
    cases hmalformed
  refine (looks_classifyCreated c _ _ _).bind fun created _ => ?_
  refine (looks_classifyEmitters c _ _ _).bind fun classified _ => ?_
  refine (looks_ofExcept (P := fun _ => True) (fun _ _ => trivial) ?_).bind fun _ _ => ?_
  · intro detail hinternal
    unfold Balance.Sheet.verify at hinternal
    split at hinternal
    · cases hinternal
    · cases hinternal
  refine (looks_request (q := .now) trivial).bind fun now _ => ?_
  refine (looks_ofExcept (P := fun committed => committed = moved entry .committed none now)
    ?_ ?_).bind fun committed hcommitted => ?_
  · intro committed hok
    rw [advance_eq_ok (by rw [hstatus]; rfl)] at hok
    exact (Except.ok.inj hok).symm
  · intro detail hinternal
    rw [advance_eq_ok (by rw [hstatus]; rfl)] at hinternal
    cases hinternal
  · exact looks_pure ⟨rfl, now, hcommitted⟩

end Importer

end ChainIngest
