import Mathlib.Order.Bounds.Basic
import ChainIngest.Proofs.Conversations
import ChainIngest.Proofs.NestedRetries
/-!
# The attempts at a block

An attempt ends well, or fails for a reason that may go away, or for one that may not.
The sequence of these outcomes and the permitted number settle everything else: how many
attempts are made, which import rows are written on the way, and what is reported in the
end.  Nothing is asked of the surroundings but that they record the rows they are given;
what node and store reply within an attempt, the attempt's outcome tells.
-/

namespace ChainIngest.Importer

variable {c : Config} {block : Block} {log : List Said}

/-! ## What is written -/

/-- The import row that an exchange writes, if it was carried out. -/
def written? : Said → Option ImportEntry
  | ⟨.store (.recordStatus entry), .ok _⟩ => some entry
  | ⟨.store (.commit rows), .ok _⟩ => some rows.entry
  | _ => none

def writtenIn (log : List Said) : List ImportEntry := log.filterMap written?

def commit? : Said → Option BlockRows
  | ⟨.store (.commit rows), .ok _⟩ => some rows
  | _ => none

def commitsIn (log : List Said) : List BlockRows := log.filterMap commit?

def Recorded (log : List Said) : Prop :=
  ∀ entry reply, (⟨.store (.recordStatus entry), reply⟩ : Said) ∈ log → reply = .ok ()

@[simp] theorem writtenIn_append (log₁ log₂ : List Said) :
    writtenIn (log₁ ++ log₂) = writtenIn log₁ ++ writtenIn log₂ :=
  List.filterMap_append

@[simp] theorem commitsIn_append (log₁ log₂ : List Said) :
    commitsIn (log₁ ++ log₂) = commitsIn log₁ ++ commitsIn log₂ :=
  List.filterMap_append

@[simp] theorem writtenIn_count (metric : Metric) (amount : Nat) (reply : Unit) (log : List Said) :
    writtenIn (⟨.count metric amount, reply⟩ :: log) = writtenIn log := rfl

@[simp] theorem writtenIn_sleep (d : Duration) (reply : Unit) (log : List Said) :
    writtenIn (⟨.sleep d, reply⟩ :: log) = writtenIn log := rfl

@[simp] theorem commitsIn_count (metric : Metric) (amount : Nat) (reply : Unit) (log : List Said) :
    commitsIn (⟨.count metric amount, reply⟩ :: log) = commitsIn log := rfl

@[simp] theorem commitsIn_sleep (d : Duration) (reply : Unit) (log : List Said) :
    commitsIn (⟨.sleep d, reply⟩ :: log) = commitsIn log := rfl

@[simp] theorem writtenIn_nil : writtenIn [] = [] := rfl

@[simp] theorem commitsIn_nil : commitsIn [] = [] := rfl

theorem recorded_append {log₁ log₂ : List Said} :
    Recorded (log₁ ++ log₂) ↔ Recorded log₁ ∧ Recorded log₂ := by
  simp only [Recorded, List.mem_append]
  constructor
  · exact fun h => ⟨fun entry reply hmem => h entry reply (.inl hmem),
      fun entry reply hmem => h entry reply (.inr hmem)⟩
  · rintro ⟨h₁, h₂⟩ entry reply (hmem | hmem)
    · exact h₁ entry reply hmem
    · exact h₂ entry reply hmem

theorem nothing_of_reads (h : ∀ e ∈ log, e.question.Reads) :
    writtenIn log = [] ∧ commitsIn log = [] ∧ Recorded log := by
  refine ⟨List.filterMap_eq_nil_iff.mpr fun e he => ?_,
    List.filterMap_eq_nil_iff.mpr fun e he => ?_, fun entry reply hmem => (h _ hmem).elim⟩
  · have hreads := h e he
    unfold written?
    split
    · exact hreads.elim
    · exact hreads.elim
    · rfl
  · have hreads := h e he
    unfold commit?
    split
    · exact hreads.elim
    · rfl

/-- What an attempt writes: the rows of the block, with the import done, or nothing.  It never
fails for a reason of its own. -/
inductive Wrote (block : Block) (entry : ImportEntry) (log : List Said) :
    Except IngestError Unit → Prop where
  | nothing {e : IngestError} : (∀ detail, e ≠ .internal detail) → writtenIn log = [] →
      commitsIn log = [] → Wrote block entry log (.error e)
  | rows {rows : BlockRows} {now : Int} : writtenIn log = [moved entry .committed none now] →
      commitsIn log = [rows] → rows.block = block → Wrote block entry log (.ok ())

theorem wrote_of_goes {entry : ImportEntry} {r : Except IngestError Unit}
    (hstatus : entry.status = .inProgress) (h : (commitBlock c block entry).run.Goes log r) :
    Wrote block entry log r ∧ Recorded log := by
  unfold commitBlock at h
  rcases goes_step_bind_iff.mp h with ⟨e, rfl, hfailed⟩ | ⟨log₁, _, rows, rfl, hrows, hcommit⟩
  · obtain ⟨hreads, _, hreason⟩ := looks_normalize c block hstatus _ _ hfailed
    obtain ⟨hwritten, hcommits, hrecorded⟩ := nothing_of_reads hreads
    exact ⟨.nothing (fun detail heq => hreason detail (heq ▸ rfl)) hwritten hcommits, hrecorded⟩
  · obtain ⟨hreads, hresult, _⟩ := looks_normalize c block hstatus _ _ hrows
    obtain ⟨hwritten, hcommits, hrecorded⟩ := nothing_of_reads hreads
    obtain ⟨hblock, now, hentry⟩ := hresult rows rfl
    obtain ⟨reply, rest, rfl, hend⟩ := hcommit
    have hother : ∀ reply, Recorded [⟨.store (.commit rows), reply⟩] := by
      intro reply entry reply' hmem
      cases List.mem_singleton.mp hmem
    cases reply with
    | error e =>
        obtain ⟨rfl, rfl⟩ := hend
        refine ⟨.nothing (fun detail heq => nomatch heq) ?_ ?_,
          recorded_append.mpr ⟨hrecorded, hother _⟩⟩
        · rw [writtenIn_append, hwritten]
          rfl
        · rw [commitsIn_append, hcommits]
          rfl
    | ok a =>
        obtain ⟨rfl, rfl⟩ := hend
        have hwrites : writtenIn (log₁ ++ [⟨.store (.commit rows), .ok a⟩]) =
            [moved entry .committed none now] := by
          rw [writtenIn_append, hwritten, ← hentry]
          rfl
        have hcommitted : commitsIn (log₁ ++ [⟨.store (.commit rows), .ok a⟩]) = [rows] := by
          rw [commitsIn_append, hcommits]
          rfl
        exact ⟨.rows hwrites hcommitted hblock, recorded_append.mpr ⟨hrecorded, hother _⟩⟩

/-! ## Moves -/

def moving (entry : ImportEntry) (next : ImportStatus) (error : Option String) (now : Int) :
    List Said :=
  [⟨.now, now⟩, ⟨.store (.recordStatus (moved entry next error now)), .ok ()⟩]

theorem commitsIn_moving (entry : ImportEntry) (next : ImportStatus)
    (error : Option String) (now : Int) : commitsIn (moving entry next error now) = [] := rfl

theorem recorded_moving (entry : ImportEntry) (next : ImportStatus) (error : Option String)
    (now : Int) : Recorded (moving entry next error now) := by
  intro other reply hmem
  simp only [moving, List.mem_cons, List.not_mem_nil, or_false] at hmem
  rcases hmem with hmem | hmem
  · cases hmem
  · cases hmem
    rfl

section Move

variable {α : Type} {entry : ImportEntry} {next : ImportStatus} {error : Option String}
  {f : ImportEntry → Step α} {r : Except IngestError α}

theorem move_bind (hlegal : entry.status.canBecome next = true) :
    (move entry next error >>= f) = Step.request .now >>= fun now =>
      Step.store (.recordStatus (moved entry next error now)) >>= fun _ =>
        f (moved entry next error now) := by
  simp only [move, bind_assoc, pure_bind, advance_eq_ok hlegal]
  rfl

theorem of_goes_move (hlegal : entry.status.canBecome next = true) (hrecorded : Recorded log)
    (h : (move entry next error >>= f).run.Goes log r) : ∃ now rest,
      log = moving entry next error now ++ rest ∧ Recorded rest ∧
        (f (moved entry next error now)).run.Goes rest r := by
  rw [move_bind hlegal] at h
  obtain ⟨now, _, rfl, hstore⟩ := h
  rcases goes_store_bind_iff.mp hstore with ⟨e, rfl, _⟩ | ⟨a, rest, rfl, hnext⟩
  · cases hrecorded _ _ (List.mem_cons_of_mem _ List.mem_cons_self)
  · have hparts : Recorded (moving entry next error now ++ rest) := hrecorded
    exact ⟨now, rest, rfl, (recorded_append.mp hparts).2, hnext⟩

theorem goes_move {now : Int} (hlegal : entry.status.canBecome next = true)
    (h : (f (moved entry next error now)).run.Goes log r) :
    (move entry next error >>= f).run.Goes (moving entry next error now ++ log) r := by
  rw [move_bind hlegal]
  exact ⟨now, _, rfl, goes_store_bind_iff.mpr (.inr ⟨(), log, rfl, h⟩)⟩

end Move

/-! ## The loop -/

def begun (pending : ImportEntry) (now : Int) : ImportEntry := moved pending .inProgress none now

def broken (entry : ImportEntry) (e : IngestError) (now : Int) : ImportEntry :=
  moved entry .failed (some e.message) now

def requeued (failed : ImportEntry) (now : Int) : ImportEntry := moved failed .pending none now

theorem writtenIn_begun (pending : ImportEntry) (now : Int) :
    writtenIn (moving pending .inProgress none now) = [begun pending now] := rfl

theorem writtenIn_broken (entry : ImportEntry) (e : IngestError) (now : Int) :
    writtenIn (moving entry .failed (some e.message) now) = [broken entry e now] := rfl

theorem writtenIn_requeued (failed : ImportEntry) (now : Int) :
    writtenIn (moving failed .pending none now) = [requeued failed now] := rfl

/-- What is said in the attempts at a block, `left` more being permitted after the next one; what
they come to, one after another, and what becomes of the block. -/
inductive Loop (c : Config) (block : Block) : (left : Nat) → (pending : ImportEntry) →
    List Said → List (Except IngestError Unit) → Except IngestError Outcome → Prop where
  | committed {left : Nat} {pending : ImportEntry} {now : Int} {said : List Said} :
      (commitBlock c block (begun pending now)).run.Goes said (.ok ()) →
      Loop c block left pending
        (moving pending .inProgress none now ++ (said ++ [⟨.count .blocksCommitted 1, ()⟩]))
        [.ok ()] (.ok (.committed block.id))
  | gaveUp {left : Nat} {pending : ImportEntry} {now later : Int} {said : List Said}
      {e : IngestError} :
      (commitBlock c block (begun pending now)).run.Goes said (.error e) →
      left = 0 ∨ e.isTransient = false →
      Loop c block left pending
        (moving pending .inProgress none now ++
          (said ++ moving (begun pending now) .failed (some e.message) later))
        [.error e] (.error (.fatal block.id (pending.attempts + 1) e))
  | again {left : Nat} {pending : ImportEntry} {now later latest : Int} {said rest : List Said}
      {e : IngestError} {results : List (Except IngestError Unit)}
      {r : Except IngestError Outcome} :
      (commitBlock c block (begun pending now)).run.Goes said (.error e) → e.isTransient = true →
      Loop c block left (requeued (broken (begun pending now) e later) latest) rest results r →
      Loop c block (left + 1) pending
        (moving pending .inProgress none now ++
          (said ++ (moving (begun pending now) .failed (some e.message) later ++
            (⟨.count .blockRetries 1, ()⟩ ::
              ⟨.sleep (c.backoff (broken (begun pending now) e later).attempts), ()⟩ ::
              (moving (broken (begun pending now) e later) .pending none latest ++ rest)))))
        (.error e :: results) r

theorem retry_eq_throw {left : Nat} {failed : ImportEntry} {e : IngestError}
    (h : left = 0 ∨ e.isTransient = false) :
    retry c block left failed e = throw (.fatal block.id failed.attempts e) := by
  cases left with
  | zero => rfl
  | succ left =>
      have hlasting : e.isTransient = false := h.resolve_left (Nat.succ_ne_zero left)
      simp [retry, hlasting]

theorem retry_succ {left : Nat} {failed : ImportEntry} {e : IngestError}
    (h : e.isTransient = true) : retry c block (left + 1) failed e = (do
      Step.request (.count .blockRetries 1)
      Step.request (.sleep (c.backoff failed.attempts))
      let entry ← move failed .pending none
      attemptBlock c block left entry) := by
  simp [retry, h]

theorem loop_of_goes {left : Nat} {pending : ImportEntry} {r : Except IngestError Outcome}
    (hpending : pending.status = .pending) (hrecorded : Recorded log)
    (h : (attemptBlock c block left pending).run.Goes log r) :
    ∃ results, Loop c block left pending log results r := by
  induction left using Nat.strongRecOn generalizing pending log with
  | ind left ih =>
    rw [attemptBlock] at h
    obtain ⟨now, rest, rfl, hrest, h₁⟩ := of_goes_move (by rw [hpending]; rfl) hrecorded h
    obtain ⟨said, closing, result, rfl, hattempt, h₂⟩ := goes_attempt_bind_iff.mp h₁
    have hclosing : Recorded closing := (recorded_append.mp hrest).2
    cases result with
    | ok _ =>
        obtain ⟨_, _, rfl, rfl, rfl⟩ := h₂
        exact ⟨_, .committed hattempt⟩
    | error e =>
        obtain ⟨later, closing, rfl, hend, h₃⟩ := of_goes_move rfl hclosing h₂
        change (retry c block left (broken (begun pending now) e later) e).run.Goes closing r at h₃
        by_cases hlast : left = 0 ∨ e.isTransient = false
        · rw [retry_eq_throw hlast] at h₃
          obtain ⟨rfl, rfl⟩ := h₃
          rw [List.append_nil]
          exact ⟨_, .gaveUp hattempt hlast⟩
        · obtain ⟨hleft, htransient⟩ := not_or.mp hlast
          obtain ⟨fewer, rfl⟩ := Nat.exists_eq_succ_of_ne_zero hleft
          have htransient : e.isTransient = true := by simpa using htransient
          rw [retry_succ htransient] at h₃
          obtain ⟨_, _, rfl, _, rest, rfl, hmove⟩ := h₃
          have hrest : Recorded rest := fun entry reply hmem =>
            hend entry reply (List.mem_cons_of_mem _ (List.mem_cons_of_mem _ hmem))
          obtain ⟨latest, rest, rfl, hrest, hnext⟩ := of_goes_move rfl hrest hmove
          obtain ⟨results, hloop⟩ := ih fewer (Nat.lt_succ_self fewer) rfl hrest hnext
          exact ⟨_, .again hattempt htransient hloop⟩

namespace Loop

variable {left : Nat} {pending : ImportEntry} {results : List (Except IngestError Unit)}
  {r : Except IngestError Outcome}

theorem goes (h : Loop c block left pending log results r) (hpending : pending.status = .pending) :
    (attemptBlock c block left pending).run.Goes log r := by
  have hopen : pending.status.canBecome .inProgress = true := by rw [hpending]; rfl
  induction h with
  | committed hattempt =>
      rw [attemptBlock]
      exact goes_move hopen (goes_attempt_bind_iff.mpr
        ⟨_, _, _, rfl, hattempt, (), [], rfl, rfl, rfl⟩)
  | @gaveUp left pending now later said e hattempt hlast =>
      have hthrow : (retry c block left (broken (begun pending now) e later) e).run.Goes []
          (.error (.fatal block.id (pending.attempts + 1) e)) := by
        rw [retry_eq_throw hlast]
        exact ⟨rfl, rfl⟩
      rw [attemptBlock, ← List.append_nil (moving (begun pending now) .failed _ later)]
      exact goes_move hopen (goes_attempt_bind_iff.mpr
        ⟨_, _, _, rfl, hattempt, goes_move rfl hthrow⟩)
  | @again left pending now later latest said rest e results r hattempt htransient _ ih =>
      have hretry : (retry c block (left + 1) (broken (begun pending now) e later) e).run.Goes
          (⟨.count .blockRetries 1, ()⟩ ::
            ⟨.sleep (c.backoff (broken (begun pending now) e later).attempts), ()⟩ ::
            (moving (broken (begun pending now) e later) .pending none latest ++ rest)) r := by
        rw [retry_succ htransient]
        exact ⟨(), _, rfl, (), _, rfl, goes_move rfl (ih rfl rfl)⟩
      rw [attemptBlock]
      exact goes_move hopen (goes_attempt_bind_iff.mpr
        ⟨_, _, _, rfl, hattempt, goes_move rfl hretry⟩)

theorem recorded (h : Loop c block left pending log results r) : Recorded log := by
  induction h with
  | committed hattempt =>
      have hsaid := (wrote_of_goes rfl hattempt).2
      simp only [recorded_append]
      exact ⟨recorded_moving _ _ _ _, hsaid, by simp [Recorded]⟩
  | gaveUp hattempt _ =>
      have hsaid := (wrote_of_goes rfl hattempt).2
      simp only [recorded_append]
      exact ⟨recorded_moving _ _ _ _, hsaid, recorded_moving _ _ _ _⟩
  | again hattempt _ _ ih =>
      have hsaid := (wrote_of_goes rfl hattempt).2
      have hpause : ∀ d, Recorded [⟨.count .blockRetries 1, ()⟩, ⟨.sleep d, ()⟩] := by
        simp [Recorded]
      simp only [recorded_append]
      exact ⟨recorded_moving _ _ _ _, hsaid, recorded_moving _ _ _ _,
        recorded_append.mpr ⟨hpause _, recorded_append.mpr ⟨recorded_moving _ _ _ _, ih⟩⟩⟩

end Loop

/-! ## Attempts -/

/-- The attempts that are made in what is said, with what they come to: the rows of the block are
worked out and committed with its import in progress, as the row written last tells, for the first
time as attempt number `before + 1`.  In between no receipts are asked for and nothing is
committed. -/
inductive Attempts (c : Config) (block : Block) : (before : Nat) → List Said →
    List (Except IngestError Unit) → Prop where
  | done {before : Nat} {log : List Said} : (∀ e ∈ log, e.question.Calm) →
      Attempts c block before log []
  | next {before : Nat} {aside said rest : List Said} {entry : ImportEntry}
      {result : Except IngestError Unit} {results : List (Except IngestError Unit)} :
      (∀ e ∈ aside, e.question.Calm) → (writtenIn aside).getLast? = some entry →
      entry.id = block.id → entry.status = .inProgress → entry.attempts = before + 1 →
      (commitBlock c block entry).run.Goes said result →
      Attempts c block (before + 1) rest results →
      Attempts c block before (aside ++ (said ++ rest)) (result :: results)

theorem Attempts.of_aside {before : Nat} {aside : List Said}
    {results : List (Except IngestError Unit)} (haside : ∀ e ∈ aside, e.question.Calm)
    (h : Attempts c block before log results) :
    Attempts c block before (aside ++ log) results := by
  cases h with
  | done hlog => exact .done (List.forall_mem_append.mpr ⟨haside, hlog⟩)
  | next hmore hentry hid hstatus hattempts hsaid hrest =>
      rw [← List.append_assoc]
      refine .next (List.forall_mem_append.mpr ⟨haside, hmore⟩) ?_ hid hstatus hattempts hsaid hrest
      rw [writtenIn_append, List.getLast?_append, hentry]
      rfl

theorem opens_commitBlock (c : Config) (block : Block) (entry : ImportEntry) :
    Opens (commitBlock c block entry) (.node (.receipts block.hash) c.nodeTimeout) :=
  ((opens_callNode c (.receipts block.hash)).bind _).bind _

theorem aside_unique {aside aside' rest rest' : List Said} {e e' : Said}
    (haside : ∀ e ∈ aside, e.question.Calm) (haside' : ∀ e ∈ aside', e.question.Calm)
    (he : ¬ e.question.Calm) (he' : ¬ e'.question.Calm)
    (hsame : aside ++ e :: rest = aside' ++ e' :: rest') : aside = aside' := by
  rcases List.append_eq_append_iff.mp hsame with ⟨more, rfl, hmore⟩ | ⟨more, rfl, hmore⟩
  · cases more with
    | nil => exact (List.append_nil aside).symm
    | cons x more =>
        obtain ⟨rfl, _⟩ := List.cons.inj hmore
        exact absurd (haside' e (List.mem_append_right _ List.mem_cons_self)) he
  · cases more with
    | nil => exact List.append_nil aside'
    | cons x more =>
        obtain ⟨rfl, _⟩ := List.cons.inj hmore
        exact absurd (haside e' (List.mem_append_right _ List.mem_cons_self)) he'

/-- What is said tells the attempts and what they come to. -/
theorem Attempts.unique {before : Nat} {results results' : List (Except IngestError Unit)}
    (h : Attempts c block before log results) (h' : Attempts c block before log results') :
    results = results' := by
  have hcall : ∀ first, ¬ (⟨.node (.receipts block.hash) c.nodeTimeout, first⟩ :
      Said).question.Calm := fun _ hcalm => hcalm
  induction h generalizing results' with
  | done hlog =>
      cases h' with
      | done _ => rfl
      | next _ _ _ _ _ hsaid _ =>
          obtain ⟨first, more, rfl⟩ := opens_commitBlock _ _ _ _ _ hsaid
          exact absurd (hlog _ (by simp)) (hcall first)
  | @next before aside said rest entry result results haside hentry _ _ _ hsaid _ ih =>
      generalize hsame : aside ++ (said ++ rest) = whole at h'
      cases h' with
      | done hlog =>
          obtain ⟨first, more, rfl⟩ := opens_commitBlock _ _ _ _ _ hsaid
          exact absurd (hlog _ (by simp [← hsame])) (hcall first)
      | @next _ aside' said' rest' entry' _ results' haside' hentry' _ _ _ hsaid' hrest' =>
          obtain ⟨first, more, hhead⟩ := opens_commitBlock _ _ _ _ _ hsaid
          obtain ⟨first', more', hhead'⟩ := opens_commitBlock _ _ _ _ _ hsaid'
          obtain rfl : aside = aside' := by
            rw [hhead, hhead'] at hsame
            exact aside_unique haside haside' (hcall first) (hcall first') hsame
          obtain rfl : entry = entry' := Option.some.inj (hentry.symm.trans hentry')
          obtain ⟨_, rfl, rfl⟩ :=
            Dialogue.goes_unique hsaid hsaid' (List.append_cancel_left hsame)
          rw [ih hrest']

theorem calm_moving (entry : ImportEntry) (next : ImportStatus) (error : Option String)
    (now : Int) : ∀ e ∈ moving entry next error now, e.question.Calm :=
  List.forall_mem_cons.mpr ⟨trivial, List.forall_mem_singleton.mpr trivial⟩

theorem Loop.attempts {left : Nat} {pending : ImportEntry}
    {results : List (Except IngestError Unit)} {r : Except IngestError Outcome}
    (h : Loop c block left pending log results r) (hid : pending.id = block.id) :
    Attempts c block pending.attempts log results := by
  induction h with
  | @committed _ pending now _ hattempt =>
      have hentry : (begun pending now).id = block.id := hid
      exact .next (calm_moving _ _ _ _) rfl hentry rfl rfl hattempt
        (.done (List.forall_mem_singleton.mpr trivial))
  | @gaveUp _ pending now _ _ _ hattempt _ =>
      have hentry : (begun pending now).id = block.id := hid
      exact .next (calm_moving _ _ _ _) rfl hentry rfl rfl hattempt (.done (calm_moving _ _ _ _))
  | @again _ pending now _ _ _ _ _ _ _ hattempt _ _ ih =>
      have hentry : (begun pending now).id = block.id := hid
      have hpause : ∀ d, ∀ e ∈ ([⟨.count .blockRetries 1, ()⟩, ⟨.sleep d, ()⟩] : List Said),
          e.question.Calm :=
        fun d => List.forall_mem_cons.mpr ⟨trivial, List.forall_mem_singleton.mpr trivial⟩
      refine .next (calm_moving _ _ _ _) rfl hentry rfl rfl hattempt ?_
      exact Attempts.of_aside (calm_moving _ _ _ _) (Attempts.of_aside (hpause _)
        (Attempts.of_aside (calm_moving _ _ _ _) (ih hid)))

/-! ## Sequences of outcomes -/

/-- Whether an outcome ends the attempts: a success, or a failure that cannot go away. -/
def Settles (outcome : Except IngestError Unit) : Prop :=
  ∀ e, outcome = .error e → e.isTransient = false

/-- The text of the last failure among the first attempts, if there was one. -/
def lastFailure (outcome : Nat → Except IngestError Unit) : Nat → Option String
  | 0 => none
  | i + 1 =>
    match outcome (i + 1) with
    | .ok _ => lastFailure outcome i
    | .error e => some e.message

/-- A block's import row at some stage, whenever it was written. -/
def stage (id : BlockId) (status : ImportStatus) (attempts : Nat) (lastError : Option String) :
    ImportEntry :=
  { ImportEntry.pending id 0 with status := status, attempts := attempts, lastError := lastError }

def timeless (entry : ImportEntry) : ImportEntry := { entry with updatedAt := 0 }

section Outcomes

variable (id : BlockId) (outcome : Nat → Except IngestError Unit)

def retriedStages (i : Nat) : List ImportEntry :=
  [stage id .inProgress i (lastFailure outcome (i - 1)),
    stage id .failed i (lastFailure outcome i), stage id .pending i (lastFailure outcome i)]

def finalStages (i : Nat) : List ImportEntry :=
  [stage id .inProgress i (lastFailure outcome (i - 1)),
    stage id (if (outcome i).isOk then .committed else .failed) i (lastFailure outcome i)]

/-- The rows of some attempts from a given one on, of which all but the last are followed by
another. -/
def stagesFrom (first retries : Nat) : List ImportEntry :=
  (List.range' first retries).flatMap (retriedStages id outcome) ++
    finalStages id outcome (first + retries)

def stages (attempts : Nat) : List ImportEntry :=
  stage id .pending 0 none :: stagesFrom id outcome 1 (attempts - 1)

def verdict (attempts : Nat) : Except IngestError Outcome :=
  match outcome attempts with
  | .ok _ => .ok (.committed id)
  | .error e => .error (.fatal id attempts e)

variable {id outcome}

theorem stagesFrom_zero (first : Nat) :
    stagesFrom id outcome first 0 = finalStages id outcome first := rfl

theorem stagesFrom_succ (first retries : Nat) : stagesFrom id outcome first (retries + 1) =
    retriedStages id outcome first ++ stagesFrom id outcome (first + 1) retries := by
  rw [stagesFrom, List.range'_succ, List.flatMap_cons, List.append_assoc, stagesFrom,
    Nat.add_right_comm, Nat.add_assoc]

theorem getLast?_stages (attempts : Nat) (hpos : 1 ≤ attempts) :
    ((stages id outcome attempts).getLast?).map ImportEntry.lastError =
      some (lastFailure outcome attempts) := by
  have hlast : 1 + (attempts - 1) = attempts := by omega
  simp [stages, stagesFrom, finalStages, stage, hlast, List.getLast?_cons]

theorem isChain_stages (attempts : Nat) :
    ((stages id outcome attempts).map ImportEntry.status).IsChain
      fun a b => a.canBecome b = true := by
  have hchain : ∀ first retries, (ImportStatus.pending ::
      (stagesFrom id outcome first retries).map ImportEntry.status).IsChain
        fun a b => a.canBecome b = true := by
    intro first retries
    induction retries generalizing first with
    | zero =>
        cases hok : (outcome first).isOk <;>
          simp [stagesFrom, finalStages, stage, hok, ImportStatus.canBecome]
    | succ retries ih =>
        rw [stagesFrom_succ, List.map_append]
        simp only [retriedStages, stage, List.map_cons, List.map_nil, List.cons_append,
          List.nil_append, List.isChain_cons_cons]
        exact ⟨rfl, rfl, rfl, ih (first + 1)⟩
  exact hchain 1 (attempts - 1)

theorem timeless_moved {entry : ImportEntry} {status : ImportStatus} {attempts : Nat}
    {lastError : Option String} (h : timeless entry = stage id status attempts lastError)
    (next : ImportStatus) (error : Option String) (now : Int) :
    timeless (moved entry next error now) =
      stage id next (if next = .inProgress then attempts + 1 else attempts)
        (error <|> lastError) := by
  cases entry
  simp only [timeless, stage, ImportEntry.pending, ImportEntry.mk.injEq] at h
  obtain ⟨rfl, rfl, rfl, rfl, rfl, rfl, _⟩ := h
  rfl

theorem timeless_begun {pending : ImportEntry} {before : Nat} {lastError : Option String}
    (h : timeless pending = stage id .pending before lastError) (now : Int) :
    timeless (begun pending now) = stage id .inProgress (before + 1) lastError :=
  timeless_moved h .inProgress none now

theorem timeless_broken {entry : ImportEntry} {attempts : Nat} {lastError : Option String}
    (h : timeless entry = stage id .inProgress attempts lastError) (e : IngestError) (now : Int) :
    timeless (broken entry e now) = stage id .failed attempts (some e.message) :=
  timeless_moved h .failed (some e.message) now

theorem timeless_requeued {failed : ImportEntry} {attempts : Nat} {lastError : Option String}
    (h : timeless failed = stage id .failed attempts lastError) (now : Int) :
    timeless (requeued failed now) = stage id .pending attempts lastError :=
  timeless_moved h .pending none now

theorem lastFailure_of_ok {i : Nat} (h : outcome (i + 1) = .ok ()) :
    lastFailure outcome (i + 1) = lastFailure outcome i := by
  rw [lastFailure, h]

theorem lastFailure_of_error {i : Nat} {e : IngestError} (h : outcome (i + 1) = .error e) :
    lastFailure outcome (i + 1) = some e.message := by
  rw [lastFailure, h]

end Outcomes

/-! ## What a loop comes to -/

/-- That a loop whose first attempt is number `before + 1` and whose last is number `n` has gone as
the outcomes of its attempts demand. -/
structure Accords (block : Block) (outcome : Nat → Except IngestError Unit) (before left n : Nat)
    (log : List Said) (r : Except IngestError Outcome) : Prop where
  /-- The last attempt is the last permitted one, or the first whose outcome settles it. -/
  least : IsLeast {i | before < i ∧ (i = before + left + 1 ∨ Settles (outcome i))} n
  written : (writtenIn log).map timeless =
    stagesFrom block.id outcome (before + 1) (n - (before + 1))
  committed : (commitsIn log).map BlockRows.block = if (outcome n).isOk then [block] else []
  result : r = verdict block.id outcome n
  reasons : ∀ i detail, before < i → i ≤ n → outcome i ≠ .error (.internal detail)

namespace Accords

variable {outcome : Nat → Except IngestError Unit} {before left n : Nat}
  {r : Except IngestError Outcome}

theorem last (hlast : left = 0 ∨ Settles (outcome (before + 1)))
    (hwritten : (writtenIn log).map timeless = finalStages block.id outcome (before + 1))
    (hcommits : (commitsIn log).map BlockRows.block =
      if (outcome (before + 1)).isOk then [block] else [])
    (hreason : ∀ detail, outcome (before + 1) ≠ .error (.internal detail)) :
    Accords block outcome before left (before + 1) log (verdict block.id outcome (before + 1)) where
  least := by
    refine ⟨⟨Nat.lt_succ_self before, hlast.imp_left fun hleft => ?_⟩, fun i hi => hi.1⟩
    omega
  written := by rw [Nat.sub_self, stagesFrom_zero, hwritten]
  committed := hcommits
  result := rfl
  reasons i detail hlow hhigh := by
    obtain rfl : i = before + 1 := Nat.le_antisymm hhigh hlow
    exact hreason detail

/-- An attempt before the others that fails for a reason that may go away. -/
theorem retried {rest : List Said} {e : IngestError}
    (h : Accords block outcome (before + 1) left n rest r)
    (herror : outcome (before + 1) = .error e) (htransient : e.isTransient = true)
    (hwritten : (writtenIn log).map timeless =
      retriedStages block.id outcome (before + 1) ++ (writtenIn rest).map timeless)
    (hcommits : commitsIn log = commitsIn rest) (hreason : ∀ detail, e ≠ .internal detail) :
    Accords block outcome before (left + 1) n log r where
  least := by
    obtain ⟨⟨hlow, hend⟩, hleast⟩ := h.least
    refine ⟨⟨Nat.lt_of_succ_lt hlow, hend.imp_left fun hlast => by omega⟩, fun i hi => ?_⟩
    rcases Nat.lt_or_ge (before + 1) i with habove | hbelow
    · exact hleast ⟨habove, hi.2.imp_left fun hlast => by omega⟩
    · -- this attempt was neither the last permitted one nor did it settle anything
      obtain rfl : i = before + 1 := Nat.le_antisymm hbelow hi.1
      rcases hi.2 with hlast | hsettles
      · omega
      · rw [hsettles e herror] at htransient
        cases htransient
  written := by
    have hlow : before + 1 < n := h.least.1.1
    have hretries : n - (before + 1) = n - (before + 1 + 1) + 1 := by omega
    rw [hretries, stagesFrom_succ, hwritten, h.written]
  committed := by rw [hcommits, h.committed]
  result := h.result
  reasons i detail hlow hhigh := by
    rcases Nat.lt_or_ge (before + 1) i with habove | hbelow
    · exact h.reasons i detail habove hhigh
    · obtain rfl : i = before + 1 := Nat.le_antisymm hbelow hlow
      rw [herror]
      exact fun hinternal => hreason detail (Except.error.inj hinternal)

section Ends

variable {pending : ImportEntry} {now : Int} {said : List Said}

theorem of_committed
    (hpending : timeless pending = stage block.id .pending before (lastFailure outcome before))
    (hok : outcome (before + 1) = .ok ())
    (hattempt : (commitBlock c block (begun pending now)).run.Goes said (.ok ())) :
    Accords block outcome before left (before + 1)
      (moving pending .inProgress none now ++ (said ++ [⟨.count .blocksCommitted 1, ()⟩]))
      (.ok (.committed block.id)) := by
  have hentry := timeless_begun hpending now
  have hverdict : verdict block.id outcome (before + 1) = .ok (.committed block.id) := by
    rw [verdict, hok]
  obtain ⟨hwrote, _⟩ := wrote_of_goes rfl hattempt
  cases hwrote with
  | @rows rows done hwritten hcommits hblock =>
      have hdone := timeless_moved hentry .committed none done
      rw [← hverdict]
      refine .last (.inr fun e he => ?_) ?_ ?_ fun detail hinternal => ?_
      · rw [hok] at he
        cases he
      · rw [finalStages, hok, lastFailure_of_ok hok]
        simp only [writtenIn_append, writtenIn_begun, hwritten, writtenIn_count, writtenIn_nil,
          List.append_nil, List.cons_append, List.nil_append, List.map_cons, List.map_nil,
          hentry, hdone]
        rfl
      · rw [hok, ← hblock]
        simp only [commitsIn_append, commitsIn_moving, hcommits, commitsIn_count, commitsIn_nil]
        rfl
      · rw [hok] at hinternal
        cases hinternal

variable {later : Int} {e : IngestError}

theorem of_gaveUp
    (hpending : timeless pending = stage block.id .pending before (lastFailure outcome before))
    (herror : outcome (before + 1) = .error e) (hlast : left = 0 ∨ e.isTransient = false)
    (hattempt : (commitBlock c block (begun pending now)).run.Goes said (.error e)) :
    Accords block outcome before left (before + 1)
      (moving pending .inProgress none now ++
        (said ++ moving (begun pending now) .failed (some e.message) later))
      (.error (.fatal block.id (pending.attempts + 1) e)) := by
  have hentry := timeless_begun hpending now
  have hbroken := timeless_broken hentry e later
  have hattempts : pending.attempts = before := congrArg ImportEntry.attempts hpending
  have hverdict : verdict block.id outcome (before + 1) =
      .error (.fatal block.id (pending.attempts + 1) e) := by
    rw [verdict, herror, hattempts]
  obtain ⟨hwrote, _⟩ := wrote_of_goes rfl hattempt
  cases hwrote with
  | nothing hreason hwritten hcommits =>
      rw [← hverdict]
      refine .last (hlast.imp_right fun hlasting e' he' => ?_) ?_ ?_ fun detail hinternal => ?_
      · obtain rfl : e = e' := Except.error.inj (herror.symm.trans he')
        exact hlasting
      · rw [finalStages, herror, lastFailure_of_error herror]
        simp only [writtenIn_append, writtenIn_begun, hwritten, writtenIn_broken,
          List.cons_append, List.nil_append, List.map_cons, List.map_nil, hentry, hbroken]
        rfl
      · rw [herror]
        simp only [commitsIn_append, commitsIn_moving, hcommits]
        rfl
      · rw [herror] at hinternal
        exact hreason detail (Except.error.inj hinternal)

theorem of_again {latest : Int} {rest : List Said} {pause : Duration}
    (hpending : timeless pending = stage block.id .pending before (lastFailure outcome before))
    (herror : outcome (before + 1) = .error e) (htransient : e.isTransient = true)
    (hattempt : (commitBlock c block (begun pending now)).run.Goes said (.error e))
    (hrest : Accords block outcome (before + 1) left n rest r) :
    Accords block outcome before (left + 1) n
      (moving pending .inProgress none now ++
        (said ++ (moving (begun pending now) .failed (some e.message) later ++
          (⟨.count .blockRetries 1, ()⟩ :: ⟨.sleep pause, ()⟩ ::
            (moving (broken (begun pending now) e later) .pending none latest ++ rest))))) r := by
  have htext := lastFailure_of_error herror
  have hentry := timeless_begun hpending now
  have hbroken := timeless_broken hentry e later
  have hagain := timeless_requeued hbroken latest
  obtain ⟨hwrote, _⟩ := wrote_of_goes rfl hattempt
  cases hwrote with
  | nothing hreason hwritten hcommits =>
      refine hrest.retried herror htransient ?_ ?_ hreason
      · rw [retriedStages, Nat.add_sub_cancel, htext]
        simp only [writtenIn_append, writtenIn_begun, hwritten, writtenIn_broken,
          writtenIn_count, writtenIn_sleep, writtenIn_requeued, List.cons_append,
          List.nil_append, List.map_cons, hentry, hbroken, hagain]
      · simp only [commitsIn_append, commitsIn_moving, hcommits, commitsIn_count,
          commitsIn_sleep, List.nil_append]

end Ends

end Accords

theorem Loop.accords {left before : Nat} {pending : ImportEntry}
    {results : List (Except IngestError Unit)} {r : Except IngestError Outcome}
    {outcome : Nat → Except IngestError Unit}
    (h : Loop c block left pending log results r)
    (hpending : timeless pending =
      stage block.id .pending before (lastFailure outcome before))
    (houtcome : ∀ i (hi : i < results.length), results[i] = outcome (before + 1 + i)) :
    Accords block outcome before left (before + results.length) log r := by
  induction h generalizing before with
  | committed hattempt =>
      have hok : outcome (before + 1) = .ok () := (houtcome 0 Nat.zero_lt_one).symm
      exact .of_committed hpending hok hattempt
  | @gaveUp _ _ _ _ _ e hattempt hlast =>
      have herror : outcome (before + 1) = .error e := (houtcome 0 Nat.zero_lt_one).symm
      exact .of_gaveUp hpending herror hlast hattempt
  | @again left pending now later latest _ rest e results r hattempt htransient _ ih =>
      have herror : outcome (before + 1) = .error e := (houtcome 0 (Nat.zero_lt_succ _)).symm
      have hagain : timeless (requeued (broken (begun pending now) e later) latest) =
          stage block.id .pending (before + 1) (lastFailure outcome (before + 1)) := by
        rw [lastFailure_of_error herror]
        exact timeless_requeued (timeless_broken (timeless_begun hpending now) e later) latest
      have hrest :
          Accords block outcome (before + 1) left (before + 1 + results.length) rest r := by
        refine ih hagain fun i hi => ?_
        have hnext := houtcome (i + 1) (Nat.succ_lt_succ hi)
        rwa [List.getElem_cons_succ, ← Nat.add_assoc, Nat.add_right_comm] at hnext
      rw [List.length_cons, Nat.add_comm results.length, ← Nat.add_assoc]
      exact hrest.of_again hpending herror htransient hattempt

/-! ## Any sequence of outcomes -/

/-- Whether an attempt with a given import row can come to an outcome, by the right replies. -/
def Attainable (c : Config) (block : Block) (entry : ImportEntry)
    (outcome : Except IngestError Unit) : Prop :=
  ∃ said, (commitBlock c block entry).run.Goes said outcome

theorem attainable_of_goes {entry : ImportEntry} {rows : BlockRows} {said : List Said}
    (h : (normalize c block entry).run.Goes said (.ok rows)) : Attainable c block entry (.ok ()) :=
  ⟨said ++ [⟨.store (.commit rows), .ok ()⟩], goes_step_bind_iff.mpr
    (.inr ⟨said, _, rows, rfl, h, .ok (), [], rfl, rfl, rfl⟩)⟩

theorem attainable_ok {node : Conduct} {base : Store} {entry : ImportEntry}
    (hresponds : node.Responds) (hnormalizes : Normalizes node c block base)
    (hid : entry.id = block.id) (hstatus : entry.status = .inProgress) :
    Attainable c block entry (.ok ()) := by
  let w : World := { World.fresh c with store := base.recordStatus entry }
  obtain ⟨r, w', hruns⟩ := exists_runs hresponds (normalize c block entry) w
  obtain ⟨rows, rfl⟩ := hnormalizes entry w r w' hid hstatus rfl hruns
  obtain ⟨said, hsaid⟩ := exists_says hruns
  exact attainable_of_goes hsaid.goes

theorem attainable_of_node {entry : ImportEntry} (e : NodeError) :
    Attainable c block entry (.error (.node e)) := by
  obtain ⟨said, hsaid⟩ := exists_goes_callWith_error c (.receipts block.hash) e c.nodeRetries
  have hreceipts : (callNode c (.receipts block.hash)).run.Goes said (.error (.node e)) :=
    goes_callNode_iff.mpr ⟨.error e, hsaid, rfl⟩
  exact ⟨said, goes_step_bind_iff.mpr (.inl ⟨_, rfl, goes_step_bind_iff.mpr
    (.inl ⟨_, rfl, hreceipts⟩)⟩)⟩

/-- Whatever outcomes attempts can come to, one after another, there is a loop in which they do. -/
theorem exists_loop {outcome : Nat → Except IngestError Unit}
    (hattainable : ∀ entry, entry.id = block.id → entry.status = .inProgress →
      Attainable c block entry (outcome entry.attempts))
    (left : Nat) {pending : ImportEntry} (hid : pending.id = block.id) :
    ∃ log results r, Loop c block left pending log results r ∧
      ∀ i (hi : i < results.length), results[i] = outcome (pending.attempts + 1 + i) := by
  have hfirst : ∀ {result} {results : List (Except IngestError Unit)} {attempts : Nat},
      outcome (attempts + 1) = result →
      (∀ i (hi : i < results.length), results[i] = outcome (attempts + 1 + 1 + i)) →
      ∀ i (hi : i < (result :: results).length),
        (result :: results)[i] = outcome (attempts + 1 + i) := by
    intro result results attempts hresult hresults i hi
    cases i with
    | zero => exact hresult.symm
    | succ i =>
        have hnext := hresults i (Nat.lt_of_succ_lt_succ hi)
        rw [List.getElem_cons_succ, hnext, Nat.add_right_comm, Nat.add_assoc]
  have hnone : ∀ {attempts : Nat} i (hi : i < ([] : List (Except IngestError Unit)).length),
      ([] : List (Except IngestError Unit))[i] = outcome (attempts + 1 + 1 + i) :=
    fun i hi => absurd hi (Nat.not_lt_zero i)
  induction left using Nat.strongRecOn generalizing pending with
  | ind left ih =>
    obtain ⟨said, hsaid⟩ := hattainable (begun pending 0) hid rfl
    change (commitBlock c block _).run.Goes said (outcome (pending.attempts + 1)) at hsaid
    cases hresult : outcome (pending.attempts + 1) with
    | ok _ =>
        rw [hresult] at hsaid
        exact ⟨_, _, _, .committed hsaid, hfirst hresult hnone⟩
    | error e =>
        rw [hresult] at hsaid
        by_cases hlast : left = 0 ∨ e.isTransient = false
        · exact ⟨_, _, _, @Loop.gaveUp c block left pending 0 0 said e hsaid hlast,
            hfirst hresult hnone⟩
        · obtain ⟨hleft, htransient⟩ := not_or.mp hlast
          obtain ⟨fewer, rfl⟩ := Nat.exists_eq_succ_of_ne_zero hleft
          have htransient : e.isTransient = true := by simpa using htransient
          have hagain : (requeued (broken (begun pending 0) e 0) 0).id = block.id := hid
          obtain ⟨log, results, r, hloop, hresults⟩ := ih fewer (Nat.lt_succ_self fewer) hagain
          exact ⟨_, _, _, .again hsaid htransient hloop, hfirst hresult hresults⟩

/-! ## The import of a block -/

/-- Whether the store, asked first for the import row of the block's height, has none that tells
that the block was committed. -/
def Unimported (block : Block) (log : List Said) : Prop :=
  ∃ found, log.head? = some (⟨.store (.importStatus block.number), .ok found⟩ : Said) ∧
    ∀ e, found = some e → e.hash = block.hash → e.canonical = true → e.status ≠ .committed

def preamble (block : Block) (found : Option ImportEntry) (now : Int) : List Said :=
  [⟨.store (.importStatus block.number), .ok found⟩, ⟨.count .blockDuration 1, ()⟩, ⟨.now, now⟩,
    ⟨.store (.recordStatus (.pending block.id now)), .ok ()⟩]

theorem of_goes_processBlock {r : Except IngestError Outcome} (hnew : Unimported block log)
    (hrecorded : Recorded log) (h : (processBlock c block).run.Goes log r) :
    ∃ found now rest, log = preamble block found now ++ rest ∧ Recorded rest ∧
      (attemptBlock c block (c.maxAttempts - 1) (.pending block.id now)).run.Goes rest r := by
  obtain ⟨found, hhead, hnot⟩ := hnew
  unfold processBlock at h
  rcases goes_store_bind_iff.mp h with ⟨e, rfl, _⟩ | ⟨existing, rest, rfl, h₁⟩
  · cases hhead
  obtain rfl : existing = found := by
    cases hhead
    rfl
  split at h₁
  · next hcommitted =>
    obtain ⟨e, he, htest⟩ := Option.any_eq_true _ _ |>.mp hcommitted
    simp only [Bool.and_eq_true, decide_eq_true_eq] at htest
    exact absurd htest.2 (hnot e he htest.1.1 htest.1.2)
  · obtain ⟨_, _, rfl, now, _, rfl, hstore⟩ := h₁
    rcases goes_store_bind_iff.mp hstore with ⟨e, rfl, _⟩ | ⟨_, rest, rfl, hnext⟩
    · cases hrecorded (.pending block.id now) (.error e) (by simp)
    · have hparts : Recorded (preamble block existing now ++ rest) := hrecorded
      exact ⟨existing, now, rest, rfl, (recorded_append.mp hparts).2, hnext⟩

theorem goes_processBlock {now : Int} {r : Except IngestError Outcome}
    (h : (attemptBlock c block (c.maxAttempts - 1) (.pending block.id now)).run.Goes log r) :
    (processBlock c block).run.Goes (preamble block none now ++ log) r := by
  unfold processBlock
  refine goes_store_bind_iff.mpr (.inr ⟨none, _, rfl, ?_⟩)
  exact ⟨(), _, rfl, now, _, rfl, goes_store_bind_iff.mpr (.inr ⟨(), log, rfl, h⟩)⟩

theorem recorded_preamble (found : Option ImportEntry) (now : Int) :
    Recorded (preamble block found now) := by
  intro entry reply hmem
  simp only [preamble, List.mem_cons, List.not_mem_nil, or_false] at hmem
  rcases hmem with hmem | hmem | hmem | hmem
  · cases hmem
  · cases hmem
  · cases hmem
  · cases hmem
    rfl

theorem calm_preamble (found : Option ImportEntry) (now : Int) :
    ∀ e ∈ preamble block found now, e.question.Calm := by
  simp [preamble, Request.Calm]

/-- A block that the store does not have yet is tried until an attempt succeeds, or fails for a
reason that cannot go away, or is the last permitted one.  So the outcomes of the attempts, however
they would go on, tell how many are made.  They also tell each import row that is written, with
its attempts and its error text; that no row follows another which it must not follow, so
that nothing ever fails for an illegal move; whether the rows of the block are committed, and what
is reported.  Beyond that the surroundings only have to record the import rows, and whatever
outcomes attempts can come to, in any order, there are surroundings in which they do. -/
theorem processBlock_attempts (c : Config) (block : Block) :
    (∀ {σ : Type} {R : Dialogue.Rule Request Request.Reply σ} {s s' : σ} {log : List Said}
        {r : Except IngestError Outcome},
      Dialogue.Transcript R (processBlock c block).run s log r s' → Unimported block log →
      Recorded log → (∃ results, Attempts c block 0 log results) ∧
        ∀ results, Attempts c block 0 log results → ∀ outcome : Nat → Except IngestError Unit,
          (∀ i (hi : i < results.length), results[i] = outcome (i + 1)) →
          let n := results.length
          IsLeast {i | 1 ≤ i ∧ (i = max 1 c.maxAttempts ∨ Settles (outcome i))} n ∧
          (writtenIn log).map timeless = stages block.id outcome n ∧
          ((writtenIn log).map ImportEntry.status).IsChain (fun a b => a.canBecome b = true) ∧
          ((writtenIn log).getLast?).map ImportEntry.lastError = some (lastFailure outcome n) ∧
          ((commitsIn log).map BlockRows.block = if (outcome n).isOk then [block] else []) ∧
          r = (match outcome n with
            | .ok _ => .ok (.committed block.id)
            | .error e => .error (.fatal block.id n e)) ∧
          ∀ detail, r ≠ .error (.internal detail) ∧
            ∀ i, 1 ≤ i → i ≤ n → outcome i ≠ .error (.internal detail)) ∧
    ∀ outcome : Nat → Except IngestError Unit,
      (∀ entry, entry.id = block.id → entry.status = .inProgress →
        Attainable c block entry (outcome entry.attempts)) →
      ∃ log r results, (processBlock c block).run.Goes log r ∧ Unimported block log ∧
        Recorded log ∧ Attempts c block 0 log results ∧
        ∀ i (hi : i < results.length), results[i] = outcome (i + 1) := by
  constructor
  · intro σ R s s' log r htranscript hnew hrecorded
    obtain ⟨found, now, rest, rfl, hrest, hgoes⟩ :=
      of_goes_processBlock hnew hrecorded htranscript.goes
    obtain ⟨results, hloop⟩ := loop_of_goes rfl hrest hgoes
    have hattempts : Attempts c block 0 (preamble block found now ++ rest) results :=
      .of_aside (calm_preamble found now) (hloop.attempts rfl)
    refine ⟨⟨results, hattempts⟩, fun results' hattempts' outcome houtcome => ?_⟩
    obtain rfl := hattempts'.unique hattempts
    intro n
    have hpending : timeless (.pending block.id now) =
        stage block.id .pending 0 (lastFailure outcome 0) := rfl
    have haccords := hloop.accords hpending fun i hi => by
      rw [houtcome i hi, Nat.zero_add, Nat.add_comm]
    rw [Nat.zero_add] at haccords
    change Accords block outcome 0 (c.maxAttempts - 1) n rest r at haccords
    have hpermitted : 0 + (c.maxAttempts - 1) + 1 = max 1 c.maxAttempts := by omega
    have hleast := haccords.least
    rw [hpermitted] at hleast
    have hwritten : (writtenIn (preamble block found now ++ rest)).map timeless =
        stages block.id outcome n := by
      rw [writtenIn_append, List.map_append, haccords.written]
      rfl
    have hstatuses : (writtenIn (preamble block found now ++ rest)).map ImportEntry.status =
        (stages block.id outcome n).map ImportEntry.status := by
      rw [← hwritten, List.map_map]
      rfl
    refine ⟨hleast, hwritten, hstatuses ▸ isChain_stages n, ?_, ?_, haccords.result,
      fun detail => ⟨?_, fun i => haccords.reasons i detail⟩⟩
    · rw [← getLast?_stages n hleast.1.1, ← hwritten, List.getLast?_map, Option.map_map]
      rfl
    · rw [commitsIn_append, List.map_append, haccords.committed]
      rfl
    · rw [haccords.result, verdict]
      split
      · exact fun hinternal => nomatch hinternal
      · exact fun hinternal => nomatch hinternal
  · intro outcome hattainable
    have hid : (ImportEntry.pending block.id 0).id = block.id := rfl
    obtain ⟨log, results, r, hloop, hresults⟩ :=
      exists_loop hattainable (c.maxAttempts - 1) hid
    refine ⟨preamble block none 0 ++ log, r, results, goes_processBlock (hloop.goes rfl),
      ⟨none, rfl, fun _ hnone => nomatch hnone⟩,
      recorded_append.mpr ⟨recorded_preamble none 0, hloop.recorded⟩,
      .of_aside (calm_preamble none 0) (hloop.attempts hid), fun i hi => ?_⟩
    rw [hresults i hi]
    congr 1
    exact (Nat.add_right_comm 0 1 i).trans (congrArg (· + 1) (Nat.zero_add i))

/-- A block whose first attempt finds the node away is committed by the second one. -/
def awayOnce (i : Nat) : Except IngestError Unit :=
  if i = 1 then .error (.node (.unavailable "away")) else .ok ()

theorem attainable_awayOnce (entry : ImportEntry) (hid : entry.id = bottomBlock.id)
    (hstatus : entry.status = .inProgress) :
    Attainable threeAttempts bottomBlock entry (awayOnce entry.attempts) := by
  have hnormalizes : Normalizes promptNode threeAttempts bottomBlock .empty :=
    normalizes_of_empty rfl (fun _ _ hreply => hreply) (by decide +kernel)
  have hresponds : promptNode.Responds := fun _ _ => ⟨_, rfl⟩
  rw [awayOnce]
  split
  · exact attainable_of_node _
  · exact attainable_ok hresponds hnormalizes hid hstatus

theorem processBlock_attempts_awayOnce : ∃ log,
    (processBlock threeAttempts bottomBlock).run.Goes log (.ok (.committed bottomBlock.id)) ∧
      (commitsIn log).map BlockRows.block = [bottomBlock] ∧
      ∃ text, text = some (IngestError.node (.unavailable "away")).message ∧
        (writtenIn log).map (fun e => (e.status, e.attempts, e.lastError)) =
          [(.pending, 0, none), (.inProgress, 1, none), (.failed, 1, text), (.pending, 1, text),
            (.inProgress, 2, text), (.committed, 2, text)] := by
  obtain ⟨hall, hsome⟩ := processBlock_attempts threeAttempts bottomBlock
  obtain ⟨log, r, results, hgoes, hnew, hrecorded, hattempts, hresults⟩ :=
    hsome awayOnce attainable_awayOnce
  obtain ⟨_, hevery⟩ := hall (Dialogue.transcript_of_goes hgoes) hnew hrecorded
  obtain ⟨hleast, hwritten, _, _, hcommits, hr, _⟩ := hevery results hattempts awayOnce hresults
  have htwo : IsLeast {i | 1 ≤ i ∧ (i = max 1 threeAttempts.maxAttempts ∨ Settles (awayOnce i))}
      2 := by
    refine ⟨⟨by decide, .inr fun e he => nomatch he⟩, fun i hi => ?_⟩
    by_contra hlow
    obtain rfl : i = 1 := by
      have hpos := hi.1
      omega
    rcases hi.2 with hlast | hsettles
    · exact absurd hlast (by decide)
    · exact absurd (hsettles _ rfl) (by decide)
  rw [hleast.unique htwo] at hwritten hcommits hr
  subst hr
  refine ⟨log, hgoes, hcommits, _, rfl, ?_⟩
  have hrows := congrArg (List.map fun e => (e.status, e.attempts, e.lastError)) hwritten
  rw [List.map_map] at hrows
  exact hrows

end ChainIngest.Importer
