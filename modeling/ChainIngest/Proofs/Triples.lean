import ChainIngest.Proofs.Histories
import ChainIngest.Proofs.StepEffect
/-!
# Triples

What holds while a step runs, wherever it stops: a triple gives what is assumed
before, what then holds at every end, be it a result, a failure or a break, and what
holds beside a result.  A property that the steps apart from commits cannot touch is
kept by a whole import step if committing a block keeps it.
-/

namespace ChainIngest.Importer

variable {α β : Type} {node : Conduct} {c : Config} {P I : World → Prop}

/-- From `P` on, a step ends in `I`, however it ends, and in `Q` if it has a result. -/
def Triple (node : Conduct) (P : World → Prop) (step : Step α) (I : World → Prop)
    (Q : α → World → Prop) : Prop :=
  ∀ w out w', P w → Runs node step w out w' → I w' ∧ ∀ a, out = some (.ok a) → Q a w'

/-- A step that keeps a property, however it ends. -/
def Keeps (node : Conduct) (step : Step α) (I : World → Prop) : Prop :=
  Triple node I step I fun _ => I

/-! ## Rules -/

theorem Triple.post {step : Step α} {Q R : α → World → Prop} (h : Triple node P step I Q)
    (hQ : ∀ a w, Q a w → R a w) : Triple node P step I R := by
  intro w out w' hP hruns
  obtain ⟨hI, hresult⟩ := h w out w' hP hruns
  exact ⟨hI, fun a hout => hQ a w' (hresult a hout)⟩

theorem Triple.pre {φ : Prop} {step : Step α} {Q : α → World → Prop}
    (h : φ → Triple node P step I Q) : Triple node (fun w => P w ∧ φ) step I Q :=
  fun w out w' hP => h hP.2 w out w' hP.1

theorem Triple.adding {step : Step α} {Q : α → World → Prop} {φ : α → Prop}
    (h : Triple node P step I Q)
    (hφ : ∀ w a w', P w → Runs node step w (some (.ok a)) w' → φ a) :
    Triple node P step I fun a w => Q a w ∧ φ a := by
  intro w out w' hP hruns
  obtain ⟨hI, hresult⟩ := h w out w' hP hruns
  refine ⟨hI, fun a hout => ⟨hresult a hout, hφ w a w' hP ?_⟩⟩
  rw [← hout]
  exact hruns

theorem Triple.bind {x : Step α} {f : α → Step β} {Q : α → World → Prop} {R : β → World → Prop}
    (hx : Triple node P x I Q) (hf : ∀ a, Triple node (Q a) (f a) I R) :
    Triple node P (x >>= f) I R := by
  intro w out w' hP h
  rcases runs_bind_iff.mp h with ⟨rfl, hcut⟩ | ⟨e, hout, herror⟩ | ⟨a, w₁, hok, hnext⟩
  · exact ⟨(hx w _ w' hP hcut).1, fun _ hnone => by cases hnone⟩
  · refine ⟨(hx w _ w' hP herror).1, fun b hsome => ?_⟩
    exact absurd hsome (unfinished_of_error hout b)
  · exact hf a w₁ out w' ((hx w _ w₁ hP hok).2 a rfl) hnext

theorem triple_ofExcept {r : Except IngestError α} {Q : α → World → Prop} (hI : ∀ w, P w → I w)
    (hQ : ∀ a w, r = .ok a → P w → Q a w) : Triple node P (Step.ofExcept r) I Q := by
  intro w out w' hP h
  obtain ⟨hout, rfl⟩ := runs_ofExcept_iff.mp h
  refine ⟨hI _ hP, fun a hsome => hQ a _ ?_ hP⟩
  rcases hout with rfl | rfl
  · cases hsome
  · exact Option.some.inj hsome

theorem triple_pure {a : α} {Q : α → World → Prop} (hI : ∀ w, P w → I w) (hQ : ∀ w, P w → Q a w) :
    Triple node P (pure a : Step α) I Q := by
  refine triple_ofExcept (r := .ok a) hI fun b w hb hP => ?_
  cases hb
  exact hQ w hP

theorem triple_request {r : Request} {Q : r.Reply → World → Prop} (hI : ∀ w, P w → I w)
    (hreply : ∀ w reply w', P w → Replies node r w reply w' → I w' ∧ Q reply w') :
    Triple node P (Step.request r) I Q := by
  intro w out w' hP h
  rcases runs_request h with ⟨rfl, rfl⟩ | ⟨reply, hr, hout⟩
  · exact ⟨hI _ hP, fun _ hnone => by cases hnone⟩
  · obtain ⟨hI', hQ⟩ := hreply w reply w' hP hr
    refine ⟨hI', fun a hsome => ?_⟩
    rcases hout with rfl | rfl
    · cases hsome
    · cases hsome
      exact hQ

theorem triple_store {task : StoreTask} {Q : task.Answer → World → Prop} (hI : ∀ w, P w → I w)
    (hdone : ∀ w now, P w → I (w.storing task now) ∧
      Q (w.store.perform task now).1 (w.storing task now)) :
    Triple node P (Step.store task) I Q := by
  intro w out w' hP h
  rcases runs_store h with ⟨hout, rfl⟩ | ⟨now, rfl, hout⟩
  · exact ⟨hI _ hP, fun a hsome => absurd hsome (hout a)⟩
  · obtain ⟨hI', hQ⟩ := hdone w now hP
    refine ⟨hI', fun a hsome => ?_⟩
    rcases hout with rfl | rfl
    · cases hsome
    · cases hsome
      exact hQ

theorem triple_callNode {call : NodeCall} {Q : call.Answer → World → Prop} (hI : ∀ w, P w → I w)
    (hasked : ∀ w, P w → I (w.asking call))
    (hQ : ∀ a w, P w → node (w.asking call).focus call (.ok a) → Q a (w.asking call)) :
    Triple node P (callNode c call) I Q := by
  intro w out w' hP h
  rcases runs_callNode h with ⟨hout, rfl | rfl⟩ | ⟨a, hout, hreply, rfl⟩
  · exact ⟨hI _ hP, fun a hsome => absurd hsome (hout a)⟩
  · exact ⟨hasked _ hP, fun a hsome => absurd hsome (hout a)⟩
  · refine ⟨hasked _ hP, fun a' hsome => ?_⟩
    rcases hout with rfl | rfl
    · cases hsome
    · cases hsome
      exact hQ a w hP hreply

/-! ## Steps that keep a property -/

theorem Keeps.bind {x : Step α} {f : α → Step β} (hx : Keeps node x I)
    (hf : ∀ a, Keeps node (f a) I) : Keeps node (x >>= f) I :=
  Triple.bind hx hf

theorem keeps_ofExcept (r : Except IngestError α) : Keeps node (Step.ofExcept r) I :=
  triple_ofExcept (fun _ h => h) fun _ _ _ h => h

theorem keeps_pure (a : α) : Keeps node (pure a : Step α) I := keeps_ofExcept (.ok a)

theorem keeps_throw (e : IngestError) : Keeps node (throw e : Step α) I := keeps_ofExcept (.error e)

theorem keeps_ite {p : Prop} [Decidable p] {x y : Step α} (hx : Keeps node x I)
    (hy : Keeps node y I) : Keeps node (if p then x else y) I := by
  split
  · exact hx
  · exact hy

theorem keeps_request {r : Request}
    (hr : ∀ w reply w', I w → Replies node r w reply w' → I w') : Keeps node (Step.request r) I :=
  triple_request (fun _ h => h) fun w reply w' h hreply =>
    ⟨hr w reply w' h hreply, hr w reply w' h hreply⟩

theorem keeps_now : Keeps node (Step.request .now) I :=
  keeps_request fun _ _ _ h heq => heq ▸ h

theorem keeps_count (metric : Metric) (amount : Nat) :
    Keeps node (Step.request (.count metric amount)) I :=
  keeps_request fun _ _ _ h heq => heq ▸ h

theorem keeps_sleep (d : Duration) : Keeps node (Step.request (.sleep d)) I :=
  keeps_request fun _ _ _ h heq => heq ▸ h

theorem keeps_store {task : StoreTask} (htask : ∀ w now, I w → I (w.storing task now)) :
    Keeps node (Step.store task) I :=
  triple_store (fun _ h => h) fun w now h => ⟨htask w now h, htask w now h⟩

theorem keeps_attempt {x : Step α} (hx : Keeps node x I) : Keeps node (Step.attempt x) I := by
  intro w out w' h hruns
  obtain ⟨result, hcourse, _⟩ := runs_lift hruns
  have hend := (hx w result w' h hcourse).1
  exact ⟨hend, fun _ _ => hend⟩

/-- A property that nothing in an import step touches but commits and classifications. -/
structure Robust (I : World → Prop) : Prop where
  asking : ∀ w call, I w → I (w.asking call)
  setHead : ∀ (w : World) head, I w → I { w with head := head }
  recordStatus : ∀ w now e, I w → I (w.storing (.recordStatus e) now)
  markReorg : ∀ w now ancestor id, I w → I (w.storing (.markReorg ancestor id) now)

namespace Robust

variable (hI : Robust I)
include hI

theorem callNode (c : Config) (call : NodeCall) : Keeps node (callNode c call) I :=
  triple_callNode (fun _ h => h) (fun w h => hI.asking w call h) fun _ w h _ => hI.asking w call h

theorem move (entry : ImportEntry) (next : ImportStatus) (error : Option String) :
    Keeps node (move entry next error) I := by
  unfold Importer.move
  exact keeps_now.bind fun now => (keeps_ofExcept _).bind fun entry =>
    (keeps_store fun w now h => hI.recordStatus w now entry h).bind fun _ => keeps_pure _

theorem findAncestor (c : Config) (head : BlockId) (number : Nat) (hash : Hash) :
    Keeps node (findAncestor c head number hash) I := by
  induction number generalizing hash with
  | zero =>
      rw [findAncestor_eq]
      refine (keeps_store fun _ _ h => h).bind fun stored => ?_
      exact keeps_ite (keeps_ite (keeps_throw _) (keeps_pure _))
        (keeps_ite (keeps_throw _) (keeps_throw _))
  | succ below ih =>
      rw [findAncestor_eq]
      refine (keeps_store fun _ _ h => h).bind fun stored => ?_
      exact keeps_ite (keeps_ite (keeps_throw _) (keeps_pure _))
        (keeps_ite (keeps_throw _) ((hI.callNode c _).bind fun block => ih _))

theorem fetchTraces (c : Config) (txs : List Hash) : Keeps node (fetchTraces c txs) I := by
  induction txs with
  | nil => exact keeps_pure []
  | cons tx txs ih =>
      rw [Importer.fetchTraces]
      exact (hI.callNode c _).bind fun t => ih.bind fun ts => keeps_pure _

theorem setHead' (head : Option BlockId) : Keeps node (Step.request (.setHead head)) I :=
  keeps_request fun w _ _ h heq => heq ▸ hI.setHead w head h

theorem handleReorg (c : Config) (head candidate : BlockId) :
    Keeps node (handleReorg c head candidate) I := by
  unfold Importer.handleReorg
  exact (hI.findAncestor c _ _ _).bind fun ancestor =>
    (keeps_store fun w now h => hI.markReorg w now _ _ h).bind fun _ =>
    (hI.setHead' _).bind fun _ => (keeps_count _ _).bind fun _ => (keeps_count _ _).bind fun _ => keeps_pure _

theorem checkHead (c : Config) (head : BlockId) (latest : Nat) :
    Keeps node (checkHead c head latest) I := by
  unfold Importer.checkHead
  refine (hI.callNode c _).bind fun tip => keeps_ite ?_ ?_
  · exact (keeps_store fun _ _ h => h).bind fun stored =>
      keeps_ite (keeps_pure _) (hI.handleReorg c _ _)
  · exact keeps_ite (keeps_pure _) (hI.handleReorg c _ _)

theorem restoreHead (c : Config) : Keeps node (restoreHead c) I := by
  unfold Importer.restoreHead
  refine (keeps_store fun _ _ h => h).bind fun cursor => ?_
  cases cursor with
  | none => exact keeps_pure _
  | some cursor => exact (keeps_store fun _ _ h => h).bind fun _ => hI.setHead' _

variable {block : Block} (hcommit : ∀ entry, Keeps node (commitBlock c block entry) I)
include hcommit

theorem attemptBlock (left : Nat) (pending : ImportEntry) :
    Keeps node (attemptBlock c block left pending) I := by
  induction left generalizing pending with
  | zero =>
      unfold Importer.attemptBlock
      refine (hI.move _ _ _).bind fun entry => (keeps_attempt (hcommit entry)).bind fun r => ?_
      cases r with
      | ok u => exact (keeps_count _ _).bind fun _ => keeps_pure _
      | error e => exact (hI.move _ _ _).bind fun failed => keeps_throw _
  | succ left ih =>
      unfold Importer.attemptBlock
      refine (hI.move _ _ _).bind fun entry => (keeps_attempt (hcommit entry)).bind fun r => ?_
      cases r with
      | ok u => exact (keeps_count _ _).bind fun _ => keeps_pure _
      | error e =>
          exact (hI.move _ _ _).bind fun failed => keeps_ite
            ((keeps_count _ _).bind fun _ => (keeps_sleep _).bind fun _ => (hI.move _ _ _).bind fun again => ih _)
            (keeps_throw _)

theorem processBlock : Keeps node (processBlock c block) I := by
  unfold Importer.processBlock
  refine (keeps_store fun _ _ h => h).bind fun existing => keeps_ite (keeps_pure _) ?_
  exact (keeps_count _ _).bind fun _ => keeps_now.bind fun now =>
    (keeps_store fun w now h => hI.recordStatus w now _ h).bind fun _ =>
    hI.attemptBlock hcommit _ _

theorem importBlock (head : Option BlockId) : Keeps node (importBlock c head block) I := by
  unfold Importer.importBlock
  split
  · exact hI.handleReorg c _ _
  · exact (hI.processBlock hcommit).bind fun outcome => (hI.setHead' _).bind fun _ => keeps_pure _

end Robust

/-- What committing any block that the node may offer keeps, an import step keeps. -/
theorem keeps_importNext (hI : Robust I)
    (hcommit : ∀ number block, node.Gives (.block (.number number)) block →
      ∀ entry, Keeps node (commitBlock c block entry) I) : Keeps node (importNext c) I := by
  unfold importNext
  refine Keeps.bind (keeps_request ?_) fun head => (hI.callNode c _).bind fun latest => keeps_ite ?_ ?_
  · rintro w _ _ h ⟨_, rfl⟩
    exact h
  · cases head with
    | none => exact keeps_pure _
    | some head => exact hI.checkHead c head latest
  · refine Triple.bind (Q := fun block w => I w ∧ node.Gives (.block (.number _)) block) ?_ ?_
    · exact triple_callNode (fun _ h => h) (fun w h => hI.asking w _ h)
        fun a w h hreply => ⟨hI.asking w _ h, _, hreply⟩
    · rintro block w out w' ⟨h, hserved⟩ hruns
      exact hI.importBlock (hcommit _ block hserved) head w out w' h hruns

/-- What every commit keeps, and a change of importers, holds in every state of a history. -/
theorem Robust.of_reach {kind : Config → Prop} {at_work : Option Config} {w : World}
    (hI : Robust I) (hstart : ∀ c, I (.fresh c)) (hrenewed : ∀ w c, I w → I (w.renewed c))
    (hcommit : ∀ c, kind c → ∀ number block, node.Gives (.block (.number number)) block →
      ∀ entry, Keeps node (commitBlock c block entry) I)
    (h : Reach node kind at_work w) : I w := by
  induction h with
  | start c => exact hstart c
  | @enter c _ w w' _ _ hrestore ih =>
      exact (hI.restoreHead c _ _ w' (hrenewed w c ih) hrestore).1
  | @step c out w w' hreach hstep ih =>
      exact (keeps_importNext hI (hcommit c hreach.kind) w out w' ih hstep).1

end ChainIngest.Importer
