import ChainIngest.Importer.Run
import ChainIngest.Proofs.CanonicalChain
import ChainIngest.Proofs.Triples
/-!
# One chain to a store

Importers of any chains, beside nodes of any chains, take up one store in turn.  Before
it writes anything each compares its chain with the node's and with that of the cursor
written last.  One cursor is enough to look at: all there ever are speak of one chain,
and where there is none there is no block either.
-/

namespace ChainIngest.Importer

variable {σ : Type} {node : Conduct} {c : Config} {chain : Nat} {log : List Said} {s s' : Store}
  {w w' : World}

/-! ## Entering -/

def checkCursor (c : Config) : Option Cursor → Except IngestError Unit
  | some cursor =>
      if cursor.chainId = c.chainId then .ok ()
      else .error (.chainMismatch c.chainId cursor.chainId)
  | none => .ok ()

theorem verifyChain_eq (c : Config) :
    verifyChain c = (do
      let connected ← callNode c .chainId
      if connected = c.chainId then do
        let found ← Step.store .anyCursor
        Step.ofExcept (checkCursor c found)
      else throw (.chainMismatch connected c.chainId)) := by
  unfold verifyChain
  apply congrArg (callNode c .chainId >>= ·)
  funext connected
  by_cases hconnected : connected = c.chainId
  · rw [if_pos hconnected, if_neg (not_not.mpr hconnected)]
    apply congrArg (Step.store .anyCursor >>= ·)
    funext found
    cases found with
    | none => rfl
    | some cursor =>
        by_cases hcursor : cursor.chainId = c.chainId
        · simp only [checkCursor, hcursor, ne_eq, not_true_eq_false, if_true, if_false]
          rfl
        · simp only [checkCursor, hcursor, ne_eq, not_false_eq_true, if_true, if_false]
          rfl
  · rw [if_neg hconnected, if_pos hconnected]
    rfl

/-- Why an importer is not let in. -/
inductive Refusal (node : Conduct) (c : Config) (s : Store) : IngestError → Prop where
  | connected {id : Nat} : node.Gives .chainId id → id ≠ c.chainId →
      Refusal node c s (.chainMismatch id c.chainId)
  | stored {id : Nat} {cursor : Cursor} : s.cursor? id = some cursor → cursor.chainId ≠ c.chainId →
      Refusal node c s (.chainMismatch c.chainId cursor.chainId)
  | unanswered {focus : Option Hash} {e : NodeError} : node focus .chainId (.error e) →
      Refusal node c s (.node e)

theorem cursor_of_anyCursor {cursor : Cursor} (h : s.anyCursor? = some cursor) :
    ∃ id, s.cursor? id = some cursor := by
  apply Store.Table.mem_rows_iff.mp
  refine (mem_of_foldl_eq_some (fun best x => ?_) s.cursors.rows none h).resolve_left (by simp)
  cases best with
  | none => exact .inr rfl
  | some b =>
      dsimp only
      split
      · exact .inr rfl
      · exact .inl rfl

theorem isSome_foldl {α : Type} {f : Option α → α → Option α}
    (hf : ∀ best x, (f best x).isSome) (xs : List α) (best : Option α)
    (h : best.isSome ∨ xs ≠ []) : (xs.foldl f best).isSome := by
  induction xs generalizing best with
  | nil => exact h.resolve_right (by simp)
  | cons x xs ih => exact ih (f best x) (.inl (hf best x))

theorem cursor?_eq_none_of_anyCursor (h : s.anyCursor? = none) (id : Nat) : s.cursor? id = none := by
  apply Option.eq_none_iff_forall_ne_some.mpr
  intro cursor hcursor
  have hrows : s.cursors.rows ≠ [] :=
    List.ne_nil_of_mem (Store.Table.mem_rows_iff.mpr ⟨id, hcursor⟩)
  have hsome : s.anyCursor?.isSome := by
    refine isSome_foldl (fun best x => ?_) s.cursors.rows none (.inr hrows)
    cases best with
    | none => rfl
    | some b =>
        dsimp only
        split <;> rfl
  rw [h] at hsome
  cases hsome

/-- What can become of an importer that asks to be let in, with what the node has answered. -/
inductive Admission (node : Conduct) (c : Config) (s : Store) :
    List Answered → Except IngestError Unit → Prop where
  | refused {answers : List Answered} {e : IngestError} : Refusal node c s e →
      Admission node c s answers (.error e)
  /-- The node reports the importer's chain, and no other has the last cursor. -/
  | admitted : (∀ cursor, s.anyCursor? = some cursor → cursor.chainId = c.chainId) →
      Admission node c s [⟨.chainId, c.chainId⟩] (.ok ())

theorem Admission.of_ok {answers : List Answered} (h : Admission node c s answers (.ok ())) :
    answers = [⟨.chainId, c.chainId⟩] ∧
      ∀ cursor, s.anyCursor? = some cursor → cursor.chainId = c.chainId := by
  cases h with
  | admitted hcursors => exact ⟨rfl, hcursors⟩

theorem Admission.of_error {answers : List Answered} {e : IngestError}
    (h : Admission node c s answers (.error e)) : Refusal node c s e := by
  cases h with
  | refused hrefused => exact hrefused

theorem admission_of_verifyChain {r : Except IngestError Unit}
    (h : Tells node (verifyChain c) w log r w') : Admission node c w.store (answersIn log) r := by
  rw [verifyChain_eq] at h
  rcases tells_bind h with ⟨e, rfl, hfailed⟩ | ⟨log₁, log₂, connected, w₁, rfl, hcall, hnext⟩
  · obtain ⟨_, _, ⟨_, hok, _⟩ | ⟨e, focus, herror, hreply⟩⟩ := tells_callNode hfailed
    · cases hok
    · cases herror
      exact .refused (.unanswered hreply)
  rw [answersIn_append, answersIn_callNode hcall]
  split at hnext
  · next hconnected =>
    subst hconnected
    obtain ⟨log₃, rfl, hchecked⟩ :=
      tells_bind_look (by simp [StoreTask.IsCommit]) (fun _ => rfl) hnext
    obtain ⟨rfl, rfl, _⟩ := tells_ofExcept hchecked
    have hstore : w₁.store = w.store := (quiet_callNode c _ _ _ _ hcall.runs).1
    rw [answersIn_store, hstore]
    cases hfound : w.store.anyCursor? with
    | none => exact .admitted fun _ hsome => nomatch hfound.symm.trans hsome
    | some cursor =>
        unfold checkCursor
        dsimp only
        split
        · next hcursor =>
          refine .admitted fun _ hsome => ?_
          cases hfound.symm.trans hsome
          exact hcursor
        · next hcursor =>
          obtain ⟨id, hid⟩ := cursor_of_anyCursor hfound
          exact .refused (.stored hid hcursor)
  · next hconnected =>
    obtain ⟨_, rfl, _⟩ := tells_ofExcept hnext
    exact .refused (.connected (gives_of_callNode hcall.runs) hconnected)

theorem tells_restoreHead {r : Except IngestError Unit} (h : Tells node (restoreHead c) w log r w') :
    r = .ok () ∧ answersIn log = [] := by
  unfold restoreHead at h
  obtain ⟨log₁, rfl, h₁⟩ := tells_bind_look (by simp [StoreTask.IsCommit]) (fun _ => rfl) h
  split at h₁
  · cases h₁
    exact ⟨rfl, rfl⟩
  · obtain ⟨log₂, rfl, h₂⟩ := tells_bind_look (by simp [StoreTask.IsCommit]) (fun _ => rfl) h₁
    cases h₂ with
    | ask _ hdone =>
        cases hdone
        exact ⟨rfl, rfl⟩

theorem admission_of_enter {r : Except IngestError Unit} (h : Tells node (enter c) w log r w') :
    Admission node c w.store (answersIn log) r := by
  unfold enter at h
  rcases tells_bind h with ⟨e, rfl, hfailed⟩ | ⟨log₁, log₂, _, w₁, rfl, hverified, hrestored⟩
  · exact admission_of_verifyChain hfailed
  · obtain ⟨rfl, hquiet⟩ := tells_restoreHead hrestored
    rw [answersIn_append, hquiet, List.append_nil]
    exact admission_of_verifyChain hverified

/-- Entering writes nothing, wherever it breaks off. -/
theorem store_of_enter {out : Option (Except IngestError Unit)} (h : Runs node (enter c) w out w') :
    w'.store = w.store := by
  have hcall : Keeps node (callNode c .chainId) (fun w₁ => w₁.store = w.store) :=
    triple_callNode (fun _ h => h) (fun _ h => h) fun _ _ h _ => h
  have hverify : Keeps node (verifyChain c) (fun w₁ => w₁.store = w.store) := by
    rw [verifyChain_eq]
    exact hcall.bind fun connected => keeps_ite
      ((keeps_store fun _ _ h => h).bind fun found => keeps_ofExcept _) (keeps_throw _)
  have hrestore : Keeps node (restoreHead c) (fun w₁ => w₁.store = w.store) := by
    refine (keeps_store fun _ _ h => h).bind fun cursor => ?_
    cases cursor with
    | none => exact keeps_pure _
    | some cursor =>
        refine (keeps_store fun _ _ h => h).bind fun _ => keeps_request ?_
        rintro _ _ _ h rfl
        exact h
  exact ((hverify.bind fun _ => hrestore) w out w' rfl h).1

/-! ## Importers of any chains -/

/-- An importer that was let in: the node beside it, its settings, and the chain that the node
reported. -/
structure Visit where
  node : Conduct
  config : Config
  reported : Nat

/-- The states that importers in turn lead to, each with a node and settings of its own, from an
empty store on; with all that were let in and all earlier tables, the last ones first, and the
importer at work.  Entries and steps may fail, and may break off between any two requests. -/
inductive Chronicle : List Visit → List Store → Option Visit → World → Prop where
  | start (c : Config) : Chronicle [] [] none (.fresh c)
  | entered {visits : List Visit} {past : List Store} {at_work : Option Visit} {v : Visit}
      {log : List Said} {w w' : World} : Chronicle visits past at_work w →
      Says v.node (enter v.config) (w.renewed v.config) log () w' →
      ⟨.chainId, v.reported⟩ ∈ answersIn log →
      Chronicle (v :: visits) (w.store :: past) (some v) w'
  | refused {visits : List Visit} {past : List Store} {at_work : Option Visit} {node : Conduct}
      {c : Config} {out : Option (Except IngestError Unit)} {w w' : World} :
      Chronicle visits past at_work w → Runs node (enter c) (w.renewed c) out w' →
      Unfinished out → Chronicle visits (w.store :: past) none w'
  | step {visits : List Visit} {past : List Store} {v : Visit}
      {out : Option (Except IngestError Outcome)} {w w' : World} :
      Chronicle visits past (some v) w → Runs v.node (importNext v.config) w out w' →
      Chronicle visits (w.store :: past) (if out.isSome then some v else none) w'

variable {visits : List Visit} {past : List Store} {at_work : Option Visit}

/-! ## Tables of one chain -/

def Visit.On (v : Visit) (chain : Nat) : Prop := v.reported = chain ∧ v.config.chainId = chain

/-- Tables that importers of one chain have written. -/
structure OneChain (visits : List Visit) (chain : Nat) (s : Store) : Prop where
  cursors : ∀ {id cursor}, s.cursor? id = some cursor → id = chain ∧ cursor.chainId = chain
  blocks : ∀ {hash row}, s.blocks.get? hash = some row → ∃ v ∈ visits, v.On chain ∧
    ∃ number, v.node.Gives (.block (.number number)) row.block
  /-- Without a cursor there is no block. -/
  marked : s.cursor? chain = none → ∀ hash, s.blocks.get? hash = none

namespace OneChain

theorem empty (visits : List Visit) (chain : Nat) : OneChain visits chain .empty where
  cursors h := by cases h
  blocks h := by cases h
  marked _ _ := rfl

theorem more (h : OneChain visits chain s) (v : Visit) : OneChain (v :: visits) chain s where
  cursors := h.cursors
  blocks hrow := by
    obtain ⟨u, hu, hblock⟩ := h.blocks hrow
    exact ⟨u, List.mem_cons_of_mem v hu, hblock⟩
  marked := h.marked

/-- Where there is no cursor yet, any chain may be the one. -/
theorem rechain (h : OneChain visits chain s) (hnone : ∀ id, s.cursor? id = none) (chain' : Nat) :
    OneChain visits chain' s where
  cursors hcursor := nomatch (hnone _).symm.trans hcursor
  blocks hrow := nomatch (h.marked (hnone chain) _).symm.trans hrow
  marked _ := h.marked (hnone chain)

theorem of_anyCursor (h : OneChain visits chain s) {chain' : Nat}
    (hcursors : ∀ cursor, s.anyCursor? = some cursor → cursor.chainId = chain') :
    OneChain visits chain' s := by
  cases hlast : s.anyCursor? with
  | none => exact h.rechain (cursor?_eq_none_of_anyCursor hlast) chain'
  | some cursor =>
      obtain ⟨id, hid⟩ := cursor_of_anyCursor hlast
      obtain rfl : chain = chain' := (h.cursors hid).2.symm.trans (hcursors cursor hlast)
      exact h

theorem of_touched {id : BlockId} (h : OneChain visits chain s) (htouched : Touched id s s') :
    OneChain visits chain s' := by
  rcases htouched with rfl | ⟨e, _, _, _, rfl⟩
  · exact h
  · exact ⟨h.cursors, h.blocks, h.marked⟩

theorem cursors_insert {cursor cursor' : Cursor} {id : Nat} (h : OneChain visits chain s)
    (hchain : cursor.chainId = chain)
    (hget : (s.cursors.insert chain cursor).get? id = some cursor') :
    id = chain ∧ cursor'.chainId = chain := by
  by_cases hid : chain = id
  · subst hid
    rw [Store.Table.get?_insert_self] at hget
    cases hget
    exact ⟨rfl, hchain⟩
  · rw [Store.Table.get?_insert_of_ne _ _ hid] at hget
    exact h.cursors hget

theorem markReorg (h : OneChain visits chain s) (ancestor : BlockId) (now : Int) :
    OneChain visits chain (s.markReorg ancestor chain now) where
  cursors hcursor := h.cursors_insert rfl hcursor
  blocks hrow := by
    obtain ⟨old, hold, hblock⟩ := stored_of_markReorg hrow
    rw [hblock]
    exact h.blocks hold
  marked hnone := by
    rw [Store.markReorg, Store.cursor?, Store.Table.get?_insert_self] at hnone
    cases hnone

theorem commit {rows : BlockRows} {v : Visit} {number : Nat} (h : OneChain visits chain s)
    (hcursor : rows.cursor.chainId = chain) (hv : v ∈ visits) (hon : v.On chain)
    (hserved : v.node.Gives (.block (.number number)) rows.block) :
    OneChain visits chain (s.commit rows) where
  cursors {id cursor} hget := by
    rw [Store.cursor?, Store.commit, hcursor] at hget
    exact h.cursors_insert hcursor hget
  blocks hrow := by
    rcases stored_of_commit hrow with ⟨_, hblock⟩ | ⟨old, hold, hblock⟩
    · rw [hblock]
      exact ⟨v, hv, hon, number, hserved⟩
    · rw [hblock]
      exact h.blocks hold
  marked hnone := by
    rw [Store.commit, Store.cursor?, hcursor, Store.Table.get?_insert_self] at hnone
    cases hnone

theorem of_step {v : Visit} {out : Option (Except IngestError Outcome)}
    (h : OneChain visits chain w.store) (hv : v ∈ visits) (hon : v.On chain)
    (heffect : StepEffect v.node v.config w out w') : OneChain visits chain w'.store := by
  cases heffect with
  | nothing _ hsame => exact hsame.1 ▸ h
  | idle _ hsame => exact hsame.1 ▸ h
  | skipped _ _ _ _ _ hstore _ => exact hstore ▸ h
  | touched _ _ htouched _ => exact h.of_touched htouched
  | reorged _ _ _ _ hstore _ =>
      rw [hstore, hon.2]
      exact h.markReorg _ _
  | committed hoffer hcommit _ =>
      obtain ⟨entry, rows, w₁, w₂, htouched, _, _, hrows, hstore⟩ := hcommit
      obtain ⟨rfl, _, _, _, now, hcursor⟩ := (derived_of_normalize hrows).marks
      rw [hstore]
      refine (h.of_touched htouched).commit ?_ hv hon hoffer.served
      rw [hcursor]
      exact hon.2

end OneChain

/-- Cursors move, but none is ever taken away. -/
def CursorsLast (s s' : Store) : Prop :=
  ∀ id, (s.cursor? id).isSome → (s'.cursor? id).isSome

theorem cursorsLast_insert (cursor : Cursor) (id : Nat) (cursors : Store.Table Nat Cursor) :
    ∀ key, (cursors.get? key).isSome → ((cursors.insert id cursor).get? key).isSome := by
  intro key hkey
  by_cases hid : id = key
  · subst hid
    rw [Store.Table.get?_insert_self]
    rfl
  · rwa [Store.Table.get?_insert_of_ne _ _ hid]

theorem cursorsLast_of_touched {id : BlockId} (h : Touched id s s') : CursorsLast s s' := by
  rcases h with rfl | ⟨e, _, _, _, rfl⟩
  · exact fun _ hsome => hsome
  · exact fun _ hsome => hsome

theorem cursorsLast_of_step {out : Option (Except IngestError Outcome)}
    (h : StepEffect node c w out w') : CursorsLast w.store w'.store := by
  cases h with
  | nothing _ hsame => exact fun _ hsome => hsame.1 ▸ hsome
  | idle _ hsame => exact fun _ hsome => hsame.1 ▸ hsome
  | skipped _ _ _ _ _ hstore _ => exact fun _ hsome => hstore ▸ hsome
  | touched _ _ htouched _ => exact cursorsLast_of_touched htouched
  | reorged _ _ _ _ hstore _ =>
      rw [hstore]
      exact cursorsLast_insert _ _ _
  | committed _ hcommit _ =>
      obtain ⟨entry, rows, w₁, w₂, htouched, _, _, _, hstore⟩ := hcommit
      rw [hstore]
      exact fun id hsome => cursorsLast_insert _ _ _ id (cursorsLast_of_touched htouched id hsome)

/-- A history in which one chain has been written, and is written by the importer at work. -/
structure Guarded (visits : List Visit) (past : List Store) (at_work : Option Visit) (s : Store)
    (chain : Nat) : Prop where
  tables : ∀ t ∈ s :: past, OneChain visits chain t
  lasting : ∀ t ∈ past, CursorsLast t s
  working : ∀ v, at_work = some v → v ∈ visits ∧ v.On chain

namespace Guarded

/-- An importer is let in where no other chain has a cursor, so none ever had one. -/
theorem admitted (h : Guarded visits past at_work s chain) {v : Visit}
    (hcursors : ∀ cursor, s.anyCursor? = some cursor → cursor.chainId = v.config.chainId)
    (hreported : v.reported = v.config.chainId) :
    Guarded (v :: visits) (s :: past) (some v) s v.config.chainId := by
  have hlasting : ∀ t ∈ s :: past, CursorsLast t s :=
    List.forall_mem_cons.mpr ⟨fun _ hsome => hsome, h.lasting⟩
  have htables : ∀ t ∈ s :: past, OneChain (v :: visits) v.config.chainId t := by
    intro t ht
    refine OneChain.more ?_ v
    cases hlast : s.anyCursor? with
    | none =>
        refine (h.tables t ht).rechain (fun id => ?_) _
        have hnone := cursor?_eq_none_of_anyCursor hlast id
        refine Option.not_isSome_iff_eq_none.mp fun hsome => ?_
        have hlasts := hlasting t ht id hsome
        rw [hnone] at hlasts
        cases hlasts
    | some cursor =>
        obtain ⟨id, hid⟩ := cursor_of_anyCursor hlast
        have hchain : cursor.chainId = chain :=
          ((h.tables s List.mem_cons_self).cursors hid).2
        rw [← hcursors cursor hlast, hchain]
        exact h.tables t ht
  refine ⟨List.forall_mem_cons.mpr ⟨htables s List.mem_cons_self, htables⟩, hlasting, ?_⟩
  rintro _ ⟨⟩
  exact ⟨List.mem_cons_self, hreported, rfl⟩

theorem refused (h : Guarded visits past at_work s chain) :
    Guarded visits (s :: past) none s chain where
  tables := List.forall_mem_cons.mpr ⟨h.tables s List.mem_cons_self, h.tables⟩
  lasting := List.forall_mem_cons.mpr ⟨fun _ hsome => hsome, h.lasting⟩
  working _ hnone := nomatch hnone

theorem step {v : Visit} {out : Option (Except IngestError Outcome)}
    (h : Guarded visits past (some v) w.store chain)
    (heffect : StepEffect v.node v.config w out w') :
    Guarded visits (w.store :: past) (if out.isSome then some v else none) w'.store chain := by
  obtain ⟨hv, hon⟩ := h.working v rfl
  have hlast := cursorsLast_of_step heffect
  refine ⟨?_, ?_, fun u hu => ?_⟩
  · exact List.forall_mem_cons.mpr
      ⟨(h.tables _ List.mem_cons_self).of_step hv hon heffect, h.tables⟩
  · exact List.forall_mem_cons.mpr ⟨hlast, fun t ht id hsome => hlast id (h.lasting t ht id hsome)⟩
  · split at hu
    · exact h.working u hu
    · cases hu

end Guarded

theorem guarded_of_chronicle (h : Chronicle visits past at_work w) :
    ∃ chain, Guarded visits past at_work w.store chain := by
  induction h with
  | start c =>
      refine ⟨0, ?_, (fun _ hnil => nomatch hnil), (fun _ hnone => nomatch hnone)⟩
      exact List.forall_mem_singleton.mpr (.empty [] 0)
  | @entered _ _ _ v log w w' _ hsays hreported ih =>
      obtain ⟨chain, hguarded⟩ := ih
      obtain ⟨hanswers, hcursors⟩ := (admission_of_enter hsays).of_ok
      have hreported : v.reported = v.config.chainId := by simpa [hanswers] using hreported
      rw [store_of_enter hsays.runs]
      exact ⟨v.config.chainId, hguarded.admitted hcursors hreported⟩
  | refused _ hruns _ ih =>
      obtain ⟨chain, hguarded⟩ := ih
      rw [store_of_enter hruns]
      exact ⟨chain, hguarded.refused⟩
  | step _ hruns ih =>
      obtain ⟨chain, hguarded⟩ := ih
      exact ⟨chain, hguarded.step (effect_of_importNext hruns)⟩

/-! ## Runs -/

theorem asks_enter (c : Config) : Dialogue.Asks (Request.Calls .chainId) (enter c).run := by
  have hcall : Request.Calls .chainId (.node .chainId c.nodeTimeout) := by
    rintro _ _ ⟨⟩
    rfl
  have hstore : ∀ task, Request.Calls .chainId (.store task) := by rintro _ _ _ ⟨⟩
  refine asks_bind ?_ fun _ => ?_
  · rw [verifyChain_eq]
    refine asks_bind (asks_callNode hcall (by rintro _ _ _ _ ⟨⟩) (by rintro _ _ _ ⟨⟩)) ?_
    intro connected
    split
    · exact asks_bind (asks_store (hstore _)) fun found => .done
    · exact .done
  · refine asks_bind (asks_store (hstore _)) fun cursor => ?_
    cases cursor with
    | none => exact .done
    | some cursor =>
        refine asks_bind (asks_store (hstore _)) fun _ => asks_request ?_
        rintro _ _ ⟨⟩

theorem refused_run {around : Surroundings σ} {tables : σ → Store} {session : Session σ}
    (hchain : OneChain visits chain (tables session.outside)) (haround : around.Obeys tables node)
    (hdiffers : ¬ node.Gives .chainId c.chainId ∨
      ∃ id cursor, (tables session.outside).cursor? id = some cursor ∧ cursor.chainId ≠ c.chainId)
    (budget : Nat) (flag : Flag) :
    tables (session.runUntilStopped around c budget flag).2.outside = tables session.outside ∧
      ((∀ o, (around.node .chainId o).1 ≠ .interruption) →
        Refusal node c (tables session.outside) (session.runUntilStopped around c budget flag).1) := by
  obtain ⟨focus, hruns⟩ := Session.runs_of_perform_obeying haround none (enter c) session none
  have hstore : tables (session.perform around none (enter c)).2.outside = tables session.outside :=
    store_of_enter hruns
  have hrefused : ∀ result, (session.perform around none (enter c)).1 = some result →
      ∃ e, result = .error e ∧ Refusal node c (tables session.outside) e := by
    intro result hresult
    rw [hresult] at hruns
    obtain ⟨log, htells⟩ := Dialogue.course_iff_transcript.mp hruns
    have hadmission : Admission node c (tables session.outside) (answersIn log) result :=
      admission_of_enter htells
    cases result with
    | error e => exact ⟨e, rfl, hadmission.of_error⟩
    | ok u =>
        obtain ⟨hanswers, hcursors⟩ := hadmission.of_ok
        have hgiven : node.Gives .chainId c.chainId := by
          refine gives_of_answersIn htells (e := ⟨.chainId, c.chainId⟩) ?_
          rw [hanswers]
          exact List.mem_singleton_self _
        rcases hdiffers with hnode | ⟨id, cursor, hcursor, hother⟩
        · exact absurd hgiven hnode
        · exact absurd ((hchain.of_anyCursor hcursors).cursors hcursor).2 hother
  unfold Session.runUntilStopped
  split
  · next t heq =>
    rw [heq] at hstore
    refine ⟨hstore, fun hwaits => ?_⟩
    have hsome := Session.perform_isSome_of_calls (asks_enter c) hwaits session
    rw [heq] at hsome
    cases hsome
  · next e t heq =>
    rw [heq] at hstore hrefused
    refine ⟨hstore, fun _ => ?_⟩
    obtain ⟨_, herror, hrefusal⟩ := hrefused _ rfl
    cases herror
    exact hrefusal
  · next t heq =>
    rw [heq] at hrefused
    obtain ⟨_, herror, _⟩ := hrefused _ rfl
    cases herror

theorem chronicle_of_loop {around : Surroundings σ} {tables : σ → Store} {v : Visit}
    {session : Session σ} {focus : Option Hash} (haround : around.Obeys tables v.node)
    (h : Chronicle visits past (some v) (session.world tables focus)) (budget failures : Nat)
    (flag : Flag) : ∃ past' at_work focus', Chronicle visits past' at_work
      ((Session.loop around v.config budget failures flag session).2.world tables focus') := by
  induction budget generalizing past session focus failures flag with
  | zero => exact ⟨past, some v, focus, h⟩
  | succ budget ih =>
      unfold Session.loop
      dsimp only
      split
      · exact ⟨past, some v, focus, h⟩
      obtain ⟨focus', hruns⟩ := Session.runs_of_perform_obeying haround
        ((flag.before session.clock).nextTouch session.clock) (importNext v.config) session focus
      have hstep := h.step hruns
      split
      · next t heq =>
        rw [heq] at hstep
        exact ⟨_, _, focus', hstep⟩
      · next result t heq =>
        rw [heq] at hstep
        have hstep : Chronicle visits _ (some v) (t.world tables focus') := hstep
        split
        · exact ih hstep _ _
        · exact ⟨_, _, focus', hstep⟩
        · next d _ _ =>
          -- a pause passes time and nothing else
          have hpause := Session.world_wait tables focus' (((flag.before session.clock).before
            t.clock).nextTouch t.clock) d t
          split
          · next u hwait =>
            rw [hwait] at hpause
            exact ih (hpause ▸ hstep) _ _
          · next u hwait =>
            rw [hwait] at hpause
            split
            · exact ⟨_, _, focus', hpause ▸ hstep⟩
            · exact ih (hpause ▸ hstep) _ _

/-- Runs in turn make a chronicle, whatever their surroundings. -/
theorem chronicle_of_run {around : Surroundings σ} {tables : σ → Store} {session : Session σ}
    {focus : Option Hash} (haround : around.Obeys tables node)
    (h : Chronicle visits past at_work (session.world tables focus)) (c : Config) (budget : Nat)
    (flag : Flag) : ∃ visits' past' at_work' focus', Chronicle visits' past' at_work'
      (((session.restart c).runUntilStopped around c budget flag).2.world tables focus') := by
  obtain ⟨focus', hruns⟩ :=
    Session.runs_of_perform_obeying haround none (enter c) (session.restart c) focus
  unfold Session.runUntilStopped
  split
  · next t heq =>
    rw [heq] at hruns
    exact ⟨_, _, _, focus', h.refused hruns unfinished_none⟩
  · next e t heq =>
    rw [heq] at hruns
    exact ⟨_, _, _, focus', h.refused hruns (unfinished_error e)⟩
  · next t heq =>
    rw [heq] at hruns
    obtain ⟨log, hsays⟩ := exists_says hruns
    obtain ⟨hanswers, _⟩ := (admission_of_enter hsays).of_ok
    have hreported : (⟨.chainId, c.chainId⟩ : Answered) ∈ answersIn log := by
      rw [hanswers]
      exact List.mem_singleton_self _
    have hentered := h.entered (v := ⟨node, c, c.chainId⟩) hsays hreported
    obtain ⟨past', at_work', focus₂, hrun⟩ := chronicle_of_loop haround hentered budget 0 flag
    exact ⟨_, past', at_work', focus₂, hrun⟩

def bareAnswer (chain : Nat) : (call : NodeCall) → Except NodeError call.Answer
  | .chainId => .ok chain
  | call => plainAnswer [] call

def Surroundings.bare (chain : Nat) : Surroundings Store :=
  { Surroundings.plain [] false with node := fun call s => (.answer (bareAnswer chain call), s) }

def bareConduct (chain : Nat) : Conduct := fun _ call reply => reply = bareAnswer chain call

theorem Surroundings.obeys_bare (chain : Nat) :
    (Surroundings.bare chain).Obeys id (bareConduct chain) where
  answers h focus := by
    cases h
    exact rfl
  silence h := nomatch h
  apart _ _ := rfl
  stores := (Surroundings.within_plain [] false).stores

def firstRun : IngestError × Session Store :=
  ((Session.start .empty evenSettings 0).restart evenSettings).runUntilStopped
    (.plain oldBranch false) evenSettings 3 ⟨false, false, []⟩

def foreignSettings : Config := { evenSettings with chainId := 2 }

def foreignRun (first : Session Store) : IngestError × Session Store :=
  (first.restart foreignSettings).runUntilStopped (.bare 2) foreignSettings 3 ⟨false, false, []⟩

end ChainIngest.Importer
