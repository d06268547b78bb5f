import ChainIngest.Proofs.Derivation
import ChainIngest.Proofs.Histories
/-!
# The commits of a history

Many rows of a store are those of the commit that wrote them last.  A journal is a
history that remembers its commits.  Every history has one.  What is kept by
touching the row of a block under way, by reorgs and by commits, holds in all
its states.
-/

namespace ChainIngest.Importer

variable {node : Conduct} {kind : Config → Prop} {c : Config} {at_work : Option Config}
  {log : List BlockRows} {w w' : World}

/-- A step from `w` that committed these rows: they were worked out for the block that the node
offered, with nothing but its import row touched before. -/
structure Commits (node : Conduct) (c : Config) (w : World) (rows : BlockRows) (s' : Store) :
    Prop where
  offered : Offered node c w.head rows.block
  written : ∃ entry w₁ w₂, Touched rows.block.id w.store w₁.store ∧ entry.id = rows.block.id ∧
    entry.canonical = true ∧ Runs node (normalize c rows.block entry) w₁ (some (.ok rows)) w₂ ∧
    s' = w₁.store.commit rows

theorem Commits.commitOf {rows : BlockRows} {s' : Store} (h : Commits node c w rows s') :
    CommitOf node c rows.block w.store s' := by
  obtain ⟨entry, w₁, w₂, hrest⟩ := h.written
  exact ⟨entry, rows, w₁, w₂, hrest⟩

theorem commits_of_commitOf {block : Block} {s' : Store} (hoffer : Offered node c w.head block)
    (h : CommitOf node c block w.store s') : ∃ rows, Commits node c w rows s' := by
  obtain ⟨entry, rows, w₁, w₂, htouched, hid, hcanonical, hrows, hstore⟩ := h
  obtain ⟨rfl, _⟩ := (derived_of_normalize hrows).marks
  exact ⟨rows, hoffer, entry, w₁, w₂, htouched, hid, hcanonical, hrows, hstore⟩

/-- The states that importers in turn lead to, with the commits on the way, the last one first. -/
inductive Journal (node : Conduct) (kind : Config → Prop) :
    List BlockRows → Option Config → World → Prop where
  | start (c : Config) : Journal node kind [] none (.fresh c)
  | enter {c : Config} {log : List BlockRows} {at_work : Option Config} {w w' : World} :
      Journal node kind log at_work w → kind c →
      Runs node (restoreHead c) (w.renewed c) (some (.ok ())) w' → Journal node kind log (some c) w'
  | passed {c : Config} {log : List BlockRows} {out : Option (Except IngestError Outcome)}
      {w w' : World} : Journal node kind log (some c) w → Runs node (importNext c) w out w' →
      (∀ rows, ¬ Commits node c w rows w'.store) →
      Journal node kind log (if out.isSome then some c else none) w'
  | committed {c : Config} {log : List BlockRows} {rows : BlockRows}
      {out : Option (Except IngestError Outcome)} {w w' : World} :
      Journal node kind log (some c) w → Runs node (importNext c) w out w' →
      Commits node c w rows w'.store →
      Journal node kind (rows :: log) (if out.isSome then some c else none) w'

theorem reach_of_journal (h : Journal node kind log at_work w) : Reach node kind at_work w := by
  induction h with
  | start c => exact .start c
  | enter _ hkind hrestore ih => exact .enter ih hkind hrestore
  | passed _ hstep _ ih => exact .step ih hstep
  | committed _ hstep _ ih => exact .step ih hstep

theorem journal_of_reach (h : Reach node kind at_work w) : ∃ log, Journal node kind log at_work w := by
  induction h with
  | start c => exact ⟨[], .start c⟩
  | enter _ hkind hrestore ih =>
      obtain ⟨log, hlog⟩ := ih
      exact ⟨log, .enter hlog hkind hrestore⟩
  | @step c out w w' _ hstep ih =>
      obtain ⟨log, hlog⟩ := ih
      by_cases hcommits : ∃ rows, Commits node c w rows w'.store
      · obtain ⟨rows, hrows⟩ := hcommits
        exact ⟨rows :: log, .committed hlog hstep hrows⟩
      · exact ⟨log, .passed hlog hstep (not_exists.mp hcommits)⟩

/-- What holds of the empty store, and is kept by touching import rows, by reorgs and by commits,
holds in every state of a history.  It may speak of the commits so far. -/
theorem Journal.invariant {P : List BlockRows → Store → Prop} (hempty : P [] .empty)
    (htouched : ∀ {log id s s'}, Touched id s s' → P log s → P log s')
    (hreorg : ∀ {log s} ancestor id now, P log s → P log (s.markReorg ancestor id now))
    (hcommit : ∀ {c log w w₁ w₂ entry rows}, Journal node kind log (some c) w →
      Commits node c w rows (w₁.store.commit rows) → Touched rows.block.id w.store w₁.store →
      Runs node (normalize c rows.block entry) w₁ (some (.ok rows)) w₂ → P log w₁.store →
      P (rows :: log) (w₁.store.commit rows))
    (h : Journal node kind log at_work w) : P log w.store := by
  induction h with
  | start c => exact hempty
  | enter _ _ hrestore ih => exact (runs_restoreHead hrestore rfl).1 ▸ ih
  | @passed c log out w w' _ hstep hnone ih =>
      cases effect_of_importNext hstep with
      | nothing _ hsame => exact hsame.1 ▸ ih
      | idle _ hsame => exact hsame.1 ▸ ih
      | skipped _ _ _ _ _ hstore _ => exact hstore ▸ ih
      | touched _ _ htouch _ => exact htouched htouch ih
      | reorged _ _ _ _ hstore _ => exact hstore ▸ hreorg _ _ _ ih
      | committed hoffer hcommits _ =>
          obtain ⟨rows, hrows⟩ := commits_of_commitOf hoffer hcommits
          exact absurd hrows (hnone rows)
  | committed hlog _ hcommits ih =>
      obtain ⟨entry, w₁, w₂, htouch, _, _, hrows, hstore⟩ := hcommits.written
      rw [hstore] at hcommits ⊢
      exact hcommit hlog hcommits htouch hrows (htouched htouch ih)

theorem Reach.invariant {P : Store → Prop} (hempty : P .empty)
    (htouched : ∀ {id s s'}, Touched id s s' → P s → P s')
    (hreorg : ∀ {s} ancestor id now, P s → P (s.markReorg ancestor id now))
    (hcommit : ∀ {c w w₁ w₂ entry rows}, Reach node kind (some c) w →
      Commits node c w rows (w₁.store.commit rows) → Touched rows.block.id w.store w₁.store →
      Runs node (normalize c rows.block entry) w₁ (some (.ok rows)) w₂ → P w₁.store →
      P (w₁.store.commit rows))
    (h : Reach node kind at_work w) : P w.store := by
  obtain ⟨log, hlog⟩ := journal_of_reach h
  refine Journal.invariant (P := fun _ => P) hempty htouched hreorg ?_ hlog
  intro c log w w₁ w₂ entry rows hlog hcommits htouch hrows hbefore
  exact hcommit (reach_of_journal hlog) hcommits htouch hrows hbefore

end ChainIngest.Importer
