import ChainIngest.Proofs.Sessions
import ChainIngest.Proofs.StepEffect
/-!
# Steps that fail

A step writes everything else in one commit or one reorg, so a step that fails has
left at most the import row of the block that it was about.
-/

namespace ChainIngest.Importer

variable {node : Conduct} {c : Config} {w w' : World}

/-- Stores that differ in the import row of one block at most. -/
structure ApartFromRow (block : BlockId) (s s' : Store) : Prop where
  tables : s' = { s with queue := s'.queue }
  rows : ∀ key, key ≠ (block.number, block.hash) → s'.queue.get? key = s.queue.get? key

theorem ApartFromRow.refl (block : BlockId) (s : Store) : ApartFromRow block s s :=
  ⟨rfl, fun _ _ => rfl⟩

theorem Touched.apartFromRow {block : BlockId} {s s' : Store} (h : Touched block s s') :
    ApartFromRow block s s' := by
  rcases h with rfl | ⟨e, rfl, _, _, rfl⟩
  · exact .refl _ _
  · exact ⟨rfl, fun key hkey => Store.Table.get?_insert_of_ne _ _ (Ne.symm hkey)⟩

theorem StepEffect.of_error {e : IngestError} (h : StepEffect node c w (some (.error e)) w') :
    w'.head = w.head ∧ (w'.store = w.store ∨
      ∃ block, Offered node c w.head block ∧ Touched block.id w.store w'.store) := by
  cases h with
  | nothing _ hsame => exact ⟨hsame.2, .inl hsame.1⟩
  | touched hoffer _ htouched hhead => exact ⟨hhead, .inr ⟨_, hoffer, htouched⟩⟩
  | skipped _ _ _ _ _ _ hend => exact absurd hend not_headMoves_error
  | committed _ _ hend => exact absurd hend not_headMoves_error
  | reorged _ _ _ _ _ hend => exact absurd hend not_headMoves_error

theorem StepEffect.of_passed {result : Outcome}
    (h : StepEffect node c w (some (.ok result)) w')
    (hpassed : result = .idle ∨ ∃ id, result = .skipped id) : w'.store = w.store := by
  cases h with
  | nothing hout _ => exact absurd hout (not_unfinished_ok _)
  | touched _ hout _ _ => exact absurd hout (not_unfinished_ok _)
  | idle _ hsame => exact hsame.1
  | skipped _ _ _ _ _ hstore _ => exact hstore
  | committed _ _ hend =>
      obtain ⟨_, rfl⟩ := hend.of_ok
      rcases hpassed with h | ⟨_, h⟩ <;> cases h
  | reorged _ _ _ _ _ hend =>
      obtain ⟨_, rfl⟩ := hend.of_ok
      rcases hpassed with h | ⟨_, h⟩ <;> cases h

/-- A step that fails, at whatever call of the node or task of the store, leaves the head and all
tables as they were, but for the import row of the block that it was given to put on the head: a
conduct may be as narrow as the answers of this one step.  A step that finds nothing new, or the
block there already, writes nothing. -/
theorem importNext_atomic {result : Except IngestError Outcome}
    (h : Runs node (importNext c) w (some result) w') :
    (∀ e, result = .error e → w'.head = w.head ∧ (w'.store = w.store ∨
      ∃ block, Offered node c w.head block ∧ ApartFromRow block.id w.store w'.store)) ∧
    (result = .ok .idle ∨ (∃ id, result = .ok (.skipped id)) → w'.store = w.store) := by
  have heffect := effect_of_importNext h
  constructor
  · rintro e rfl
    obtain ⟨hhead, hstore | ⟨block, hoffer, htouched⟩⟩ := heffect.of_error
    · exact ⟨hhead, .inl hstore⟩
    · exact ⟨hhead, .inr ⟨block, hoffer, htouched.apartFromRow⟩⟩
  · rintro (rfl | ⟨id, rfl⟩)
    · exact heffect.of_passed (.inl rfl)
    · exact heffect.of_passed (.inr ⟨id, rfl⟩)

/-! A commit that is refused at the last attempt leaves an import row behind and nothing else. -/

def bottomBlock : Block := plainBlock 0 ⟨1⟩ ⟨0⟩

def onceOnly : Config := { Config.standard with maxAttempts := 1 }

/-- What a first step comes to where the only commit is refused. -/
def refusedStep : Option (Except IngestError Outcome) × Session Store :=
  (Session.start .empty onceOnly 0).perform (.plain [bottomBlock] true) none (importNext onceOnly)

theorem importNext_atomic_refused : ∃ e w',
    Runs (plainConduct [bottomBlock]) (importNext onceOnly) (.fresh onceOnly)
      (some (.error e)) w' ∧
    w'.store.queue.size = 1 ∧ w'.head = none ∧ ApartFromRow bottomBlock.id .empty w'.store := by
  obtain ⟨focus, hrun⟩ := Session.runs_of_perform (Surroundings.within_plain [bottomBlock] true)
    none (importNext onceOnly) (.start .empty onceOnly 0) none
  have hfails : refusedStep.1.any (fun r => !r.isOk) = true := by decide +kernel
  obtain ⟨e, he⟩ : ∃ e, refusedStep.1 = some (.error e) := by
    obtain ⟨r, hr, hnot⟩ := (Option.any_eq_true _ _).mp hfails
    cases r with
    | ok a => cases hnot
    | error e => exact ⟨e, hr⟩
  have hsize : refusedStep.2.outside.queue.size = 1 := by decide +kernel
  change Runs _ _ _ refusedStep.1 (refusedStep.2.world id focus) at hrun
  rw [he] at hrun
  obtain ⟨hhead, hstore⟩ := (importNext_atomic hrun).1 e rfl
  refine ⟨e, _, hrun, hsize, hhead, ?_⟩
  rcases hstore with hsame | ⟨block, hoffer, hrow⟩
  · rw [hsame]
    exact .refl _ _
  · obtain rfl : bottomBlock = block := Except.ok.inj (gives_plainConduct hoffer.served)
    exact hrow

end ChainIngest.Importer
