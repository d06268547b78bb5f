import ChainIngest.Proofs.WellFormedTraces
/-!
# Pruned subtrees

What hangs below a failed frame is not looked at.  Two arenas that show the same frames
along all paths from the root, child lists of failed frames aside, are walked in
lockstep: the walks have the same stack, the same rows and the same marks throughout,
however many frames the arenas have besides.  So they come to the same rows or to the
same fault.
-/

namespace ChainIngest

def Frame.effective (f : Frame) : Frame := if f.failed then { f with children := #[] } else f

namespace Trace

variable {txHash : Hash} {t t' : CallTrace} {w w' : Walk} {id pc : Nat} {rest : List Nat}
  {f f' : Frame}

/-- Whether two arenas show the same frame under a number, or none, the child list of a failed one
aside. -/
def AgreeAt (t t' : CallTrace) (id : Nat) : Prop :=
  (t.frame? id).map Frame.effective = (t'.frame? id).map Frame.effective

instance (t t' : CallTrace) (id : Nat) : Decidable (AgreeAt t t' id) := decEq _ _

/-- What paths lead to lies among any frames that are closed under opening. -/
theorem mem_of_descend {ids : List Nat} {start last : Nat} {path : List Nat}
    (hclosed : ∀ id ∈ ids, ∀ f ∈ t.frame? id, ∀ child ∈ opened f, child ∈ ids)
    (hstart : start ∈ ids) (hpath : descend t start path = some last) : last ∈ ids := by
  induction path generalizing start with
  | nil =>
      cases hpath
      exact hstart
  | cons i path ih =>
      rw [descend, Option.bind_eq_bind, Option.bind_eq_some_iff] at hpath
      obtain ⟨f, hframe, hpath⟩ := hpath
      rw [Option.bind_eq_bind, Option.bind_eq_some_iff] at hpath
      obtain ⟨child, hchild, hpath⟩ := hpath
      exact ih (hclosed start hstart f hframe child (List.mem_of_getElem? hchild)) hpath

/-! ## What a visit reads -/

def rowOf (txHash : Hash) (id pc : Nat) (f : Frame) : Except Fault Emission :=
  if f.failed then .ok .nothing else emission txHash id pc f

theorem visit_of_frame (hframe : t.frame? id = some f) : w.visit txHash t id rest =
    if w.visited.getD id false then .error (.repeatedFrame id)
    else (rowOf txHash id w.pc f).map fun row =>
      { visited := w.visited.setIfInBounds id true
        stack := opened f ++ rest
        pc := w.pc + 1
        found := Walk.record w.found row } := by
  rw [Walk.visit, hframe, rowOf, opened]
  dsimp only
  split
  · rfl
  · split
    · rfl
    · cases emission txHash id w.pc f <;> rfl

theorem effective_of_sound (h : f.failed = false) : f.effective = f := by
  rw [Frame.effective, h, if_neg Bool.false_ne_true]

@[simp] theorem failed_effective (f : Frame) : f.effective.failed = f.failed := by
  unfold Frame.effective
  split <;> rfl

theorem rowOf_effective (f : Frame) : rowOf txHash id pc f.effective = rowOf txHash id pc f := by
  cases hfailed : f.failed with
  | false => rw [effective_of_sound hfailed]
  | true => simp [rowOf, hfailed]

theorem opened_effective (f : Frame) : opened f.effective = opened f := by
  cases hfailed : f.failed with
  | false => rw [effective_of_sound hfailed]
  | true => simp [opened, hfailed]

theorem AgreeAt.frame (txHash : Hash) (pc : Nat) (h : AgreeAt t t' id) (hframe : t.frame? id = some f) :
    ∃ f', t'.frame? id = some f' ∧ rowOf txHash id pc f' = rowOf txHash id pc f ∧
      opened f' = opened f := by
  rw [AgreeAt, hframe, Option.map_some] at h
  obtain ⟨f', hframe', hsame⟩ := Option.map_eq_some_iff.mp h.symm
  refine ⟨f', hframe', ?_, ?_⟩
  · rw [← rowOf_effective, hsame, rowOf_effective]
  · rw [← opened_effective, hsame, opened_effective]

theorem AgreeAt.missing (h : AgreeAt t t' id) (hframe : t.frame? id = none) :
    t'.frame? id = none := by
  rw [AgreeAt, hframe, Option.map_none] at h
  exact Option.map_eq_none_iff.mp h.symm

/-! ## Two walks in lockstep -/

/-- Walks through two arenas that have come equally far.  What they have ahead is reached in the
first. -/
structure Lockstep (t t' : CallTrace) (w w' : Walk) : Prop where
  size : w.visited.size = t.size
  size' : w'.visited.size = t'.size
  marks : ∀ id, w'.visited.getD id false = w.visited.getD id false
  stack : w'.stack = w.stack
  pc : w'.pc = w.pc
  found : w'.found = w.found
  reached : ∀ id ∈ w.stack, ∃ path, descend t 0 path = some id

theorem lockstep_start : Lockstep t t' (Walk.start t) (Walk.start t') where
  size := by simp [Walk.start]
  size' := by simp [Walk.start]
  marks id := (getD_start t' id).trans (getD_start t id).symm
  stack := rfl
  pc := rfl
  found := rfl
  reached := by
    intro id hid
    obtain rfl := List.mem_singleton.mp hid
    exact ⟨[], rfl⟩

/-- The next visits of two walks in lockstep find the same fault, or leave them in lockstep. -/
theorem Lockstep.visit (h : Lockstep t t' w w') (hstack : w.stack = id :: rest)
    (hagree : AgreeAt t t' id) :
    (∃ fault, w.visit txHash t id rest = .error fault ∧
        w'.visit txHash t' id rest = .error fault) ∨
      ∃ next next', w.visit txHash t id rest = .ok next ∧
        w'.visit txHash t' id rest = .ok next' ∧ Lockstep t t' next next' := by
  cases hframe : t.frame? id with
  | none =>
      refine .inl ⟨.missingFrame id, ?_, ?_⟩
      · rw [Walk.visit, hframe]
      · rw [Walk.visit, hagree.missing hframe]
  | some f =>
      obtain ⟨f', hframe', hrow, hopened⟩ := hagree.frame txHash w.pc hframe
      rw [visit_of_frame hframe, visit_of_frame hframe', h.marks, h.pc, h.found, hrow, hopened]
      split
      · exact .inl ⟨_, rfl, rfl⟩
      · cases rowOf txHash id w.pc f with
        | error fault => exact .inl ⟨fault, rfl, rfl⟩
        | ok row =>
            have hid : id < w.visited.size := h.size ▸ (Array.getElem?_eq_some_iff.mp hframe).1
            have hid' : id < w'.visited.size := h.size' ▸ (Array.getElem?_eq_some_iff.mp hframe').1
            refine .inr ⟨_, _, rfl, rfl, ?_, ?_, fun other => ?_, rfl, rfl, rfl, fun other hother => ?_⟩
            · rw [Array.size_setIfInBounds, h.size]
            · rw [Array.size_setIfInBounds, h.size']
            · rw [getD_setIfInBounds hid', getD_setIfInBounds hid, h.marks]
            · rcases List.mem_append.mp hother with hchild | hrest
              · obtain ⟨path, hpath⟩ := h.reached id (hstack ▸ List.mem_cons_self)
                obtain ⟨i, hi⟩ := List.getElem?_of_mem hchild
                exact ⟨path ++ [i], (descend_concat hpath hframe i).trans hi⟩
              · exact h.reached other (hstack ▸ List.mem_cons_of_mem id hrest)

theorem Walk.Ends.lockstep {pops : Nat} {result : Except Fault Output}
    (hagree : ∀ path id, descend t 0 path = some id → AgreeAt t t' id)
    (hends : w.Ends txHash t pops result) (h : Lockstep t t' w w') :
    w'.Ends txHash t' pops result := by
  induction hends generalizing w' with
  | finished hstack =>
      rw [← h.found]
      exact .finished (h.stack.trans hstack)
  | fault hstack hvisit =>
      obtain ⟨path, hpath⟩ := h.reached _ (hstack ▸ List.mem_cons_self)
      rcases h.visit hstack (hagree path _ hpath) with ⟨fault', hfault, hfault'⟩ | ⟨_, _, hok, _⟩
      · cases hfault.symm.trans hvisit
        exact .fault (h.stack.trans hstack) hfault'
      · cases hok.symm.trans hvisit
  | visit hstack hvisit _ ih =>
      obtain ⟨path, hpath⟩ := h.reached _ (hstack ▸ List.mem_cons_self)
      rcases h.visit hstack (hagree path _ hpath) with ⟨_, hfault, _⟩ | ⟨_, _, hok, hok', hnext⟩
      · cases hfault.symm.trans hvisit
      · cases hok.symm.trans hvisit
        exact .visit (h.stack.trans hstack) hok' (ih hnext)

theorem Walk.Ends.unique {pops pops' : Nat} {result result' : Except Fault Output}
    (h : w.Ends txHash t pops result) (h' : w.Ends txHash t pops' result') : result = result' := by
  induction h generalizing pops' with
  | finished hstack =>
      cases h' with
      | finished => rfl
      | fault hstack' => cases hstack.symm.trans hstack'
      | visit hstack' => cases hstack.symm.trans hstack'
  | fault hstack hvisit =>
      cases h' with
      | finished hstack' => cases hstack.symm.trans hstack'
      | fault hstack' hvisit' =>
          cases hstack.symm.trans hstack'
          cases hvisit.symm.trans hvisit'
          rfl
      | visit hstack' hvisit' =>
          cases hstack.symm.trans hstack'
          cases hvisit.symm.trans hvisit'
  | visit hstack hvisit _ ih =>
      cases h' with
      | finished hstack' => cases hstack.symm.trans hstack'
      | fault hstack' hvisit' =>
          cases hstack.symm.trans hstack'
          cases hvisit.symm.trans hvisit'
      | visit hstack' hvisit' hrest' =>
          cases hstack.symm.trans hstack'
          cases hvisit.symm.trans hvisit'
          exact ih hrest'

/-! ## Extraction -/

theorem isEmpty_iff_frame? : t.isEmpty = true ↔ t.frame? 0 = none := by
  simp [CallTrace.isEmpty, CallTrace.frame?]

theorem AgreeAt.isEmpty (h : AgreeAt t t' 0) : t'.isEmpty = t.isEmpty := by
  rw [Bool.eq_iff_iff, isEmpty_iff_frame?, isEmpty_iff_frame?]
  exact ⟨AgreeAt.missing (Eq.symm h), h.missing⟩

/-- Failed subtrees are without influence.  Where arenas agree on the root and on every frame that
is reached without going below a failed one, but for what the failed ones opened, extraction finds
the same rows or the same fault in both. -/
theorem extract_of_agree (txHash : Hash) {t t' : CallTrace}
    (h : ∀ path id, descend t 0 path = some id → AgreeAt t t' id) :
    extract txHash t = extract txHash t' := by
  have hroot : AgreeAt t t' 0 := h [] 0 rfl
  rw [extract, extract, hroot.isEmpty]
  split
  · rfl
  · have hends : ∀ t, ∃ pops ≤ t.size + 1,
        (Walk.start t).Ends txHash t pops ((Walk.start t).run txHash t t.size) :=
      fun t => explores_start.ends_run (Nat.zero_add t.size)
    obtain ⟨_, _, hfirst⟩ := hends t
    obtain ⟨_, _, hsecond⟩ := hends t'
    exact (hfirst.lockstep h lockstep_start).unique hsecond

/-- A call that fails and one that moves value after it.  What the failed call opened, and which
frames there are besides, is left open. -/
def prunedTrace (hidden : Array Nat) (others : Array Frame) : CallTrace :=
  ⟨#[{ Frame.plain .call ⟨1⟩ (some ⟨2⟩) 9 with children := #[1, 2] },
    { Frame.plain .call ⟨2⟩ (some ⟨3⟩) 8 with error := some "reverted", children := hidden },
    Frame.plain .call ⟨2⟩ (some ⟨4⟩) 7] ++ others⟩

/-! In one arena the failed call leads to itself and to a frame that does not exist.  In the other
it leads to the root, to the live call, and to a frame of its own that lacks its target. -/

theorem extract_of_agree_hidden :
    let t := prunedTrace #[1, 9] #[]
    let t' := prunedTrace #[0, 2, 3] #[Frame.plain .create ⟨3⟩ none 0]
    (∀ path id, descend t 0 path = some id → AgreeAt t t' id) ∧ t.size ≠ t'.size ∧
      extract ⟨7⟩ t = extract ⟨7⟩ t' ∧ extract ⟨7⟩ t' = .ok ⟨[⟨⟨7⟩, 2, ⟨2⟩, ⟨4⟩, 7⟩], [], []⟩ := by
  intro t t'
  have hagree : ∀ path id, descend t 0 path = some id → AgreeAt t t' id := by
    intro path id hpath
    have hreached : id ∈ [0, 1, 2] := mem_of_descend (by decide) (by decide) hpath
    have hsame : ∀ id ∈ [0, 1, 2], AgreeAt t t' id := by decide
    exact hsame id hreached
  exact ⟨hagree, by decide, extract_of_agree ⟨7⟩ hagree, by decide +kernel⟩

end Trace

end ChainIngest
