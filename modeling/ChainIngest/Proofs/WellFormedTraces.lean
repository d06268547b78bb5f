import ChainIngest.Importer.Normalize
import ChainIngest.Proofs.CallOrder
import Mathlib.Data.List.Induction
import Mathlib.Data.List.Perm.Subperm
/-!
# Well-formed traces

An arena is a call tree as far as a walk sees it when every path of child positions
from the root leads to a frame, no two lead to the same one, and every frame that
takes effect names the account it needs.  Extraction succeeds on just these arenas,
whatever else the child lists hold, and its fault tells which of the conditions
failed.

The walk is followed path by path: every frame that it visited or has on its stack
stands at the end of a path of its own.
-/

namespace ChainIngest.Trace

open scoped List

/-! ## Paths -/

/-- Where a path of child positions leads from a frame; nowhere below a failed one. -/
def descend (t : CallTrace) (id : Nat) : (path : List Nat) → Option Nat
  | [] => some id
  | i :: path => do
    let f ← t.frame? id
    let child ← (opened f)[i]?
    descend t child path

/-- A frame that takes effect without naming its other account.  A transaction's own call need
not name any. -/
def LacksTarget (id : Nat) (f : Frame) : Prop :=
  f.failed = false ∧ f.target = none ∧ (f.kind.isCreate = true ∨ f.kind = .selfDestruct ∨ id ≠ 0)

/-- An arena that is a call tree of rows, as far as paths lead. -/
structure WellFormed (t : CallTrace) : Prop where
  rooted : t.isEmpty = false
  present : ∀ {path id}, descend t 0 path = some id → (t.frame? id).isSome
  once : ∀ {path path' id}, descend t 0 path = some id → descend t 0 path' = some id → path = path'
  targeted : ∀ {path id f}, descend t 0 path = some id → t.frame? id = some f → ¬ LacksTarget id f

def Untargeted (t : CallTrace) (kind : CallKind) : Prop :=
  ∃ path id f, descend t 0 path = some id ∧ t.frame? id = some f ∧ LacksTarget id f ∧ f.kind = kind

def Fault.Holds (t : CallTrace) : Fault → Prop
  | .noRoot => t.isEmpty = true
  | .missingFrame id => (∃ path, descend t 0 path = some id) ∧ t.frame? id = none
  | .repeatedFrame id =>
    ∃ path path', path ≠ path' ∧ descend t 0 path = some id ∧ descend t 0 path' = some id
  | .noCreatedAddress kind _ => kind.isCreate = true ∧ Untargeted t kind
  | .noRefundAddress _ => Untargeted t .selfDestruct
  | .noTarget kind _ => kind.isCreate = false ∧ kind ≠ .selfDestruct ∧ Untargeted t kind

variable {txHash : Hash} {t : CallTrace} {w next : Walk} {fault : Fault}

theorem descend_append (id : Nat) (path more : List Nat) :
    descend t id (path ++ more) = (descend t id path).bind fun mid => descend t mid more := by
  induction path generalizing id with
  | nil => rfl
  | cons i path ih =>
      simp only [List.cons_append, descend, Option.bind_eq_bind, ih, Option.bind_assoc]

theorem descend_concat {path : List Nat} {id : Nat} {f : Frame} (hpath : descend t 0 path = some id)
    (hframe : t.frame? id = some f) (i : Nat) : descend t 0 (path ++ [i]) = (opened f)[i]? := by
  rw [descend_append, hpath, Option.bind_some, descend, hframe, Option.bind_eq_bind,
    Option.bind_some]
  cases (opened f)[i]? <;> rfl

theorem Fault.Holds.not_wellFormed (h : fault.Holds t) : ¬ WellFormed t := by
  have huntargeted : ∀ {kind}, Untargeted t kind → ¬ WellFormed t := by
    rintro kind ⟨path, id, f, hpath, hframe, hlacks, _⟩ hwell
    exact hwell.targeted hpath hframe hlacks
  intro hwell
  cases fault with
  | noRoot =>
      have hrooted := hwell.rooted
      rw [show t.isEmpty = true from h] at hrooted
      cases hrooted
  | missingFrame id =>
      obtain ⟨⟨path, hpath⟩, hmissing⟩ := h
      have hpresent := hwell.present hpath
      rw [hmissing] at hpresent
      cases hpresent
  | repeatedFrame id =>
      obtain ⟨path, path', hne, hpath, hpath'⟩ := h
      exact hne (hwell.once hpath hpath')
  | noCreatedAddress kind pc => exact huntargeted h.2 hwell
  | noRefundAddress pc => exact huntargeted h hwell
  | noTarget kind pc => exact huntargeted h.2.2 hwell

/-! ## One frame -/

theorem not_lacksTarget_of_emission {id pc : Nat} {f : Frame} {row : Emission}
    (h : emission txHash id pc f = .ok row) : ¬ LacksTarget id f := by
  rintro ⟨_, htarget, hneeds⟩
  unfold emission at h
  rw [htarget] at h
  split at h
  · cases h
  · cases h
  · cases h
  · next hcreate hcreate2 hdestruct =>
    have hinner : id ≠ 0 := by
      rcases hneeds with hkind | hkind | hid
      · cases hkind' : f.kind <;> simp_all [CallKind.isCreate]
      · exact absurd hkind hdestruct
      · exact hid
    rw [if_neg hinner] at h
    cases h

theorem holds_of_emission {path : List Nat} {id pc : Nat} {f : Frame}
    (hpath : descend t 0 path = some id) (hframe : t.frame? id = some f)
    (hfailed : f.failed = false) (h : emission txHash id pc f = .error fault) : fault.Holds t := by
  have huntargeted : f.target = none → (f.kind.isCreate = true ∨ f.kind = .selfDestruct ∨ id ≠ 0) →
      Untargeted t f.kind :=
    fun htarget hneeds => ⟨path, id, f, hpath, hframe, ⟨hfailed, htarget, hneeds⟩, rfl⟩
  unfold emission at h
  split at h
  · next hkind =>
    split at h
    · next htarget =>
      cases h
      have hcreate : f.kind.isCreate = true := by rw [hkind]; rfl
      exact ⟨hcreate, huntargeted htarget (.inl hcreate)⟩
    · cases h
  · next hkind =>
    split at h
    · next htarget =>
      cases h
      have hcreate : f.kind.isCreate = true := by rw [hkind]; rfl
      exact ⟨hcreate, huntargeted htarget (.inl hcreate)⟩
    · cases h
  · next hkind =>
    split at h
    · next htarget =>
      cases h
      have huntarget := huntargeted htarget (.inr (.inl hkind))
      rwa [hkind] at huntarget
    · cases h
  · next hcreate hcreate2 hdestruct =>
    split at h
    · cases h
    · next hinner =>
      split at h
      · next htarget =>
        cases h
        have hcall : f.kind.isCreate = false := by
          cases hkind : f.kind <;> simp_all [CallKind.isCreate]
        exact ⟨hcall, hdestruct, huntargeted htarget (.inr (.inr hinner))⟩
      · split at h <;> cases h

theorem not_lacksTarget_of_visit {id : Nat} {rest : List Nat} {f : Frame}
    (hframe : t.frame? id = some f) (h : w.visit txHash t id rest = .ok next) :
    ¬ LacksTarget id f := by
  rw [Walk.visit, hframe] at h
  dsimp only at h
  split at h
  · cases h
  · split at h
    · next hfailed =>
      rintro ⟨hsound, _⟩
      rw [hfailed] at hsound
      cases hsound
    · cases hrow : emission txHash id w.pc f with
      | error fault =>
          rw [hrow] at h
          cases h
      | ok row => exact not_lacksTarget_of_emission hrow

/-! ## The walk along paths -/

/-- A walk that has visited the frames at the ends of the paths `done` and has those at the ends
of the paths `ahead` on its stack. -/
structure Explores (t : CallTrace) (w : Walk) (done ahead : List (List Nat)) : Prop where
  size : w.visited.size = t.size
  stack : ahead.map (descend t 0) = w.stack.map some
  /-- The marked frames are those at the ends of the paths that are done. -/
  marks : ∀ id, w.visited.getD id false = true ↔ ∃ path ∈ done, descend t 0 path = some id
  visited : ∀ path ∈ done, ∃ id f, descend t 0 path = some id ∧ t.frame? id = some f ∧
    ¬ LacksTarget id f
  apart : (done.map (descend t 0)).Nodup
  nodup : (done ++ ahead).Nodup
  root : [] ∈ done ++ ahead
  /-- Paths go on from those that are done to paths known to the walk. -/
  children : ∀ path ∈ done, ∀ i id, descend t 0 (path ++ [i]) = some id → path ++ [i] ∈ done ++ ahead
  /-- Paths known to the walk go on from those that are done. -/
  parents : ∀ path i, path ++ [i] ∈ done ++ ahead → path ∈ done

def extensions (path : List Nat) (f : Frame) : List (List Nat) :=
  (List.range (opened f).length).map fun i => path ++ [i]

theorem mem_extensions {path more : List Nat} {f : Frame} :
    more ∈ extensions path f ↔ ∃ i < (opened f).length, path ++ [i] = more := by
  simp [extensions]

theorem map_extensions {path : List Nat} {id : Nat} {f : Frame} (hpath : descend t 0 path = some id)
    (hframe : t.frame? id = some f) :
    (extensions path f).map (descend t 0) = (opened f).map some := by
  apply List.ext_getElem
  · simp [extensions]
  · intro i hi hi'
    rw [List.length_map] at hi'
    simp [extensions, descend_concat hpath hframe, hi']

theorem nodup_extensions (path : List Nat) (f : Frame) : (extensions path f).Nodup := by
  refine List.Nodup.map (fun i j heq => ?_) List.nodup_range
  simpa using heq

theorem explores_start : Explores t (Walk.start t) [] [[]] where
  size := by simp [Walk.start]
  stack := rfl
  marks id := by
    rw [getD_start]
    simp
  visited := by simp
  apart := by simp
  nodup := by simp
  root := by simp
  children := by simp
  parents := by simp

/-- A visit takes up the foremost path and puts those that go on from it in front. -/
theorem Explores.visit {path : List Nat} {done ahead : List (List Nat)} {id : Nat} {rest : List Nat}
    {f : Frame} (h : Explores t w done (path :: ahead)) (hpath : descend t 0 path = some id)
    (hahead : ahead.map (descend t 0) = rest.map some) (hvisited : Visited txHash t w id rest f next)
    (htarget : ¬ LacksTarget id f) :
    Explores t next (path :: done) (extensions path f ++ ahead) := by
  have hid : id < w.visited.size := by
    rw [h.size]
    exact (Array.getElem?_eq_some_iff.mp hvisited.frame).1
  have hperm : path :: done ++ (extensions path f ++ ahead) ~
      extensions path f ++ (done ++ path :: ahead) :=
    calc path :: (done ++ (extensions path f ++ ahead))
      _ ~ path :: (extensions path f ++ (done ++ ahead)) :=
          (List.perm_append_comm_assoc done _ ahead).cons path
      _ ~ extensions path f ++ path :: (done ++ ahead) := List.perm_middle.symm
      _ ~ extensions path f ++ (done ++ path :: ahead) := List.perm_middle.symm.append_left _
  have hknown : ∀ {more}, more ∈ path :: done ++ (extensions path f ++ ahead) ↔
      more ∈ extensions path f ∨ more ∈ done ++ path :: ahead :=
    fun {more} => hperm.mem_iff.trans List.mem_append
  have hnew : path ∉ done := by
    have hnodup := h.nodup
    rw [List.nodup_middle, List.nodup_cons] at hnodup
    exact fun hdone => hnodup.1 (List.mem_append_left _ hdone)
  -- a longer path that was known already would have had this one done
  have hlonger : ∀ {more}, more ∈ extensions path f → more ∉ done ++ path :: ahead := by
    intro more hmore hbefore
    obtain ⟨i, _, rfl⟩ := mem_extensions.mp hmore
    exact hnew (h.parents path i hbefore)
  constructor
  · rw [hvisited.visited, Array.size_setIfInBounds, h.size]
  · rw [hvisited.stack, List.map_append, List.map_append, map_extensions hpath hvisited.frame, hahead]
  · intro other
    rw [hvisited.visited, getD_setIfInBounds hid]
    by_cases heq : id = other
    · subst heq
      rw [if_pos rfl]
      exact iff_of_true rfl ⟨path, List.mem_cons_self, hpath⟩
    · rw [if_neg heq, h.marks other]
      constructor
      · rintro ⟨found, hfound, hends⟩
        exact ⟨found, List.mem_cons_of_mem path hfound, hends⟩
      · rintro ⟨found, hfound, hends⟩
        rcases List.mem_cons.mp hfound with rfl | hfound
        · rw [hpath, Option.some.injEq] at hends
          exact absurd hends heq
        · exact ⟨found, hfound, hends⟩
  · intro other hother
    rcases List.mem_cons.mp hother with rfl | hother
    · exact ⟨id, f, hpath, hvisited.frame, htarget⟩
    · exact h.visited other hother
  · rw [List.map_cons, List.nodup_cons, hpath]
    refine ⟨fun hmem => ?_, h.apart⟩
    obtain ⟨other, hother, hends⟩ := List.mem_map.mp hmem
    have hmark := (h.marks id).mpr ⟨other, hother, hends⟩
    rw [hvisited.fresh] at hmark
    cases hmark
  · rw [hperm.nodup_iff, List.nodup_append']
    exact ⟨nodup_extensions path f, h.nodup, fun _ hmore hbefore => hlonger hmore hbefore⟩
  · exact hknown.mpr (.inr h.root)
  · intro other hother i child hchild
    rw [hknown]
    rcases List.mem_cons.mp hother with rfl | hother
    · rw [descend_concat hpath hvisited.frame, List.getElem?_eq_some_iff] at hchild
      exact .inl (mem_extensions.mpr ⟨i, hchild.1, rfl⟩)
    · exact .inr (h.children other hother i child hchild)
  · intro other i hmore
    rcases hknown.mp hmore with hmore | hmore
    · obtain ⟨j, _, heq⟩ := mem_extensions.mp hmore
      have heq := (List.append_inj' heq rfl).1
      exact heq ▸ List.mem_cons_self
    · exact List.mem_cons_of_mem path (h.parents other i hmore)

/-! ## How the walk ends -/

/-- The walk as a loop with nothing to bound it: what it ends with, and how many frames it takes
from the stack until then. -/
inductive Walk.Ends (txHash : Hash) (t : CallTrace) : Walk → Nat → Except Fault Output → Prop where
  | finished {w : Walk} : w.stack = [] → Ends txHash t w 0 (.ok (Walk.rows w.found))
  | fault {w : Walk} {id : Nat} {rest : List Nat} {fault : Fault} : w.stack = id :: rest →
      w.visit txHash t id rest = .error fault → Ends txHash t w 1 (.error fault)
  | visit {w next : Walk} {id : Nat} {rest : List Nat} {pops : Nat} {result : Except Fault Output} :
      w.stack = id :: rest → w.visit txHash t id rest = .ok next → Ends txHash t next pops result →
      Ends txHash t w (pops + 1) result

variable {done ahead : List (List Nat)} {id : Nat} {rest : List Nat}

theorem Explores.uncons (h : Explores t w done ahead) (hstack : w.stack = id :: rest) :
    ∃ path later, ahead = path :: later ∧ descend t 0 path = some id ∧
      later.map (descend t 0) = rest.map some := by
  have hahead := h.stack
  rw [hstack, List.map_cons] at hahead
  exact List.map_eq_cons_iff.mp hahead

theorem Explores.visit_ok (h : Explores t w done ahead) (hstack : w.stack = id :: rest)
    (hvisit : w.visit txHash t id rest = .ok next) :
    ∃ path later, Explores t next (path :: done) later := by
  obtain ⟨path, later, rfl, hpath, hlater⟩ := h.uncons hstack
  obtain ⟨f, hvisited⟩ := visited_of_visit hvisit
  have htarget := not_lacksTarget_of_visit hvisited.frame hvisit
  exact ⟨path, _, h.visit hpath hlater hvisited htarget⟩

/-- A visit that finds a fault is right about it: the path to a frame that is marked is not the
one on which it was visited. -/
theorem Explores.visit_error (h : Explores t w done ahead) (hstack : w.stack = id :: rest)
    (hvisit : w.visit txHash t id rest = .error fault) : fault.Holds t := by
  obtain ⟨path, later, rfl, hpath, _⟩ := h.uncons hstack
  unfold Walk.visit at hvisit
  split at hvisit
  · next hmissing =>
    cases hvisit
    exact ⟨⟨path, hpath⟩, hmissing⟩
  · next f hframe =>
    split at hvisit
    · next hmark =>
      cases hvisit
      obtain ⟨before, hbefore, hends⟩ := (h.marks id).mp hmark
      refine ⟨before, path, ?_, hends, hpath⟩
      rintro rfl
      have hnodup := h.nodup
      rw [List.nodup_middle, List.nodup_cons] at hnodup
      exact hnodup.1 (List.mem_append_left _ hbefore)
    · split at hvisit
      · cases hvisit
      · next hfailed =>
        cases hrow : emission txHash id w.pc f with
        | error cause =>
            rw [hrow] at hvisit
            cases hvisit
            exact holds_of_emission hpath hframe (by simpa using hfailed) hrow
        | ok row =>
            rw [hrow] at hvisit
            cases hvisit

theorem Explores.wellFormed (h : Explores t w done []) : WellFormed t := by
  have hdone : ∀ path id, descend t 0 path = some id → path ∈ done := by
    intro path
    induction path using List.reverseRecOn with
    | nil =>
        intro id _
        simpa using h.root
    | append_singleton path i ih =>
        intro id hpath
        have hparent := hpath
        rw [descend_append, Option.bind_eq_some_iff] at hparent
        obtain ⟨parent, hparent, _⟩ := hparent
        simpa using h.children path (ih parent hparent) i id hpath
  have hvisited : ∀ {path id}, descend t 0 path = some id →
      ∃ f, t.frame? id = some f ∧ ¬ LacksTarget id f := by
    intro path id hpath
    obtain ⟨id', f, hpath', hframe, htarget⟩ := h.visited path (hdone path id hpath)
    obtain rfl := Option.some.inj (hpath.symm.trans hpath')
    exact ⟨f, hframe, htarget⟩
  constructor
  · have hroot : descend t 0 [] = some 0 := rfl
    obtain ⟨f, hframe, _⟩ := hvisited hroot
    have hsize := (Array.getElem?_eq_some_iff.mp hframe).1
    simpa [CallTrace.isEmpty] using Nat.ne_of_gt hsize
  · intro path id hpath
    obtain ⟨f, hframe, _⟩ := hvisited hpath
    rw [hframe]
    rfl
  · intro path path' id hpath hpath'
    exact List.inj_on_of_nodup_map h.apart (hdone path id hpath) (hdone path' id hpath')
      (hpath.trans hpath'.symm)
  · intro path id f hpath hframe
    obtain ⟨f', hframe', htarget⟩ := hvisited hpath
    obtain rfl := Option.some.inj (hframe.symm.trans hframe')
    exact htarget

theorem Walk.Ends.judges {pops : Nat} {result : Except Fault Output}
    (hends : w.Ends txHash t pops result) (h : Explores t w done ahead) :
    (∃ out, result = .ok out ∧ WellFormed t) ∨ ∃ fault, result = .error fault ∧ fault.Holds t := by
  induction hends generalizing done ahead with
  | finished hstack =>
      have hahead := h.stack
      rw [hstack, List.map_nil, List.map_eq_nil_iff] at hahead
      subst hahead
      exact .inl ⟨_, rfl, h.wellFormed⟩
  | fault hstack hvisit => exact .inr ⟨_, rfl, h.visit_error hstack hvisit⟩
  | visit hstack hvisit _ ih =>
      obtain ⟨_, _, hnext⟩ := h.visit_ok hstack hvisit
      exact ih hnext

/-! ## The bound on visits -/

theorem Explores.subset (h : Explores t w done ahead) :
    done.map (descend t 0) ⊆ (List.range t.size).map some := by
  intro last hlast
  obtain ⟨path, hpath, rfl⟩ := List.mem_map.mp hlast
  obtain ⟨id, f, hid, hframe, _⟩ := h.visited path hpath
  rw [hid]
  exact List.mem_map_of_mem (List.mem_range.mpr (Array.getElem?_eq_some_iff.mp hframe).1)

/-- Once as many paths are done as there are frames, every frame is marked. -/
theorem Explores.marked (h : Explores t w done ahead) (hall : done.length = t.size) (hid : id < t.size) :
    w.visited.getD id false = true := by
  have hperm : done.map (descend t 0) ~ (List.range t.size).map some :=
    (List.subperm_of_subset h.apart h.subset).perm_of_length_le (by simp [hall])
  have hmem : some id ∈ done.map (descend t 0) :=
    hperm.mem_iff.mpr (List.mem_map_of_mem (List.mem_range.mpr hid))
  obtain ⟨path, hpath, hends⟩ := List.mem_map.mp hmem
  exact (h.marks id).mpr ⟨path, hpath, hends⟩

/-- The number of frames bounds the visits: where it is used up, the loop has nothing left but a
fault. -/
theorem Explores.ends_run {fresh : Nat} (h : Explores t w done ahead)
    (hfresh : done.length + fresh = t.size) :
    ∃ pops ≤ fresh + 1, w.Ends txHash t pops (w.run txHash t fresh) := by
  induction fresh generalizing w done ahead with
  | zero =>
      rw [Walk.run]
      split
      · next hstack => exact ⟨0, Nat.zero_le _, .finished hstack⟩
      · next id rest hstack =>
        refine ⟨1, Nat.le_refl _, .fault hstack ?_⟩
        unfold Walk.visit
        by_cases hid : id < t.size
        · have hframe : t.frame? id = some t.frames[id] := Array.getElem?_eq_getElem hid
          rw [hframe, if_pos hid]
          simp only [h.marked hfresh hid, if_true]
        · have hframe : t.frame? id = none := Array.getElem?_eq_none (Nat.le_of_not_lt hid)
          rw [hframe, if_neg hid]
  | succ fresh ih =>
      rw [Walk.run]
      split
      · next hstack => exact ⟨0, Nat.zero_le _, .finished hstack⟩
      · next id rest hstack =>
        split
        · next fault hvisit => exact ⟨1, by omega, .fault hstack hvisit⟩
        · next next hvisit =>
          obtain ⟨path, later, hnext⟩ := h.visit_ok hstack hvisit
          obtain ⟨pops, hpops, hends⟩ := ih hnext (by rw [List.length_cons]; omega)
          exact ⟨pops + 1, by omega, .visit hstack hvisit hends⟩

/-! ## Extraction -/

theorem ends_extract (txHash : Hash) (t : CallTrace) :
    (t.isEmpty = true ∧ extract txHash t = .error .noRoot) ∨
      ∃ pops ≤ t.size + 1, (Walk.start t).Ends txHash t pops (extract txHash t) := by
  unfold extract
  split
  · next hempty => exact .inl ⟨hempty, rfl⟩
  · exact .inr (explores_start.ends_run (Nat.zero_add t.size))

/-- Every arena is judged: extraction succeeds exactly on the well-formed ones, and else refuses
the trace as malformed under the transaction's hash, with a fault that is one of the arena.  The
loop takes at most one frame more from its stack than the arena has. -/
theorem extract_ok_iff_wellFormed (txHash : Hash) (t : CallTrace) :
    ((∃ out, extract txHash t = .ok out) ↔ WellFormed t) ∧
    ((∃ fault, extract txHash t = .error fault ∧ fault.Holds t ∧
        ∀ txs ts, Importer.extractAll (txHash :: txs) (t :: ts) =
          .error (.malformedTrace txHash fault.message)) ↔ ¬ WellFormed t) ∧
    (t.isEmpty = true ∧ extract txHash t = .error .noRoot ∨
      ∃ pops ≤ t.size + 1, (Walk.start t).Ends txHash t pops (extract txHash t)) := by
  have hjudged : (∃ out, extract txHash t = .ok out ∧ WellFormed t) ∨
      ∃ fault, extract txHash t = .error fault ∧ fault.Holds t := by
    rcases ends_extract txHash t with ⟨hempty, hfault⟩ | ⟨pops, _, hends⟩
    · exact .inr ⟨_, hfault, hempty⟩
    · exact hends.judges explores_start
  have hsound : ∀ {fault}, extract txHash t = .error fault → ∀ txs ts,
      Importer.extractAll (txHash :: txs) (t :: ts) =
        .error (.malformedTrace txHash fault.message) := by
    intro fault hfault txs ts
    rw [Importer.extractAll, hfault]
  refine ⟨⟨?_, ?_⟩, ⟨?_, ?_⟩, ends_extract txHash t⟩
  · rintro ⟨out, hout⟩
    rcases hjudged with ⟨_, _, hwell⟩ | ⟨fault, hfault, _⟩
    · exact hwell
    · rw [hout] at hfault
      cases hfault
  · intro hwell
    rcases hjudged with ⟨out, hout, _⟩ | ⟨_, _, hholds⟩
    · exact ⟨out, hout⟩
    · exact absurd hwell hholds.not_wellFormed
  · rintro ⟨_, _, hholds, _⟩
    exact hholds.not_wellFormed
  · intro hill
    rcases hjudged with ⟨_, _, hwell⟩ | ⟨fault, hfault, hholds⟩
    · exact absurd hwell hill
    · exact ⟨fault, hfault, hholds, hsound hfault⟩

example : extract ⟨7⟩ ⟨#[{ Frame.plain .call ⟨1⟩ (some ⟨2⟩) 0 with children := #[0] }]⟩ =
    .error (.repeatedFrame 0) := by decide +kernel

end ChainIngest.Trace
