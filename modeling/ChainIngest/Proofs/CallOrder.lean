import Mathlib.Data.List.Nodup
import ChainIngest.Trace.Extract
/-!
# Traces in call order

The rows of a trace are those of a recursive walk: a frame, then the subtrees of
its children in their order, nothing below a frame that failed.  The walk with a
stack and marks finds just this order, whatever the child lists name, as long as
it finds no fault.
-/

namespace ChainIngest.Trace

/-! ## The recursive walk -/

/-- The frames that a walk goes on to from a frame. -/
def opened (f : Frame) : List Nat := if f.failed then [] else f.children.toList

/-- The frames of a list of subtrees in visiting order, each with its position in the arena. -/
inductive Visits (t : CallTrace) : List Nat → List (Nat × Frame) → Prop where
  | nil : Visits t [] []
  | cons {id : Nat} {f : Frame} {rest : List Nat} {below beside : List (Nat × Frame)} :
      t.frame? id = some f → Visits t (opened f) below → Visits t rest beside →
      Visits t (id :: rest) ((id, f) :: (below ++ beside))

structure Visit where
  id : Nat
  pc : Nat
  frame : Frame

def number (pc : Nat) : List (Nat × Frame) → List Visit
  | [] => []
  | (id, f) :: rest => ⟨id, pc, f⟩ :: number (pc + 1) rest

namespace Visit

/-- Whether the frame moves value inside the transaction. -/
def moves (v : Visit) : Bool :=
  !v.frame.failed && v.id != 0 && (v.frame.kind == .call || v.frame.kind == .callCode) &&
    v.frame.value != 0

def creates (v : Visit) : Bool :=
  !v.frame.failed && (v.frame.kind == .create || v.frame.kind == .create2)

def destroys (v : Visit) : Bool := !v.frame.failed && v.frame.kind == .selfDestruct

def internal? (txHash : Hash) (v : Visit) : Option InternalTransaction :=
  v.frame.target.map fun target =>
    ⟨txHash, UInt32.ofNat v.pc, v.frame.sender, target, v.frame.value⟩

def created? (txHash : Hash) (v : Visit) : Option ContractCreated :=
  v.frame.target.map fun address =>
    ⟨txHash, UInt32.ofNat v.pc, v.frame.sender, address, v.frame.output, v.frame.value, .empty,
      .generic⟩

def destroyed? (txHash : Hash) (v : Visit) : Option ContractDestroyed :=
  v.frame.target.map fun refund =>
    ⟨txHash, UInt32.ofNat v.pc, v.frame.sender, refund, v.frame.value⟩

/-! A frame has one kind, so a visit makes rows of one kind only. -/

theorem not_creates_of_moves (v : Visit) (h : v.moves = true) : ¬ v.creates = true := by
  cases hkind : v.frame.kind <;> simp_all [moves, creates]

theorem not_destroys_of_moves (v : Visit) (h : v.moves = true) : ¬ v.destroys = true := by
  cases hkind : v.frame.kind <;> simp_all [moves, destroys]

theorem not_destroys_of_creates (v : Visit) (h : v.creates = true) : ¬ v.destroys = true := by
  cases hkind : v.frame.kind <;> simp_all [creates, destroys]

end Visit

/-- A row for each visit that moves value, creates or destroys; none if one of them has no
target. -/
def rowsOf (txHash : Hash) (visits : List Visit) : Option Output := do
  let internal ← (visits.filter Visit.moves).mapM (Visit.internal? txHash)
  let created ← (visits.filter Visit.creates).mapM (Visit.created? txHash)
  let destroyed ← (visits.filter Visit.destroys).mapM (Visit.destroyed? txHash)
  return ⟨internal, created, destroyed⟩

variable {txHash : Hash} {t : CallTrace} {out : Output}

theorem Visits.append {xs ys : List Nat} {order : List (Nat × Frame)}
    (h : Visits t (xs ++ ys) order) :
    ∃ first last, Visits t xs first ∧ Visits t ys last ∧ order = first ++ last := by
  induction xs generalizing order with
  | nil => exact ⟨[], order, .nil, h, rfl⟩
  | cons id rest ih =>
      cases h with
      | cons hframe hbelow hbeside =>
          obtain ⟨first, last, hfirst, hlast, rfl⟩ := ih hbeside
          exact ⟨_, last, .cons hframe hbelow hfirst, hlast, by simp⟩

theorem Visits.unique {ids : List Nat} {order other : List (Nat × Frame)}
    (h : Visits t ids order) (h' : Visits t ids other) : other = order := by
  induction h generalizing other with
  | nil =>
      cases h'
      rfl
  | cons hframe _ _ ihbelow ihbeside =>
      cases h' with
      | cons hframe' hbelow' hbeside' =>
          cases hframe.symm.trans hframe'
          rw [ihbelow hbelow', ihbeside hbeside']

/-! ## Rows of one visit -/

@[simp] theorem Output.append_empty (o : Output) : o.append .empty = o := by
  simp [Output.append, Output.empty]

@[simp] theorem Output.empty_append (o : Output) : Output.empty.append o = o := rfl

theorem Output.append_assoc (a b c : Output) : (a.append b).append c = a.append (b.append c) := by
  simp [Output.append]

theorem rows_record (found : Output) (row : Emission) :
    Walk.rows (Walk.record found row) = (Walk.rows found).append (Walk.record .empty row) := by
  cases row <;> simp [Walk.record, Walk.rows, Output.append, Output.empty]

theorem rowsOf_eq_some_iff {visits : List Visit} : rowsOf txHash visits = some out ↔
    (visits.filter Visit.moves).mapM (Visit.internal? txHash) = some out.internal ∧
    (visits.filter Visit.creates).mapM (Visit.created? txHash) = some out.created ∧
    (visits.filter Visit.destroys).mapM (Visit.destroyed? txHash) = some out.destroyed := by
  obtain ⟨internal, created, destroyed⟩ := out
  simp only [rowsOf, Option.bind_eq_bind, Option.bind_eq_some_iff, Option.pure_def, Option.some.injEq,
    Output.mk.injEq]
  constructor
  · rintro ⟨_, hinternal, _, hcreated, _, hdestroyed, rfl, rfl, rfl⟩
    exact ⟨hinternal, hcreated, hdestroyed⟩
  · rintro ⟨hinternal, hcreated, hdestroyed⟩
    exact ⟨_, hinternal, _, hcreated, _, hdestroyed, rfl, rfl, rfl⟩

inductive Adds (txHash : Hash) (v : Visit) : Emission → Prop where
  | nothing : v.moves = false → v.creates = false → v.destroys = false → Adds txHash v .nothing
  | internal {row : InternalTransaction} : v.moves = true → v.creates = false →
      v.destroys = false → v.internal? txHash = some row → Adds txHash v (.internal row)
  | created {row : ContractCreated} : v.moves = false → v.creates = true → v.destroys = false →
      v.created? txHash = some row → Adds txHash v (.created row)
  | destroyed {row : ContractDestroyed} : v.moves = false → v.creates = false →
      v.destroys = true → v.destroyed? txHash = some row → Adds txHash v (.destroyed row)

theorem adds_of_emission {v : Visit} {row : Emission} (hfailed : v.frame.failed = false)
    (h : emission txHash v.id v.pc v.frame = .ok row) : Adds txHash v row := by
  have hmoves : v.moves = (v.id != 0 && (v.frame.kind == .call || v.frame.kind == .callCode) &&
      v.frame.value != 0) := by
    simp [Visit.moves, hfailed]
  have hcreates : v.creates = (v.frame.kind == .create || v.frame.kind == .create2) := by
    simp [Visit.creates, hfailed]
  have hdestroys : v.destroys = (v.frame.kind == .selfDestruct) := by
    simp [Visit.destroys, hfailed]
  have hcreated : v.frame.kind = .create ∨ v.frame.kind = .create2 → ∀ {address : Address},
      v.frame.target = some address → Adds txHash v (.created ⟨txHash, UInt32.ofNat v.pc,
        v.frame.sender, address, v.frame.output, v.frame.value, .empty, .generic⟩) := by
    intro hkind address htarget
    refine .created ?_ ?_ ?_ (by rw [Visit.created?, htarget, Option.map_some])
    all_goals rcases hkind with hkind | hkind <;> simp [hmoves, hcreates, hdestroys, hkind]
  unfold emission at h
  split at h
  · next hkind =>
    split at h
    · cases h
    · next htarget =>
      cases h
      exact hcreated (.inl hkind) htarget
  · next hkind =>
    split at h
    · cases h
    · next htarget =>
      cases h
      exact hcreated (.inr hkind) htarget
  · next hkind =>
    split at h
    · cases h
    · next htarget =>
      cases h
      exact .destroyed (by simp [hmoves, hkind]) (by simp [hcreates, hkind])
        (by simp [hdestroys, hkind]) (by rw [Visit.destroyed?, htarget, Option.map_some])
  · next hcreate hcreate2 hdestruct =>
    have hcreates' : v.creates = false := by
      rw [hcreates, Bool.or_eq_false_iff]
      exact ⟨beq_eq_false_iff_ne.mpr hcreate, beq_eq_false_iff_ne.mpr hcreate2⟩
    have hdestroys' : v.destroys = false := by
      rw [hdestroys]
      exact beq_eq_false_iff_ne.mpr hdestruct
    -- of the kinds that are left, those that can carry value are the two calls
    have hcarries : v.frame.kind.movesValue =
        (v.frame.kind == .call || v.frame.kind == .callCode) := by
      cases hkind : v.frame.kind <;> simp_all [CallKind.movesValue]
    split at h
    · next hroot =>
      cases h
      exact .nothing (by simp [hmoves, hroot]) hcreates' hdestroys'
    · next hinner =>
      split at h
      · cases h
      · next htarget =>
        split at h
        · next hvalue =>
          cases h
          refine .internal ?_ hcreates' hdestroys'
            (by rw [Visit.internal?, htarget, Option.map_some])
          rw [hcarries] at hvalue
          rw [hmoves, bne_iff_ne.mpr hinner, Bool.true_and]
          exact hvalue
        · next hvalue =>
          cases h
          refine .nothing ?_ hcreates' hdestroys'
          rw [hcarries, Bool.not_eq_true] at hvalue
          rw [hmoves, bne_iff_ne.mpr hinner, Bool.true_and]
          exact hvalue

theorem Adds.rowsOf_cons {v : Visit} {row : Emission} {visits : List Visit} {later : Output}
    (h : Adds txHash v row) (hlater : rowsOf txHash visits = some later) :
    rowsOf txHash (v :: visits) = some ((Walk.record .empty row).append later) := by
  rw [rowsOf_eq_some_iff] at hlater ⊢
  obtain ⟨hinternal, hcreated, hdestroyed⟩ := hlater
  cases h with
  | nothing hm hc hd =>
      simpa [List.filter_cons, hm, hc, hd, Walk.record] using ⟨hinternal, hcreated, hdestroyed⟩
  | internal hm hc hd hrow =>
      simp [hm, hc, hd, Walk.record, hinternal, hcreated, hdestroyed, hrow, List.mapM_cons,
        Output.append, Output.empty]
  | created hm hc hd hrow =>
      simp [hm, hc, hd, Walk.record, hinternal, hcreated, hdestroyed, hrow, List.mapM_cons,
        Output.append, Output.empty]
  | destroyed hm hc hd hrow =>
      simp [hm, hc, hd, Walk.record, hinternal, hcreated, hdestroyed, hrow, List.mapM_cons,
        Output.append, Output.empty]

/-! ## The walk with a stack -/

theorem getD_setIfInBounds {marks : Array Bool} {id : Nat} (hid : id < marks.size) (other : Nat) :
    (marks.setIfInBounds id true).getD other false =
      if id = other then true else marks.getD other false := by
  rw [Array.getD_eq_getD_getElem?, Array.getElem?_setIfInBounds]
  split
  · rfl
  · rw [Array.getD_eq_getD_getElem?]

theorem getD_start (t : CallTrace) (id : Nat) : (Walk.start t).visited.getD id false = false := by
  by_cases hid : id < t.size <;> simp [Walk.start, Array.getD, hid]

structure Visited (txHash : Hash) (t : CallTrace) (w : Walk) (id : Nat) (rest : List Nat)
    (f : Frame) (next : Walk) : Prop where
  frame : t.frame? id = some f
  fresh : w.visited.getD id false = false
  visited : next.visited = w.visited.setIfInBounds id true
  stack : next.stack = opened f ++ rest
  pc : next.pc = w.pc + 1
  found : ∃ row, Adds txHash ⟨id, w.pc, f⟩ row ∧ next.found = Walk.record w.found row

theorem visited_of_visit {w next : Walk} {id : Nat} {rest : List Nat}
    (h : w.visit txHash t id rest = .ok next) : ∃ f, Visited txHash t w id rest f next := by
  unfold Walk.visit at h
  split at h
  · cases h
  · next f hframe =>
    refine ⟨f, ?_⟩
    split at h
    · cases h
    · next hmark =>
      have hfresh : w.visited.getD id false = false := by simpa using hmark
      split at h
      · next hfailed =>
        cases h
        refine ⟨hframe, hfresh, rfl, by simp [opened, hfailed], rfl, .nothing, ?_, rfl⟩
        exact .nothing (by simp [Visit.moves, hfailed]) (by simp [Visit.creates, hfailed])
          (by simp [Visit.destroys, hfailed])
      · next hfailed =>
        have hfailed : f.failed = false := by simpa using hfailed
        cases hrow : emission txHash id w.pc f with
        | error fault =>
            rw [hrow] at h
            cases h
        | ok row =>
            rw [hrow] at h
            cases h
            exact ⟨hframe, hfresh, rfl, by simp [opened, hfailed], rfl, row,
              adds_of_emission hfailed hrow, rfl⟩

/-- A walk with a stack finds the order of the recursive walk from every frame on the stack, and
the rows of that order behind those it had found before. -/
theorem order_of_run {fresh : Nat} {w : Walk} (hsize : w.visited.size = t.size)
    (h : w.run txHash t fresh = .ok out) :
    ∃ order later, Visits t w.stack order ∧ order.length ≤ fresh ∧
      (order.map Prod.fst).Nodup ∧ (∀ v ∈ order, w.visited.getD v.1 false = false) ∧
      rowsOf txHash (number w.pc order) = some later ∧ out = (Walk.rows w.found).append later := by
  induction fresh generalizing w with
  | zero =>
      rw [Walk.run] at h
      split at h
      · next hstack =>
        cases h
        rw [hstack]
        exact ⟨[], .empty, .nil, Nat.le_refl 0, .nil, by simp, rfl, by simp⟩
      · cases h
  | succ fresh ih =>
      rw [Walk.run] at h
      split at h
      · next hstack =>
        cases h
        rw [hstack]
        exact ⟨[], .empty, .nil, Nat.zero_le _, .nil, by simp, rfl, by simp⟩
      · next id rest hstack =>
        split at h
        · cases h
        · next next hvisit =>
          obtain ⟨f, hvisited⟩ := visited_of_visit hvisit
          have hid : id < w.visited.size := by
            rw [hsize]
            exact (Array.getElem?_eq_some_iff.mp hvisited.frame).1
          obtain ⟨order, later, horder, hlength, hnodup, hunmarked, hrows, rfl⟩ :=
            ih (by rw [hvisited.visited, Array.size_setIfInBounds, hsize]) h
          rw [hvisited.stack] at horder
          obtain ⟨below, beside, hbelow, hbeside, rfl⟩ := horder.append
          obtain ⟨row, hadds, hfound⟩ := hvisited.found
          -- what is visited later was unmarked after this visit, so it is another frame
          have hother : ∀ v ∈ below ++ beside, v.1 ≠ id ∧ w.visited.getD v.1 false = false := by
            intro v hv
            have hv := hunmarked v hv
            rw [hvisited.visited, getD_setIfInBounds hid] at hv
            by_cases heq : id = v.1
            · rw [if_pos heq] at hv
              cases hv
            · rw [if_neg heq] at hv
              exact ⟨Ne.symm heq, hv⟩
          refine ⟨(id, f) :: (below ++ beside), (Walk.record .empty row).append later,
            hstack ▸ .cons hvisited.frame hbelow hbeside, ?_, ?_, ?_, ?_, ?_⟩
          · exact Nat.succ_le_succ hlength
          · rw [List.map_cons, List.nodup_cons]
            refine ⟨fun hmem => ?_, hnodup⟩
            obtain ⟨v, hv, heq⟩ := List.mem_map.mp hmem
            exact (hother v hv).1 heq
          · intro v hv
            rcases List.mem_cons.mp hv with rfl | hv
            · exact hvisited.fresh
            · exact (hother v hv).2
          · rw [hvisited.pc] at hrows
            exact hadds.rowsOf_cons hrows
          · rw [hfound, rows_record, Output.append_assoc]

/-! ## Numbers -/

theorem map_pc_number (pc : Nat) (order : List (Nat × Frame)) :
    (number pc order).map Visit.pc = List.range' pc order.length := by
  induction order generalizing pc with
  | nil => rfl
  | cons v rest ih => rw [number, List.map_cons, ih, List.length_cons, List.range'_succ]

theorem map_id_number (pc : Nat) (order : List (Nat × Frame)) :
    (number pc order).map Visit.id = order.map Prod.fst := by
  induction order generalizing pc with
  | nil => rfl
  | cons v rest ih => rw [number, List.map_cons, ih, List.map_cons]

theorem mapM_cons_eq_some {α β : Type} {f : α → Option β} {x : α} {xs : List α} {ys : List β} :
    (x :: xs).mapM f = some ys ↔ ∃ y rest, f x = some y ∧ xs.mapM f = some rest ∧ ys = y :: rest := by
  simp only [List.mapM_cons, Option.bind_eq_bind, Option.bind_eq_some_iff, Option.pure_def,
    Option.some.injEq]
  constructor
  · rintro ⟨y, hy, rest, hrest, rfl⟩
    exact ⟨y, rest, hy, hrest, rfl⟩
  · rintro ⟨y, rest, hy, hrest, rfl⟩
    exact ⟨y, hy, rest, hrest, rfl⟩

theorem map_of_mapM {α β γ : Type} {f : α → Option β} {g : α → γ} {k : β → γ}
    (hf : ∀ a b, f a = some b → k b = g a) {xs : List α} {ys : List β}
    (h : xs.mapM f = some ys) : ys.map k = xs.map g := by
  induction xs generalizing ys with
  | nil =>
      cases h
      rfl
  | cons x xs ih =>
      obtain ⟨y, rest, hy, hrest, rfl⟩ := mapM_cons_eq_some.mp h
      rw [List.map_cons, List.map_cons, hf x y hy, ih hrest]

theorem mem_of_mapM {α β : Type} {f : α → Option β} {xs : List α} {ys : List β} {y : β}
    (h : xs.mapM f = some ys) (hy : y ∈ ys) : ∃ x ∈ xs, f x = some y := by
  induction xs generalizing ys with
  | nil =>
      cases h
      cases hy
  | cons x xs ih =>
      obtain ⟨first, rest, hfirst, hrest, rfl⟩ := mapM_cons_eq_some.mp h
      rcases List.mem_cons.mp hy with rfl | hy
      · exact ⟨x, List.mem_cons_self, hfirst⟩
      · obtain ⟨x', hx', hf⟩ := ih hrest hy
        exact ⟨x', List.mem_cons_of_mem x hx', hf⟩

def pcOf (v : Visit) : UInt32 := UInt32.ofNat v.pc

theorem of_internal? {v : Visit} {row : InternalTransaction} (h : v.internal? txHash = some row) :
    row.pc = pcOf v ∧ row.txHash = txHash := by
  obtain ⟨target, _, rfl⟩ := Option.map_eq_some_iff.mp h
  exact ⟨rfl, rfl⟩

theorem of_created? {v : Visit} {row : ContractCreated} (h : v.created? txHash = some row) :
    row.pc = pcOf v ∧ row.txHash = txHash := by
  obtain ⟨address, _, rfl⟩ := Option.map_eq_some_iff.mp h
  exact ⟨rfl, rfl⟩

theorem of_destroyed? {v : Visit} {row : ContractDestroyed} (h : v.destroyed? txHash = some row) :
    row.pc = pcOf v ∧ row.txHash = txHash := by
  obtain ⟨refund, _, rfl⟩ := Option.map_eq_some_iff.mp h
  exact ⟨rfl, rfl⟩

/-- A walk of fewer visits than there are row numbers. -/
structure Numbered (visits : List Visit) : Prop where
  rising : visits.Pairwise fun a b => a.pc < b.pc
  small : ∀ v ∈ visits, v.pc < 2 ^ 32

theorem numbered_number {order : List (Nat × Frame)} (h : order.length < 2 ^ 32) :
    Numbered (number 0 order) := by
  have hpcs := map_pc_number 0 order
  constructor
  · have hrange : ((number 0 order).map Visit.pc).Pairwise (· < ·) := by
      rw [hpcs]
      exact List.pairwise_lt_range'
    exact List.pairwise_map.mp hrange
  · intro v hv
    have hmem : v.pc ∈ (number 0 order).map Visit.pc := List.mem_map_of_mem hv
    rw [hpcs, List.mem_range'_1] at hmem
    omega

namespace Numbered

variable {visits : List Visit}

theorem toNat_pcOf (h : Numbered visits) {v : Visit} (hv : v ∈ visits) : (pcOf v).toNat = v.pc := by
  have hsmall := h.small v hv
  rw [pcOf, UInt32.toNat_ofNat']
  omega

theorem eq_of_pcOf (h : Numbered visits) {v v' : Visit} (hv : v ∈ visits) (hv' : v' ∈ visits)
    (hpc : pcOf v = pcOf v') : v = v' := by
  have hnat : v.pc = v'.pc := by
    rw [← h.toNat_pcOf hv, ← h.toNat_pcOf hv', hpc]
  have hnodup : (visits.map Visit.pc).Nodup :=
    List.pairwise_map.mpr (h.rising.imp Nat.ne_of_lt)
  exact List.inj_on_of_nodup_map hnodup hv hv' hnat

theorem pairwise_pcOf (h : Numbered visits) (p : Visit → Bool) :
    ((visits.filter p).map pcOf).Pairwise (· < ·) := by
  rw [List.pairwise_map]
  refine (h.rising.filter p).imp_of_mem ?_
  intro v v' hv hv' hlt
  rw [UInt32.lt_iff_toNat_lt, h.toNat_pcOf (List.mem_of_mem_filter hv),
    h.toNat_pcOf (List.mem_of_mem_filter hv')]
  exact hlt

/-- No visit makes rows of two kinds, so no number stands in two of the lists. -/
theorem disjoint_pcOf (h : Numbered visits) {p q : Visit → Bool}
    (hpq : ∀ v, p v = true → q v = true → False) :
    ((visits.filter p).map pcOf).Disjoint ((visits.filter q).map pcOf) := by
  intro pc hpc hpc'
  obtain ⟨v, hv, rfl⟩ := List.mem_map.mp hpc
  obtain ⟨v', hv', heq⟩ := List.mem_map.mp hpc'
  obtain ⟨hv, hp⟩ := List.mem_filter.mp hv
  obtain ⟨hv', hq⟩ := List.mem_filter.mp hv'
  obtain rfl := h.eq_of_pcOf hv' hv heq
  exact hpq _ hp hq

end Numbered

/-! ## Extraction -/

theorem order_of_extract (h : extract txHash t = .ok out) :
    ∃ order, Visits t [0] order ∧ order.length ≤ t.size ∧ (order.map Prod.fst).Nodup ∧
      rowsOf txHash (number 0 order) = some out := by
  unfold extract at h
  split at h
  · cases h
  · obtain ⟨order, later, horder, hlength, hnodup, _, hrows, rfl⟩ :=
      order_of_run (by simp [Walk.start]) h
    exact ⟨order, horder, hlength, hnodup, hrows⟩

theorem txHash_of_extract (h : extract txHash t = .ok out) :
    (∀ row ∈ out.internal, row.txHash = txHash) ∧ ∀ row ∈ out.destroyed, row.txHash = txHash := by
  obtain ⟨order, _, _, _, hrows⟩ := order_of_extract h
  obtain ⟨hinternal, _, hdestroyed⟩ := rowsOf_eq_some_iff.mp hrows
  constructor
  · intro row hrow
    obtain ⟨v, _, hv⟩ := mem_of_mapM hinternal hrow
    exact (of_internal? hv).2
  · intro row hrow
    obtain ⟨v, _, hv⟩ := mem_of_mapM hdestroyed hrow
    exact (of_destroyed? hv).2

theorem id_eq_zero_iff {order : List (Nat × Frame)} (h : Visits t [0] order)
    (hnodup : (order.map Prod.fst).Nodup) {v : Visit} (hv : v ∈ number 0 order) :
    v.id = 0 ↔ v.pc = 0 := by
  cases h with
  | @cons _ f _ below beside _ _ _ =>
      rw [number] at hv
      rcases List.mem_cons.mp hv with rfl | hv
      · exact iff_of_true rfl rfl
      · rw [List.map_cons, List.nodup_cons, ← map_id_number 1] at hnodup
        have hid : v.id ≠ 0 := fun hzero => hnodup.1 (hzero ▸ List.mem_map_of_mem hv)
        have hpc : v.pc ∈ (number 1 (below ++ beside)).map Visit.pc := List.mem_map_of_mem hv
        rw [map_pc_number, List.mem_range'_1] at hpc
        exact iff_of_false hid (by omega)

/-- Where a trace is read without a fault, its rows are those of the recursive walk from the root:
a row for each visited frame that did not fail and moves value, creates or destroys, with the
number of the visit.  So each kind of row stands in the order of its numbers, no number stands
twice, and a creation is the transaction's own exactly when it is the root's. -/
theorem extract_eq_walk (hsize : t.size < 2 ^ 32) (h : extract txHash t = .ok out) :
    ∃ order, Visits t [0] order ∧ (∀ other, Visits t [0] other → other = order) ∧
      rowsOf txHash (number 0 order) = some out ∧
      (out.internal.map InternalTransaction.pc).Pairwise (· < ·) ∧
      (out.created.map ContractCreated.pc).Pairwise (· < ·) ∧
      (out.destroyed.map ContractDestroyed.pc).Pairwise (· < ·) ∧
      (out.internal.map InternalTransaction.pc ++ out.created.map ContractCreated.pc ++
        out.destroyed.map ContractDestroyed.pc).Nodup ∧
      ∀ c ∈ out.created, c.isTopLevel = true ↔
        ∃ v ∈ number 0 order, v.id = 0 ∧ v.creates = true ∧ v.created? txHash = some c := by
  obtain ⟨order, horder, hlength, hnodup, hrows⟩ := order_of_extract h
  have hnumbered := numbered_number (Nat.lt_of_le_of_lt hlength hsize)
  obtain ⟨hinternal, hcreated, hdestroyed⟩ := rowsOf_eq_some_iff.mp hrows
  have hpcs := map_of_mapM (fun _ _ hrow => (of_internal? hrow).1) hinternal
  have hpcs' := map_of_mapM (fun _ _ hrow => (of_created? hrow).1) hcreated
  have hpcs'' := map_of_mapM (fun _ _ hrow => (of_destroyed? hrow).1) hdestroyed
  have hrising := hnumbered.pairwise_pcOf
  refine ⟨order, horder, fun other hother => horder.unique hother, hrows, hpcs ▸ hrising _,
    hpcs' ▸ hrising _, hpcs'' ▸ hrising _, ?_, ?_⟩
  · have hnodupPcs : ∀ p, (((number 0 order).filter p).map pcOf).Nodup :=
      fun p => (hrising p).imp fun hlt => UInt32.ne_of_lt hlt
    rw [hpcs, hpcs', hpcs'', List.nodup_append', List.nodup_append', List.disjoint_append_left]
    exact ⟨⟨hnodupPcs _, hnodupPcs _, hnumbered.disjoint_pcOf fun v => v.not_creates_of_moves⟩,
      hnodupPcs _, hnumbered.disjoint_pcOf fun v => v.not_destroys_of_moves,
      hnumbered.disjoint_pcOf fun v => v.not_destroys_of_creates⟩
  · intro c hc
    obtain ⟨v, hv, hvc⟩ := mem_of_mapM hcreated hc
    obtain ⟨hv, hcreates⟩ := List.mem_filter.mp hv
    have hzero : ∀ v' ∈ number 0 order, Visit.created? txHash v' = some c →
        (v'.id = 0 ↔ c.isTopLevel = true) := by
      intro v' hv' hc'
      rw [id_eq_zero_iff horder hnodup hv', ContractCreated.isTopLevel, decide_eq_true_eq,
        (of_created? hc').1, ← UInt32.toNat_inj, hnumbered.toNat_pcOf hv']
      rfl
    constructor
    · intro htop
      exact ⟨v, hv, (hzero v hv hvc).mpr htop, hcreates, hvc⟩
    · rintro ⟨v', hv', hid, _, hc'⟩
      exact (hzero v' hv' hc').mp hid

/-- A call that failed hides the frame below it; the creation beside it makes a call and destroys
itself. -/
def nestedTrace : CallTrace :=
  let call (value : Word) : Frame := .plain .call ⟨1⟩ (some ⟨2⟩) value
  ⟨#[{ call 9 with children := #[1, 3] },
    { call 8 with error := some "reverted", children := #[2] },
    call 7,
    { Frame.plain .create2 ⟨1⟩ (some ⟨3⟩) 6 with children := #[4, 5] },
    call 5,
    .plain .selfDestruct ⟨3⟩ (some ⟨1⟩) 4]⟩

theorem extract_eq_walk_nested : ∃ out order,
    nestedTrace.size < 2 ^ 32 ∧ extract ⟨7⟩ nestedTrace = .ok out ∧
      Visits nestedTrace [0] order ∧ rowsOf ⟨7⟩ (number 0 order) = some out ∧
      out = ⟨[⟨⟨7⟩, 3, ⟨1⟩, ⟨2⟩, 5⟩], [⟨⟨7⟩, 2, ⟨1⟩, ⟨3⟩, [], 6, .empty, .generic⟩],
        [⟨⟨7⟩, 4, ⟨3⟩, ⟨1⟩, 4⟩]⟩ := by
  have hsize : nestedTrace.size < 2 ^ 32 := by decide
  have hout : extract ⟨7⟩ nestedTrace = .ok ⟨[⟨⟨7⟩, 3, ⟨1⟩, ⟨2⟩, 5⟩],
      [⟨⟨7⟩, 2, ⟨1⟩, ⟨3⟩, [], 6, .empty, .generic⟩], [⟨⟨7⟩, 4, ⟨3⟩, ⟨1⟩, 4⟩]⟩ := by decide +kernel
  obtain ⟨order, horder, _, hrows, _⟩ := extract_eq_walk hsize hout
  exact ⟨_, order, hsize, hout, horder, hrows, rfl⟩

end ChainIngest.Trace
