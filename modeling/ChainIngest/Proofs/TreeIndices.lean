import ChainIngest.Proofs.TraceTrees
/-!
# Indices in the whole tree

A walk numbers the frames that it visits.  The whole tree has more: what hangs below a
failed frame stands in the pre-order too, but takes no number.  So the number in a row
is the index of its frame in the pre-order of the whole tree less the frames below
failed ones that come before it, and it is the index itself exactly where there are
none.
-/

namespace ChainIngest.Trace

open CallTrace
open scoped List

/-! ## The whole tree in pre-order -/

structure Place where
  id : Nat
  frame : Frame
  /-- Whether a frame above it failed. -/
  hidden : Bool

/-- The frames of a list of subtrees in pre-order, failed frames with all that hangs below them.
`hidden` tells whether a frame above the subtrees failed. -/
inductive Preordered (t : CallTrace) : (hidden : Bool) → List Nat → List Place → Prop where
  | nil {hidden : Bool} : Preordered t hidden [] []
  | cons {hidden : Bool} {id : Nat} {f : Frame} {rest : List Nat} {below beside : List Place} :
      t.frame? id = some f → Preordered t (hidden || f.failed) f.children.toList below →
      Preordered t hidden rest beside →
      Preordered t hidden (id :: rest) (⟨id, f, hidden⟩ :: (below ++ beside))

variable {t : CallTrace} {txHash : Hash} {out : Output} {hidden : Bool} {ids more : List Nat}
  {full later : List Place} {parent : Nat} {child : Frame}

theorem Preordered.unique {other : List Place} (h : Preordered t hidden ids full)
    (h' : Preordered t hidden ids other) : other = full := by
  induction h generalizing other with
  | nil =>
      cases h'
      rfl
  | cons hframe _ _ ihbelow ihbeside =>
      cases h' with
      | cons hframe' hbelow' hbeside' =>
          cases hframe.symm.trans hframe'
          rw [ihbelow hbelow', ihbeside hbeside']

theorem Preordered.append (h : Preordered t hidden ids full)
    (hlater : Preordered t hidden more later) :
    Preordered t hidden (ids ++ more) (full ++ later) := by
  induction h with
  | nil => exact hlater
  | cons hframe hbelow _ _ ih =>
      rw [List.cons_append, List.cons_append, List.append_assoc]
      exact .cons hframe hbelow (ih hlater)

/-! ## One more frame -/

def occurrences (full : List Place) (id : Nat) : Nat := full.countP fun p => p.id == id

theorem occurrences_cons (p : Place) (id : Nat) :
    occurrences (p :: full) id = occurrences full id + if p.id = id then 1 else 0 := by
  simp [occurrences, List.countP_cons]

theorem occurrences_append (id : Nat) :
    occurrences (full ++ later) id = occurrences full id + occurrences later id :=
  List.countP_append

/-- A new frame takes its place wherever its parent has one, and no other frame moves. -/
theorem Preordered.pushChild (h : Preordered t hidden ids full) (parent : Nat)
    (hchildren : child.children = #[]) :
    ∃ full', Preordered (t.pushChild parent child) hidden ids full' ∧
      ∀ id, occurrences full' id = occurrences full id +
        if t.size = id then occurrences full parent else 0 := by
  induction h with
  | nil => exact ⟨[], .nil, by simp [occurrences]⟩
  | @cons hidden id f rest below beside hframe _ _ ihbelow ihbeside =>
      obtain ⟨below', hbelow', hmoreBelow⟩ := ihbelow
      obtain ⟨beside', hbeside', hmoreBeside⟩ := ihbeside
      have hold : id ≠ t.size := Nat.ne_of_lt (lt_size_of_frame? hframe)
      by_cases heq : id = parent
      · subst heq
        have hframe' : (t.pushChild id child).frame? id = some (f.addChild t.size) := by
          rw [frame?_pushChild, if_neg hold, if_pos rfl, hframe]
          rfl
        have hnew : (t.pushChild id child).frame? t.size = some child := by
          rw [frame?_pushChild, if_pos rfl]
        have hlast : Preordered (t.pushChild id child) (hidden || f.failed) [t.size]
            [⟨t.size, child, hidden || f.failed⟩] :=
          .cons hnew (by rw [hchildren]; exact .nil) .nil
        have hchildren' : (f.addChild t.size).children.toList = f.children.toList ++ [t.size] := by
          rw [Frame.addChild, Array.toList_push]
        refine ⟨_, .cons hframe' (hchildren' ▸ hbelow'.append hlast) hbeside', fun other => ?_⟩
        simp only [occurrences_cons, occurrences_append, hmoreBelow other, hmoreBeside other,
          if_true]
        rw [show occurrences [] other = 0 from rfl]
        split <;> omega
      · have hframe' : (t.pushChild parent child).frame? id = some f := by
          rw [frame?_pushChild, if_neg hold, if_neg heq, hframe]
        refine ⟨_, .cons hframe' hbelow' hbeside', fun other => ?_⟩
        simp only [occurrences_cons, occurrences_append, hmoreBelow other, hmoreBeside other,
          if_neg heq]
        split <;> omega

/-- A trace that grew has each of its frames once in pre-order. -/
theorem exists_preordered (h : Grown t) : ∃ full, Preordered t false [0] full ∧
    ∀ id, occurrences full id = if id < t.size then 1 else 0 := by
  induction h with
  | @root f hchildren =>
      have hroot : (ofRoot f).frame? 0 = some f := rfl
      refine ⟨_, .cons hroot (by rw [hchildren]; exact .nil) .nil, fun id => ?_⟩
      rw [occurrences_cons, List.append_nil, show (ofRoot f).size = 1 from rfl,
        show occurrences [] id = 0 from rfl]
      dsimp only
      split <;> split <;> omega
  | @offer t child parent hgrown hchildren ih =>
      by_cases hparent : parent < t.size
      · rw [offer_of_lt hparent]
        obtain ⟨full, hfull, honce⟩ := ih
        obtain ⟨full', hfull', hmore⟩ := hfull.pushChild parent hchildren
        refine ⟨full', hfull', fun id => ?_⟩
        rw [hmore, honce, honce, if_pos hparent, size_pushChild]
        split <;> split <;> split <;> omega
      · have hmissing : t.frame? parent = none := by
          rw [← Option.not_isSome_iff_eq_none, frame?_isSome]
          exact hparent
        rw [(offer_of_missing hmissing).2]
        exact ih

theorem perm_range_of_occurrences {n : Nat}
    (h : ∀ id, occurrences full id = if id < n then 1 else 0) :
    full.map Place.id ~ List.range n := by
  refine List.perm_iff_count.mpr fun id => ?_
  rw [List.nodup_range.count, List.count, List.countP_map]
  simp only [List.mem_range]
  exact h id

/-! ## What a walk visits -/

def shown (full : List Place) : List (Nat × Frame) :=
  (full.filter fun p => !p.hidden).map fun p => (p.id, p.frame)

theorem shown_append : shown (full ++ later) = shown full ++ shown later := by
  simp [shown]

theorem shown_of_hidden (h : Preordered t true ids full) : shown full = [] := by
  generalize hflag : true = hidden at h
  induction h with
  | nil => rfl
  | cons _ _ _ ihbelow ihbeside =>
      subst hflag
      rw [shown, List.filter_cons_of_neg (by simp), ← shown, shown_append, ihbelow rfl,
        ihbeside rfl]
      rfl

/-- A walk visits the frames that are not below failed ones, in their order. -/
theorem visits_of_preordered (h : Preordered t false ids full) : Visits t ids (shown full) := by
  generalize hflag : false = hidden at h
  induction h with
  | nil => exact .nil
  | @cons hidden id f rest below beside hframe hbelow _ ihbelow ihbeside =>
      subst hflag
      have hfirst : shown (⟨id, f, false⟩ :: (below ++ beside)) =
          (id, f) :: (shown below ++ shown beside) := by
        rw [← shown_append]
        rfl
      rw [hfirst]
      refine .cons hframe ?_ (ihbeside rfl)
      cases hfailed : f.failed with
      | true =>
          rw [hfailed] at hbelow
          rw [shown_of_hidden hbelow, opened, if_pos hfailed]
          exact .nil
      | false =>
          rw [opened, hfailed, if_neg Bool.false_ne_true]
          exact ihbelow (by rw [hfailed]; rfl)

/-! ## Numbers and indices -/

def Place.visit (p : Place) (pc : Nat) : Visit := ⟨p.id, pc, p.frame⟩

/-- The frames that are not below failed ones, each with a number worked out from its index. -/
def visitsBy (pc : Nat → Nat) (full : List Place) : List Visit :=
  (full.zipIdx.filter fun p => !p.1.hidden).map fun p => p.1.visit (pc p.2)

/-- How many frames below failed ones stand before an index. -/
def hiddenBefore (full : List Place) (i : Nat) : Nat := (full.take i).countP Place.hidden

theorem hiddenBefore_cons (p : Place) (i : Nat) :
    hiddenBefore (p :: full) (i + 1) = hiddenBefore full i + if p.hidden then 1 else 0 := by
  rw [hiddenBefore, List.take_succ_cons, List.countP_cons]
  rfl

theorem hiddenBefore_le (full : List Place) (i : Nat) : hiddenBefore full i ≤ i :=
  Nat.le_trans List.countP_le_length (List.length_take_le i full)

/-- Counting visits is counting frames and leaving out those below failed ones. -/
theorem number_shown (full : List Place) :
    number 0 (shown full) = visitsBy (fun i => i - hiddenBefore full i) full := by
  suffices hfrom : ∀ (full : List Place) (start k : Nat) (pc : Nat → Nat),
      (∀ i, pc (start + i) + hiddenBefore full i = k + i) →
      number k (shown full) =
        ((full.zipIdx start).filter fun p => !p.1.hidden).map fun p => p.1.visit (pc p.2) by
    refine hfrom full 0 0 (fun i => i - hiddenBefore full i) fun i => ?_
    have hle := hiddenBefore_le full i
    rw [Nat.zero_add]
    omega
  intro full
  induction full with
  | nil => intros; rfl
  | cons p rest ih =>
      intro start k pc hpc
      have hnext : ∀ i, pc (start + 1 + i) + (hiddenBefore rest i + if p.hidden then 1 else 0) =
          k + (i + 1) := by
        intro i
        rw [← hiddenBefore_cons, ← hpc (i + 1), Nat.add_assoc, Nat.add_comm 1]
      rw [List.zipIdx_cons]
      cases hhidden : p.hidden with
      | true =>
          rw [shown, List.filter_cons_of_neg (by simp [hhidden]),
            List.filter_cons_of_neg (by simp [hhidden])]
          refine ih (start + 1) k pc fun i => ?_
          have hi := hnext i
          rw [hhidden, if_pos rfl] at hi
          omega
      | false =>
          have hfirst : pc start = k := hpc 0
          rw [shown, List.filter_cons_of_pos (by simp [hhidden]),
            List.filter_cons_of_pos (by simp [hhidden]), List.map_cons, List.map_cons, number,
            Place.visit, hfirst]
          congr 1
          refine ih (start + 1) (k + 1) pc fun i => ?_
          have hi := hnext i
          rw [hhidden, if_neg Bool.false_ne_true] at hi
          omega

variable {pc pc' : Nat → Nat} {q : Visit → Bool}

theorem filter_visitsBy (hq : ∀ (p : Place) a b, q (p.visit a) = q (p.visit b)) :
    (visitsBy pc full).filter q =
      (full.zipIdx.filter fun p => q (p.1.visit 0) && !p.1.hidden).map
        fun p => p.1.visit (pc p.2) := by
  have hsame : q ∘ (fun p : Place × Nat => p.1.visit (pc p.2)) = fun p => q (p.1.visit 0) :=
    funext fun p => hq p.1 _ _
  rw [visitsBy, List.filter_map, hsame, List.filter_filter]

theorem filter_visitsBy_congr (hq : ∀ (p : Place) a b, q (p.visit a) = q (p.visit b))
    (h : ∀ i p, full[i]? = some p → p.hidden = false → q (p.visit 0) = true → pc i = pc' i) :
    (visitsBy pc full).filter q = (visitsBy pc' full).filter q := by
  rw [filter_visitsBy hq, filter_visitsBy hq]
  refine List.map_congr_left fun p hp => ?_
  obtain ⟨hmem, hchosen⟩ := List.mem_filter.mp hp
  rw [Bool.and_eq_true, Bool.not_eq_true'] at hchosen
  rw [h p.2 p.1 (List.mem_zipIdx_iff_getElem?.mp hmem) hchosen.2 hchosen.1]

theorem pc_eq_of_mapM {β : Type} {row : Visit → Option β} {number : β → UInt32} {rows : List β}
    (hq : ∀ (p : Place) a b, q (p.visit a) = q (p.visit b))
    (hrow : ∀ v r, row v = some r → number r = pcOf v)
    (h : ((visitsBy pc full).filter q).mapM row = some rows)
    (h' : ((visitsBy pc' full).filter q).mapM row = some rows) {i : Nat} {p : Place}
    (hp : full[i]? = some p) (hshown : p.hidden = false) (hchosen : q (p.visit 0) = true) :
    UInt32.ofNat (pc i) = UInt32.ofNat (pc' i) := by
  have hsame := (map_of_mapM hrow h).symm.trans (map_of_mapM hrow h')
  rw [filter_visitsBy hq, filter_visitsBy hq, List.map_map, List.map_map,
    List.map_inj_left] at hsame
  refine hsame (p, i) (List.mem_filter.mpr ⟨List.mem_zipIdx_iff_getElem?.mpr hp, ?_⟩)
  rw [hchosen, hshown]
  rfl

/-! ## Extraction -/

def Place.emits (p : Place) : Bool :=
  !p.hidden && ((p.visit 0).moves || (p.visit 0).creates || (p.visit 0).destroys)

/-- The rows of a trace if every row has the index of its frame in the pre-order of the whole
tree. -/
def TreeNumbered (txHash : Hash) (t : CallTrace) (out : Output) : Prop :=
  ∃ full, Preordered t false [0] full ∧ rowsOf txHash (visitsBy (fun i => i) full) = some out

theorem rowsOf_visitsBy_congr (h : ∀ i p, full[i]? = some p → p.emits = true → pc i = pc' i) :
    rowsOf txHash (visitsBy pc full) = rowsOf txHash (visitsBy pc' full) := by
  have hchosen : ∀ q : Visit → Bool, (∀ (p : Place) a b, q (p.visit a) = q (p.visit b)) →
      (∀ p : Place, q (p.visit 0) = true → p.hidden = false → p.emits = true) →
      (visitsBy pc full).filter q = (visitsBy pc' full).filter q := by
    intro q hq hemits
    exact filter_visitsBy_congr hq fun i p hp hshown hchosen => h i p hp (hemits p hchosen hshown)
  have hmoves := hchosen Visit.moves (fun _ _ _ => rfl) fun p hrow hshown => by
    simp [Place.emits, hrow, hshown]
  have hcreates := hchosen Visit.creates (fun _ _ _ => rfl) fun p hrow hshown => by
    simp [Place.emits, hrow, hshown]
  have hdestroys := hchosen Visit.destroys (fun _ _ _ => rfl) fun p hrow hshown => by
    simp [Place.emits, hrow, hshown]
  rw [rowsOf, rowsOf, hmoves, hcreates, hdestroys]

theorem pc_eq_of_rowsOf (h : rowsOf txHash (visitsBy pc full) = some out)
    (h' : rowsOf txHash (visitsBy pc' full) = some out) {i : Nat} {p : Place}
    (hp : full[i]? = some p) (hemits : p.emits = true) :
    UInt32.ofNat (pc i) = UInt32.ofNat (pc' i) := by
  obtain ⟨hinternal, hcreated, hdestroyed⟩ := rowsOf_eq_some_iff.mp h
  obtain ⟨hinternal', hcreated', hdestroyed'⟩ := rowsOf_eq_some_iff.mp h'
  rw [Place.emits, Bool.and_eq_true, Bool.not_eq_true', Bool.or_eq_true, Bool.or_eq_true] at hemits
  obtain ⟨hshown, (hmoves | hcreates) | hdestroys⟩ := hemits
  · exact pc_eq_of_mapM (fun _ _ _ => rfl) (fun _ _ hrow => (of_internal? hrow).1) hinternal
      hinternal' hp hshown hmoves
  · exact pc_eq_of_mapM (fun _ _ _ => rfl) (fun _ _ hrow => (of_created? hrow).1) hcreated
      hcreated' hp hshown hcreates
  · exact pc_eq_of_mapM (fun _ _ _ => rfl) (fun _ _ hrow => (of_destroyed? hrow).1) hdestroyed
      hdestroyed' hp hshown hdestroys

/-- In a trace that grew frame by frame, every frame has one place in the pre-order of the whole
tree.  The number in a row is the index of its frame there less the frames below failed ones that
come before it.  So, as far as row numbers reach, the rows have the indices of their frames exactly
if none of them comes behind such a frame. -/
theorem rows_of_grown (h : Grown t) (hout : extract txHash t = .ok out) :
    ∃ full, Preordered t false [0] full ∧ (∀ other, Preordered t false [0] other → other = full) ∧
      full.map Place.id ~ List.range t.size ∧
      rowsOf txHash (visitsBy (fun i => i - hiddenBefore full i) full) = some out ∧
      (t.size ≤ 2 ^ 32 → (TreeNumbered txHash t out ↔
        ∀ i p, full[i]? = some p → p.emits = true → hiddenBefore full i = 0)) := by
  obtain ⟨full, hfull, honce⟩ := exists_preordered h
  have hperm := perm_range_of_occurrences honce
  obtain ⟨order, horder, _, _, hrows⟩ := order_of_extract hout
  obtain rfl := (visits_of_preordered hfull).unique horder
  rw [number_shown] at hrows
  refine ⟨full, hfull, fun other hother => hfull.unique hother, hperm, hrows, fun hsize => ?_⟩
  constructor
  · rintro ⟨other, hother, hnumbered⟩ i p hp hemits
    obtain rfl := hfull.unique hother
    have hsame := pc_eq_of_rowsOf hnumbered hrows hp hemits
    have hlt : i < 2 ^ 32 := by
      have hlength : other.length = t.size := by simpa using hperm.length_eq
      have hi := (List.getElem?_eq_some_iff.mp hp).1
      omega
    have hle := hiddenBefore_le other i
    have hlt' : i - hiddenBefore other i < 2 ^ 32 := Nat.lt_of_le_of_lt (Nat.sub_le _ _) hlt
    rw [← UInt32.toNat_inj, UInt32.toNat_ofNat_of_lt' hlt, UInt32.toNat_ofNat_of_lt' hlt'] at hsame
    omega
  · intro hnone
    refine ⟨full, hfull, ?_⟩
    rw [← hrows]
    refine rowsOf_visitsBy_congr fun i p hp hemits => ?_
    rw [hnone i p hp hemits, Nat.sub_zero]

/-- A call that moves value, a failed call with a frame below it, and a creation behind them. -/
def screenedTrace : CallTrace :=
  let root := CallTrace.ofRoot (.plain .call ⟨1⟩ (some ⟨2⟩) 9)
  let first := root.offer 0 (.plain .call ⟨2⟩ (some ⟨3⟩) 8)
  let failed := first.offer 0 { Frame.plain .call ⟨2⟩ (some ⟨4⟩) 7 with error := some "reverted" }
  let below := failed.offer 2 (.plain .call ⟨4⟩ (some ⟨5⟩) 6)
  below.offer 0 (.plain .create ⟨2⟩ (some ⟨6⟩) 5)

theorem grown_screenedTrace : Grown screenedTrace :=
  .offer 0 (.offer 2 (.offer 0 (.offer 0 (.root rfl) rfl) rfl) rfl) rfl

/-- The creation is the fourth frame to be visited, and the fifth of the tree. -/
theorem extract_screenedTrace : extract ⟨7⟩ screenedTrace = .ok ⟨[⟨⟨7⟩, 1, ⟨2⟩, ⟨3⟩, 8⟩],
    [⟨⟨7⟩, 3, ⟨2⟩, ⟨6⟩, [], 5, .empty, .generic⟩], []⟩ := by decide +kernel

theorem preordered_screenedTrace : Preordered screenedTrace false [0]
    [⟨0, { Frame.plain .call ⟨1⟩ (some ⟨2⟩) 9 with children := #[1, 2, 4] }, false⟩,
      ⟨1, .plain .call ⟨2⟩ (some ⟨3⟩) 8, false⟩,
      ⟨2, { Frame.plain .call ⟨2⟩ (some ⟨4⟩) 7 with error := some "reverted", children := #[3] },
        false⟩,
      ⟨3, .plain .call ⟨4⟩ (some ⟨5⟩) 6, true⟩,
      ⟨4, .plain .create ⟨2⟩ (some ⟨6⟩) 5, false⟩] :=
  have hcreation := @Preordered.cons screenedTrace false 4 (.plain .create ⟨2⟩ (some ⟨6⟩) 5) _ _ _
    (by decide) .nil .nil
  have hbelow := @Preordered.cons screenedTrace true 3 (.plain .call ⟨4⟩ (some ⟨5⟩) 6) [] [] []
    (by decide) .nil .nil
  have hfailed := @Preordered.cons screenedTrace false 2
    { Frame.plain .call ⟨2⟩ (some ⟨4⟩) 7 with error := some "reverted", children := #[3] } _ _ _
    (by decide) hbelow hcreation
  have hfirst := @Preordered.cons screenedTrace false 1 (.plain .call ⟨2⟩ (some ⟨3⟩) 8) _ _ _
    (by decide) .nil hfailed
  @Preordered.cons screenedTrace false 0
    { Frame.plain .call ⟨1⟩ (some ⟨2⟩) 9 with children := #[1, 2, 4] } _ _ _ (by decide) hfirst .nil

theorem rows_of_grown_screened : Grown screenedTrace ∧ screenedTrace.size ≤ 2 ^ 32 ∧
    ∃ out, extract ⟨7⟩ screenedTrace = .ok out ∧ ¬ TreeNumbered ⟨7⟩ screenedTrace out := by
  have hsize : screenedTrace.size ≤ 2 ^ 32 := by decide
  obtain ⟨full, _, honly, _, _, hiff⟩ := rows_of_grown grown_screenedTrace extract_screenedTrace
  obtain rfl := honly _ preordered_screenedTrace
  refine ⟨grown_screenedTrace, hsize, _, extract_screenedTrace, fun hnumbered => ?_⟩
  have hnone := (hiff hsize).mp hnumbered 4 _ rfl rfl
  exact absurd hnone (by decide)

/-- A row need not have the index of its frame in the whole tree. -/
theorem not_treeNumbered : ¬ ∀ (txHash : Hash) (t : CallTrace) (out : Output), Grown t →
    extract txHash t = .ok out → TreeNumbered txHash t out := by
  intro hall
  obtain ⟨full, hfull, hrows⟩ := hall _ _ _ grown_screenedTrace extract_screenedTrace
  obtain rfl := preordered_screenedTrace.unique hfull
  exact absurd hrows (by decide +kernel)

end ChainIngest.Trace
