import ChainIngest.Proofs.Results
import ChainIngest.Proofs.WellFormedTraces
import ChainIngest.Rpc.Trace
import Mathlib.Logic.Relation
/-!
# Traces that grow

A trace that starts with a root and takes up one frame after the other is a tree: a
child comes after its parent, and every frame but the root has one parent.  So a walk
meets every frame at most once and finds all of them, and what it can still lack is an
account that a frame should name.

All this is of frames that come without children.  One that brings some is taken
up with them.
-/

namespace ChainIngest

namespace CallTrace

def Opens (t : CallTrace) (id child : Nat) : Prop := ∃ f, t.frame? id = some f ∧ child ∈ f.children

def offer (t : CallTrace) (parent : Nat) (child : Frame) : CallTrace :=
  ((t.pushChild? parent child).map Prod.fst).getD t

/-- Traces that start with a root and take up one frame after the other, under whatever parent.
A frame has no children before it is in a trace. -/
inductive Grown : CallTrace → Prop where
  | root {f : Frame} : f.children = #[] → Grown (.ofRoot f)
  | offer {t : CallTrace} {child : Frame} (parent : Nat) : Grown t → child.children = #[] →
      Grown (t.offer parent child)

/-- The same with frames that may bring children of their own. -/
inductive Offered : CallTrace → Prop where
  | root (f : Frame) : Offered (.ofRoot f)
  | offer {t : CallTrace} (parent : Nat) (child : Frame) : Offered t →
      Offered (t.offer parent child)

/-- An arena whose child lists make a tree of all its frames. -/
structure IsTree (t : CallTrace) : Prop where
  rooted : 0 < t.size
  below : ∀ {id child}, t.Opens id child → id < child ∧ child < t.size
  rising : ∀ {id f}, t.frame? id = some f → f.children.toList.Pairwise (· < ·)
  parent : ∀ {child}, 0 < child → child < t.size → ∃! id, t.Opens id child

def Above (t : CallTrace) : Nat → Nat → Prop := Relation.TransGen t.Opens

/-- A frame none of whose ancestors failed. -/
def Live (t : CallTrace) (id : Nat) : Prop :=
  ∀ above f, t.Above above id → t.frame? above = some f → f.failed = false

variable {t : CallTrace} {parent id : Nat} {child f : Frame}

/-! ## One more frame -/

theorem frame?_isSome : (t.frame? id).isSome ↔ id < t.size := by
  simp [frame?, size]

theorem lt_size_of_frame? (h : t.frame? id = some f) : id < t.size := by
  rw [← frame?_isSome, h]
  rfl

@[simp] theorem size_pushChild : (t.pushChild parent child).size = t.size + 1 := by
  simp [size, pushChild]

/-- The new frame is the last one, and its parent is the only other one that is changed. -/
theorem frame?_pushChild (id : Nat) :
    (t.pushChild parent child).frame? id =
      if id = t.size then some child
      else if id = parent then (t.frame? id).map fun f => f.addChild t.size
      else t.frame? id := by
  rw [frame?, pushChild, Array.getElem?_push, Array.size_modify, Array.getElem?_modify]
  simp only [eq_comm (a := parent)]
  rfl

theorem pushChild?_eq_some (hparent : parent < t.size) :
    t.pushChild? parent child = some (t.pushChild parent child, t.size) := if_pos hparent

theorem offer_of_lt (hparent : parent < t.size) : t.offer parent child = t.pushChild parent child := by
  rw [offer, pushChild?_eq_some hparent]
  rfl

theorem offer_of_missing (hparent : t.frame? parent = none) :
    t.pushChild? parent child = none ∧ t.offer parent child = t := by
  have hnone : t.pushChild? parent child = none := by
    refine if_neg fun hlt => ?_
    rw [← frame?_isSome, hparent] at hlt
    cases hlt
  refine ⟨hnone, ?_⟩
  rw [offer, hnone]
  rfl

theorem opens_pushChild (hparent : parent < t.size) (hchildren : child.children = #[]) {other : Nat} :
    (t.pushChild parent child).Opens id other ↔ t.Opens id other ∨ id = parent ∧ other = t.size := by
  unfold Opens
  rw [frame?_pushChild]
  by_cases hlast : id = t.size
  · have hnone : t.frame? id = none := by
      rw [← Option.not_isSome_iff_eq_none, frame?_isSome, hlast]
      exact Nat.lt_irrefl _
    have hother : id ≠ parent := fun heq => Nat.ne_of_lt hparent (heq.symm.trans hlast)
    simp [hlast, hchildren, hlast ▸ hnone, hlast ▸ hother]
  · rw [if_neg hlast]
    by_cases heq : id = parent
    · subst heq
      obtain ⟨f, hf⟩ := Option.isSome_iff_exists.mp (frame?_isSome.mpr hparent)
      simp [hf, Frame.addChild]
    · simp [heq]

theorem frame?_ofRoot {g : Frame} : (ofRoot f).frame? id = some g ↔ id = 0 ∧ f = g := by
  cases id <;> simp [frame?, ofRoot]

/-! ## Trees -/

theorem isTree_ofRoot (h : f.children = #[]) : (ofRoot f).IsTree where
  rooted := Nat.one_pos
  below := by
    rintro id child ⟨g, hg, hchild⟩
    obtain ⟨rfl, rfl⟩ := frame?_ofRoot.mp hg
    simp [h] at hchild
  rising := by
    intro id g hg
    obtain ⟨rfl, rfl⟩ := frame?_ofRoot.mp hg
    simp [h]
  parent := by
    intro child hpositive hlt
    exact absurd (Nat.lt_one_iff.mp hlt) (Nat.ne_of_gt hpositive)

theorem IsTree.pushChild (h : t.IsTree) (hparent : parent < t.size) (hchildren : child.children = #[]) :
    (t.pushChild parent child).IsTree where
  rooted := by
    rw [size_pushChild]
    exact Nat.succ_pos _
  below := by
    intro id other hopens
    rw [size_pushChild]
    rcases (opens_pushChild hparent hchildren).mp hopens with hold | ⟨rfl, rfl⟩
    · have hbelow := h.below hold
      exact ⟨hbelow.1, Nat.lt_succ_of_lt hbelow.2⟩
    · exact ⟨hparent, Nat.lt_succ_self _⟩
  rising := by
    intro id g hg
    rw [frame?_pushChild] at hg
    split at hg
    · cases hg
      simp [hchildren]
    · split at hg
      · obtain ⟨f, hf, rfl⟩ := Option.map_eq_some_iff.mp hg
        rw [Frame.addChild, Array.toList_push, List.pairwise_append]
        refine ⟨h.rising hf, List.pairwise_singleton _ _, fun other hother last hlast => ?_⟩
        rw [List.mem_singleton.mp hlast]
        exact (h.below ⟨f, hf, Array.mem_toList_iff.mp hother⟩).2
      · exact h.rising hg
  parent := by
    intro other hpositive hlt
    rw [size_pushChild] at hlt
    simp only [opens_pushChild hparent hchildren]
    rcases Nat.lt_succ_iff_lt_or_eq.mp hlt with hlt | rfl
    · obtain ⟨id, hopens, honly⟩ := h.parent hpositive hlt
      refine ⟨id, .inl hopens, fun id' hopens' => honly id' (hopens'.resolve_right fun hnew => ?_)⟩
      exact Nat.ne_of_lt hlt hnew.2
    · refine ⟨parent, .inr ⟨rfl, rfl⟩, fun id' hopens' => ?_⟩
      rcases hopens' with hold | ⟨rfl, _⟩
      · exact absurd (h.below hold).2 (Nat.lt_irrefl _)
      · rfl

theorem Grown.isTree (h : Grown t) : t.IsTree := by
  induction h with
  | root hchildren => exact isTree_ofRoot hchildren
  | @offer t child parent _ hchildren ih =>
      by_cases hparent : parent < t.size
      · rw [offer_of_lt hparent]
        exact ih.pushChild hparent hchildren
      · have hmissing : t.frame? parent = none := by
          rw [← Option.not_isSome_iff_eq_none, frame?_isSome]
          exact hparent
        rw [(offer_of_missing hmissing).2]
        exact ih

theorem IsTree.isEmpty_eq_false (h : t.IsTree) : t.isEmpty = false := by
  simpa [CallTrace.isEmpty, size] using Nat.ne_of_gt h.rooted

end CallTrace

/-! ## Paths in a tree -/

namespace Trace

open CallTrace

variable {t : CallTrace} {txHash : Hash} {path path' : List Nat} {id : Nat} {fault : Fault}

theorem opens_of_opened {f : Frame} {i child : Nat} (hframe : t.frame? id = some f)
    (hchild : (opened f)[i]? = some child) :
    f.failed = false ∧ t.Opens id child ∧ f.children.toList[i]? = some child := by
  unfold opened at hchild
  split at hchild
  · simp at hchild
  · next hsound =>
    exact ⟨by simpa using hsound, ⟨f, hframe, Array.mem_toList_iff.mp (List.mem_of_getElem? hchild)⟩,
      hchild⟩

theorem descend_concat_iff {i : Nat} : descend t 0 (path ++ [i]) = some id ↔
    ∃ parent f, descend t 0 path = some parent ∧ t.frame? parent = some f ∧
      (opened f)[i]? = some id := by
  rw [descend_append, Option.bind_eq_some_iff]
  apply exists_congr
  intro parent
  rw [descend, Option.bind_eq_bind, exists_and_left]
  refine and_congr_right fun _ => ?_
  rw [Option.bind_eq_some_iff]
  apply exists_congr
  intro f
  rw [Option.bind_eq_bind]
  cases (opened f)[i]? <;> simp [descend]

theorem lt_size_of_descend (h : t.IsTree) (hpath : descend t 0 path = some id) : id < t.size := by
  rcases List.eq_nil_or_concat path with rfl | ⟨above, i, rfl⟩
  · cases hpath
    exact h.rooted
  · rw [List.concat_eq_append] at hpath
    obtain ⟨parent, f, _, hframe, hchild⟩ := descend_concat_iff.mp hpath
    exact (h.below (opens_of_opened hframe hchild).2.1).2

theorem eq_nil_of_descend_zero (h : t.IsTree) (hpath : descend t 0 path = some 0) : path = [] := by
  rcases List.eq_nil_or_concat path with rfl | ⟨above, i, rfl⟩
  · rfl
  · rw [List.concat_eq_append] at hpath
    obtain ⟨parent, f, _, hframe, hchild⟩ := descend_concat_iff.mp hpath
    exact absurd (h.below (opens_of_opened hframe hchild).2.1).1 (Nat.not_lt_zero _)

/-- Two paths to one frame part nowhere: the frame has one parent and one place in its list. -/
theorem descend_injective (h : t.IsTree) (hpath : descend t 0 path = some id)
    (hpath' : descend t 0 path' = some id) : path = path' := by
  induction path using List.reverseRecOn generalizing path' id with
  | nil =>
      cases hpath
      exact (eq_nil_of_descend_zero h hpath').symm
  | append_singleton above i ih =>
      obtain ⟨parent, f, habove, hframe, hchild⟩ := descend_concat_iff.mp hpath
      obtain ⟨_, hopens, hplace⟩ := opens_of_opened hframe hchild
      have hbelow := h.below hopens
      rcases List.eq_nil_or_concat path' with rfl | ⟨above', j, rfl⟩
      · cases hpath'
        exact absurd hbelow.1 (Nat.not_lt_zero _)
      rw [List.concat_eq_append] at hpath' ⊢
      obtain ⟨parent', f', habove', hframe', hchild'⟩ := descend_concat_iff.mp hpath'
      obtain ⟨_, hopens', hplace'⟩ := opens_of_opened hframe' hchild'
      obtain rfl : parent = parent' :=
        (h.parent (Nat.zero_lt_of_lt hbelow.1) hbelow.2).unique hopens hopens'
      obtain rfl : f = f' := Option.some.inj (hframe.symm.trans hframe')
      have hnodup : f.children.toList.Nodup := (h.rising hframe).imp Nat.ne_of_lt
      obtain ⟨hi, _⟩ := List.getElem?_eq_some_iff.mp hplace
      rw [ih habove habove', (List.getElem?_inj hi hnodup).mp (hplace.trans hplace'.symm)]

theorem exists_descend_iff (h : t.IsTree) :
    (∃ path, descend t 0 path = some id) ↔ id < t.size ∧ t.Live id := by
  constructor
  · rintro ⟨path, hpath⟩
    refine ⟨lt_size_of_descend h hpath, ?_⟩
    induction path using List.reverseRecOn generalizing id with
    | nil =>
        cases hpath
        rintro above f habove _
        obtain ⟨_, _, hopens⟩ := Relation.TransGen.tail'_iff.mp habove
        exact absurd (h.below hopens).1 (Nat.not_lt_zero _)
    | append_singleton path i ih =>
        obtain ⟨parent, f, hparent, hframe, hchild⟩ := descend_concat_iff.mp hpath
        obtain ⟨hsound, hopens, _⟩ := opens_of_opened hframe hchild
        have hbelow := h.below hopens
        intro above g habove hg
        obtain ⟨last, hlast, hopens'⟩ := Relation.TransGen.tail'_iff.mp habove
        obtain rfl : last = parent :=
          (h.parent (Nat.zero_lt_of_lt hbelow.1) hbelow.2).unique hopens' hopens
        rcases Relation.reflTransGen_iff_eq_or_transGen.mp hlast with rfl | hlast
        · rw [hframe] at hg
          cases hg
          exact hsound
        · exact ih hparent above g hlast hg
  · rintro ⟨hlt, hlive⟩
    induction id using Nat.strongRecOn with
    | ind id ih =>
        rcases Nat.eq_zero_or_pos id with rfl | hpositive
        · exact ⟨[], rfl⟩
        · obtain ⟨parent, hopens, _⟩ := h.parent hpositive hlt
          obtain ⟨f, hframe, hchild⟩ := hopens
          have hopens : t.Opens parent id := ⟨f, hframe, hchild⟩
          obtain ⟨path, hpath⟩ := ih parent (h.below hopens).1 (lt_size_of_frame? hframe)
            fun above g habove hg => hlive above g (habove.tail hopens) hg
          have hsound : f.failed = false := hlive parent f (.single hopens) hframe
          obtain ⟨i, hi⟩ := List.getElem?_of_mem (Array.mem_toList_iff.mpr hchild)
          refine ⟨path ++ [i], descend_concat_iff.mpr ⟨parent, f, hpath, hframe, ?_⟩⟩
          rw [opened, hsound]
          exact hi

/-! ## Extraction -/

theorem judged_of_extract (txHash : Hash) (t : CallTrace) :
    (∃ out, extract txHash t = .ok out ∧ WellFormed t) ∨
      ∃ fault, extract txHash t = .error fault ∧ fault.Holds t := by
  rcases ends_extract txHash t with ⟨hempty, hfault⟩ | ⟨pops, _, hends⟩
  · exact .inr ⟨_, hfault, hempty⟩
  · exact hends.judges explores_start

theorem holds_of_extract (h : extract txHash t = .error fault) : fault.Holds t := by
  rcases judged_of_extract txHash t with ⟨_, hout, _⟩ | ⟨fault', hfault, hholds⟩
  · rw [h] at hout
    cases hout
  · rw [h] at hfault
    cases hfault
    exact hholds

def LiveUntargeted (t : CallTrace) : Prop :=
  ∃ id f, t.frame? id = some f ∧ t.Live id ∧ LacksTarget id f

theorem Untargeted.live {kind : CallKind} (h : Untargeted t kind) (htree : t.IsTree) :
    LiveUntargeted t := by
  obtain ⟨path, id, f, hpath, hframe, hlacks, _⟩ := h
  exact ⟨id, f, hframe, ((exists_descend_iff htree).mp ⟨path, hpath⟩).2, hlacks⟩

/-- In a tree a walk meets no missing frame and none twice. -/
theorem Fault.Holds.liveUntargeted (h : fault.Holds t) (htree : t.IsTree) :
    LiveUntargeted t ∧ (∀ id, fault ≠ .missingFrame id) ∧ ∀ id, fault ≠ .repeatedFrame id := by
  cases fault with
  | noRoot =>
      have hempty : t.isEmpty = true := h
      rw [htree.isEmpty_eq_false] at hempty
      cases hempty
  | missingFrame id =>
      obtain ⟨⟨path, hpath⟩, hmissing⟩ := h
      have hsome := frame?_isSome.mpr (lt_size_of_descend htree hpath)
      rw [hmissing] at hsome
      cases hsome
  | repeatedFrame id =>
      obtain ⟨path, path', hne, hpath, hpath'⟩ := h
      exact absurd (descend_injective htree hpath hpath') hne
  | noCreatedAddress kind pc => exact ⟨Untargeted.live h.2 htree, nofun, nofun⟩
  | noRefundAddress pc => exact ⟨Untargeted.live h htree, nofun, nofun⟩
  | noTarget kind pc => exact ⟨Untargeted.live h.2.2 htree, nofun, nofun⟩

theorem LiveUntargeted.not_wellFormed (h : LiveUntargeted t) (htree : t.IsTree) : ¬ WellFormed t := by
  obtain ⟨id, f, hframe, hlive, hlacks⟩ := h
  obtain ⟨path, hpath⟩ := (exists_descend_iff htree).mpr ⟨lt_size_of_frame? hframe, hlive⟩
  exact fun hwell => hwell.targeted hpath hframe hlacks

end Trace

/-! ## Traces as served -/

namespace Rpc

open CallTrace

variable {f : ServedFrame} {frame : Frame}

namespace ServedFrame

theorem need_eq_ok_iff {α : Type} {member : Option α} {what : String} {a : α} :
    f.need member what = .ok a ↔ member = some a := by
  cases member <;> simp [need]

theorem of_body {result : Outcome} (h : f.body result = .ok frame) :
    frame.children = #[] ∧ ∀ path, { f with path := path }.body result = .ok frame := by
  unfold body at h ⊢
  dsimp only at h ⊢
  split at h
  · obtain ⟨kind, hkind, h⟩ := ok_of_bind h
    obtain ⟨sender, hsender, h⟩ := ok_of_bind h
    cases h
    refine ⟨rfl, fun path => ?_⟩
    rw [need_eq_ok_iff] at hkind hsender
    rw [need_eq_ok_iff.mpr hkind, need_eq_ok_iff.mpr hsender]
    rfl
  · obtain ⟨sender, hsender, h⟩ := ok_of_bind h
    cases h
    refine ⟨rfl, fun path => ?_⟩
    rw [need_eq_ok_iff] at hsender
    rw [need_eq_ok_iff.mpr hsender]
    rfl
  · obtain ⟨address, haddress, h⟩ := ok_of_bind h
    cases h
    refine ⟨rfl, fun path => ?_⟩
    rw [need_eq_ok_iff] at haddress
    rw [need_eq_ok_iff.mpr haddress]
    rfl
  · obtain ⟨address, haddress, h⟩ := ok_of_bind h
    cases h
    refine ⟨rfl, fun path => ?_⟩
    rw [need_eq_ok_iff] at haddress
    rw [need_eq_ok_iff.mpr haddress]
    rfl
  · cases h

theorem of_toFrame (h : f.toFrame = .ok frame) :
    frame.children = #[] ∧ ∀ path, { f with path := path }.toFrame = .ok frame := by
  unfold toFrame at h ⊢
  dsimp only at h ⊢
  obtain ⟨body, hbody, h⟩ := ok_of_bind h
  obtain ⟨hchildren, hpath⟩ := of_body hbody
  cases h
  refine ⟨hchildren, fun path => ?_⟩
  rw [hpath path]
  rfl

end ServedFrame

/-- What it takes to hang a frame into a tree, and what comes of it. -/
theorem add_eq_ok_iff {g g' : Growth} : g.add f = .ok g' ↔
    ∃ parent frame, f.path ≠ [] ∧ g.find? f.path.dropLast = some parent ∧ f.toFrame = .ok frame ∧
      parent < g.trace.size ∧ g' = ⟨g.trace.pushChild parent frame, (f.path, g.trace.size) :: g.ids⟩ := by
  unfold Growth.add Growth.parentPath?
  by_cases hroot : f.path = []
  · simp [hroot, throw, throwThe, MonadExceptOf.throw]
  · simp only [List.isEmpty_iff, hroot, if_false, ne_eq, not_false_eq_true, true_and]
    cases hparent : g.find? f.path.dropLast with
    | none => simp [throw, throwThe, MonadExceptOf.throw]
    | some parent =>
        cases hframe : f.toFrame with
        | error e => simp [bind, Except.bind]
        | ok frame =>
            by_cases hlt : parent < g.trace.size
            · simp [bind, Except.bind, pushChild?, hlt, pure, Except.pure, eq_comm]
            · simp [bind, Except.bind, pushChild?, hlt, throw, throwThe, MonadExceptOf.throw]

theorem grown_of_foldlM {rest : List ServedFrame} {g g' : Growth} (hgrown : Grown g.trace)
    (h : rest.foldlM Growth.add g = .ok g') : Grown g'.trace := by
  induction rest generalizing g with
  | nil =>
      cases h
      exact hgrown
  | cons f rest ih =>
      rw [List.foldlM_cons] at h
      obtain ⟨next, hnext, h⟩ := ok_of_bind h
      obtain ⟨parent, frame, _, _, hframe, hlt, rfl⟩ := add_eq_ok_iff.mp hnext
      refine ih ?_ h
      have hoffer := hgrown.offer parent (ServedFrame.of_toFrame hframe).1
      rwa [offer_of_lt hlt] at hoffer

theorem buildTrace_cons_eq_ok_iff {root : ServedFrame} {rest : List ServedFrame} {t : CallTrace} :
    buildTrace (root :: rest) = .ok t ↔ root.path = [] ∧ ∃ frame g, root.toFrame = .ok frame ∧
      rest.foldlM Growth.add ⟨.ofRoot frame, [([], 0)]⟩ = .ok g ∧ g.trace = t := by
  unfold buildTrace
  by_cases hroot : root.path = []
  · simp only [hroot, List.isEmpty_nil, Bool.not_true, Bool.false_eq_true, if_false, true_and]
    cases hframe : root.toFrame with
    | error e => simp [bind, Except.bind]
    | ok frame =>
        cases hfold : rest.foldlM Growth.add ⟨.ofRoot frame, [([], 0)]⟩ with
        | error e => simp [bind, Except.bind, hfold]
        | ok g => simp [bind, Except.bind, hfold, pure, Except.pure]
  · simp [hroot, throw, throwThe, MonadExceptOf.throw]

theorem grown_of_buildTrace {root : ServedFrame} {rest : List ServedFrame} {t : CallTrace}
    (h : buildTrace (root :: rest) = .ok t) : Grown t := by
  obtain ⟨_, frame, g, hframe, hfold, rfl⟩ := buildTrace_cons_eq_ok_iff.mp h
  exact grown_of_foldlM (.root (ServedFrame.of_toFrame hframe).1) hfold

end Rpc

namespace Trace

open CallTrace

/-- A trace that grew frame by frame, be it from a list of frames as served, is a tree, and a frame
put forward under a parent that does not exist leaves it as it is.  So extraction finds no frame
missing and none twice, and fails just where a frame takes effect without naming its account, none
of those above it having failed. -/
theorem tree_of_grown {t : CallTrace}
    (h : Grown t ∨ ∃ root rest, Rpc.buildTrace (root :: rest) = .ok t) (txHash : Hash) :
    t.IsTree ∧
      (∀ parent child, t.frame? parent = none →
        t.pushChild? parent child = none ∧ t.offer parent child = t) ∧
      (∀ id, extract txHash t ≠ .error (.missingFrame id) ∧
        extract txHash t ≠ .error (.repeatedFrame id)) ∧
      ((∃ fault, extract txHash t = .error fault) ↔ LiveUntargeted t) := by
  have hgrown : Grown t := by
    rcases h with hgrown | ⟨root, rest, hbuilt⟩
    · exact hgrown
    · exact Rpc.grown_of_buildTrace hbuilt
  have htree := hgrown.isTree
  refine ⟨htree, fun parent child => offer_of_missing, fun id => ⟨fun hfault => ?_, fun hfault => ?_⟩,
    ?_, fun huntargeted => ?_⟩
  · exact ((holds_of_extract hfault).liveUntargeted htree).2.1 id rfl
  · exact ((holds_of_extract hfault).liveUntargeted htree).2.2 id rfl
  · rintro ⟨fault, hfault⟩
    exact ((holds_of_extract hfault).liveUntargeted htree).1
  · rcases judged_of_extract txHash t with ⟨_, _, hwell⟩ | ⟨fault, hfault, _⟩
    · exact absurd hwell (huntargeted.not_wellFormed htree)
    · exact ⟨fault, hfault⟩

/-- A call that fails with a call to nobody below it, a frame under a parent that does not exist,
and a creation that names no contract. -/
def stuntedTrace : CallTrace :=
  let root := CallTrace.ofRoot (.plain .call ⟨1⟩ none 9)
  let failed := root.offer 0 { Frame.plain .call ⟨1⟩ (some ⟨2⟩) 8 with error := some "reverted" }
  let hidden := failed.offer 1 (.plain .call ⟨2⟩ none 7)
  let rejected := hidden.offer 5 (.plain .call ⟨2⟩ (some ⟨3⟩) 6)
  rejected.offer 0 (.plain .create ⟨1⟩ none 5)

theorem tree_of_grown_stunted : Grown stuntedTrace ∧ stuntedTrace.size = 4 ∧ stuntedTrace.IsTree ∧
    extract ⟨7⟩ stuntedTrace = .error (.noCreatedAddress .create 2) ∧ LiveUntargeted stuntedTrace := by
  have hgrown : Grown stuntedTrace :=
    .offer 0 (.offer 5 (.offer 1 (.offer 0 (.root rfl) rfl) rfl) rfl) rfl
  have hfault : extract ⟨7⟩ stuntedTrace = .error (.noCreatedAddress .create 2) := by decide +kernel
  obtain ⟨htree, _, _, hfails⟩ := tree_of_grown (.inl hgrown) ⟨7⟩
  exact ⟨hgrown, by decide, htree, hfault, hfails.mp ⟨_, hfault⟩⟩

/-- A call, a frame below it, and below it the call once more, with the child that it has by now. -/
def tangledTrace : CallTrace :=
  let call := Frame.plain .call ⟨1⟩ (some ⟨2⟩) 9
  ((CallTrace.ofRoot call).offer 0 (.plain .call ⟨2⟩ (some ⟨3⟩) 8)).offer 0 (call.addChild 1)

/-- Frames that bring children of their own can make a frame the child of two. -/
theorem not_isTree_tangled : Offered tangledTrace ∧ ¬ tangledTrace.IsTree ∧
    extract ⟨7⟩ tangledTrace = .error (.repeatedFrame 1) := by
  refine ⟨.offer 0 _ (.offer 0 _ (.root _)), fun htree => ?_, by decide +kernel⟩
  have hroot : tangledTrace.Opens 0 1 := ⟨_, rfl, by decide +kernel⟩
  have hcopy : tangledTrace.Opens 2 1 := ⟨_, rfl, by decide +kernel⟩
  have hsame := (htree.parent (by decide) (by decide)).unique hroot hcopy
  cases hsame

end Trace

end ChainIngest
