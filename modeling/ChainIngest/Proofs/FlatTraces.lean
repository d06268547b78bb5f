import ChainIngest.Proofs.TraceTrees
import Mathlib.Data.List.Forall2
/-!
# Flat traces

A list of frames with their addresses is taken for a tree just when the first one has
the empty address and every later one finds its parent's address before it.  It goes
under the latest frame with this address.  So the frames of a call tree, listed in
pre-order with the child positions that lead to them, make the tree again.
-/

namespace ChainIngest.Rpc

open CallTrace

variable {f : ServedFrame} {frame : Frame} {g g' : Growth} {before rest : List ServedFrame}

/-! ## Acceptance -/

/-- The last of some frames that has an address. -/
def Latest (served : List ServedFrame) (path : List Nat) (i : Nat) : Prop :=
  (∃ f, served[i]? = some f ∧ f.path = path) ∧
    ∀ k f, i < k → served[k]? = some f → f.path ≠ path

def IsParent (served : List ServedFrame) (i j : Nat) : Prop :=
  ∃ f, served[j]? = some f ∧ f.path ≠ [] ∧ Latest (served.take j) f.path.dropLast i

/-- Frames of which each, given those before it, finds its parent's address there. -/
def Linked (before : List ServedFrame) : List ServedFrame → Prop
  | [] => True
  | f :: rest => (f.path ≠ [] ∧ ∃ above ∈ before, above.path = f.path.dropLast) ∧
      Linked (before ++ [f]) rest

theorem latest_nil_iff {path : List Nat} {i : Nat} : ¬ Latest [] path i := by
  rintro ⟨⟨f, hf, _⟩, _⟩
  simp at hf

theorem lt_length_of_latest {path : List Nat} {i : Nat} (h : Latest before path i) :
    i < before.length := by
  obtain ⟨⟨f, hf, _⟩, _⟩ := h
  exact (List.getElem?_eq_some_iff.mp hf).1

theorem latest_concat_iff {path : List Nat} {i : Nat} : Latest (before ++ [f]) path i ↔
    if f.path = path then i = before.length else Latest before path i := by
  have hlast : (before ++ [f])[before.length]? = some f := List.getElem?_concat_length
  have hold : ∀ {k h}, k < before.length → ((before ++ [f])[k]? = some h ↔ before[k]? = some h) :=
    fun hk => by rw [List.getElem?_append_left hk]
  have hbound : ∀ {k h}, (before ++ [f])[k]? = some h → k < before.length ∨ k = before.length ∧ h = f := by
    intro k h hk
    have hlt := (List.getElem?_eq_some_iff.mp hk).1
    rw [List.length_append, List.length_singleton] at hlt
    rcases Nat.lt_succ_iff_lt_or_eq.mp hlt with hlt | rfl
    · exact .inl hlt
    · exact .inr ⟨rfl, Option.some.inj (hk.symm.trans hlast)⟩
  split
  · next hpath =>
    constructor
    · rintro ⟨⟨h, hh, _⟩, hnone⟩
      rcases hbound hh with hlt | ⟨rfl, _⟩
      · exact absurd hpath (hnone _ f hlt hlast)
      · rfl
    · rintro rfl
      refine ⟨⟨f, hlast, hpath⟩, fun k h hk hh => ?_⟩
      rcases hbound hh with hlt | ⟨rfl, _⟩ <;> omega
  · next hpath =>
    constructor
    · rintro ⟨⟨h, hh, hhpath⟩, hnone⟩
      rcases hbound hh with hlt | ⟨_, rfl⟩
      · refine ⟨⟨h, (hold hlt).mp hh, hhpath⟩, fun k h' hk hh' => ?_⟩
        exact hnone k h' hk ((hold (List.getElem?_eq_some_iff.mp hh').1).mpr hh')
      · exact absurd hhpath hpath
    · intro hlatest
      obtain ⟨⟨h, hh, hhpath⟩, hnone⟩ := hlatest
      refine ⟨⟨h, (hold (List.getElem?_eq_some_iff.mp hh).1).mpr hh, hhpath⟩, fun k h' hk hh' => ?_⟩
      rcases hbound hh' with hlt | ⟨_, rfl⟩
      · exact hnone k h' hk ((hold hlt).mp hh')
      · exact hpath

theorem exists_latest_iff {path : List Nat} :
    (∃ i, Latest before path i) ↔ ∃ f ∈ before, f.path = path := by
  induction before using List.reverseRecOn with
  | nil => simp [latest_nil_iff]
  | append_singleton before f ih =>
      simp only [latest_concat_iff, List.mem_append, List.mem_singleton, or_and_right, exists_or,
        exists_eq_left, ← ih]
      split
      · next hpath => simp [hpath]
      · next hpath => simp [hpath]

/-! ## Growth -/

structure Follows (before : List ServedFrame) (g : Growth) : Prop where
  size : g.trace.size = before.length
  found : ∀ path i, g.find? path = some i ↔ Latest before path i
  frames : ∀ {i frame}, g.trace.frame? i = some frame →
    (∃ f own, before[i]? = some f ∧ f.toFrame = .ok own ∧ frame = { own with children := frame.children }) ∧
      frame.children.toList.Pairwise (· < ·) ∧ ∀ j, j ∈ frame.children ↔ IsParent before i j

theorem isParent_lt {i j : Nat} (h : IsParent before i j) : i < j ∧ j < before.length := by
  obtain ⟨f, hf, _, hlatest⟩ := h
  have hi := lt_length_of_latest hlatest
  rw [List.length_take] at hi
  exact ⟨by omega, (List.getElem?_eq_some_iff.mp hf).1⟩

theorem isParent_concat_iff {i j : Nat} : IsParent (before ++ [f]) i j ↔
    IsParent before i j ∨ j = before.length ∧ f.path ≠ [] ∧ Latest before f.path.dropLast i := by
  unfold IsParent
  rcases Nat.lt_trichotomy j before.length with hlt | rfl | hgt
  · rw [List.getElem?_append_left hlt, List.take_append_of_le_length (Nat.le_of_lt hlt)]
    simp [Nat.ne_of_lt hlt]
  · rw [List.getElem?_concat_length, List.take_left]
    simp
  · have hnone : (before ++ [f])[j]? = none := by
      rw [List.getElem?_eq_none_iff, List.length_append, List.length_singleton]
      exact hgt
    rw [hnone, List.getElem?_eq_none_iff.mpr (Nat.le_of_lt hgt)]
    simp [Nat.ne_of_gt hgt]

theorem find?_cons {t : CallTrace} {path other : List Nat} {id : Nat} {ids : List (List Nat × Nat)} :
    (Growth.mk t ((path, id) :: ids)).find? other =
      if path = other then some id else (Growth.mk t ids).find? other := by
  unfold Growth.find?
  rw [List.find?_cons]
  by_cases h : path = other <;> simp [h]

theorem follows_root {root : ServedFrame} (hroot : root.path = []) (h : root.toFrame = .ok frame) :
    Follows [root] ⟨.ofRoot frame, [([], 0)]⟩ where
  size := rfl
  found path i := by
    have hlatest := @latest_concat_iff root [] path i
    rw [List.nil_append] at hlatest
    rw [hlatest, find?_cons, hroot]
    split
    · simp [eq_comm]
    · simp [Growth.find?, latest_nil_iff]
  frames := by
    intro i frame' hframe
    obtain ⟨rfl, rfl⟩ := frame?_ofRoot.mp hframe
    refine ⟨⟨root, frame, rfl, h, rfl⟩, ?_, fun j => ?_⟩
    · simp [(ServedFrame.of_toFrame h).1]
    · simp only [(ServedFrame.of_toFrame h).1, Array.not_mem_empty, false_iff]
      intro hparent
      have hlt := isParent_lt hparent
      simp at hlt
      omega

theorem Follows.add (h : Follows before g) (hadd : g.add f = .ok g') : Follows (before ++ [f]) g' := by
  obtain ⟨parent, own, hpath, hparent, hown, hlt, rfl⟩ := add_eq_ok_iff.mp hadd
  have hlatest := (h.found _ _).mp hparent
  constructor
  · rw [size_pushChild, h.size, List.length_append, List.length_singleton]
  · intro path i
    rw [latest_concat_iff, find?_cons]
    split
    · rw [Option.some.injEq, h.size, eq_comm]
    · exact h.found path i
  · intro i frame hframe
    rw [frame?_pushChild] at hframe
    split at hframe
    · next hi =>
      cases hframe
      have hchildren := (ServedFrame.of_toFrame hown).1
      refine ⟨⟨f, own, ?_, hown, rfl⟩, by simp [hchildren], fun j => ?_⟩
      · rw [hi, h.size, List.getElem?_concat_length]
      · simp only [hchildren, Array.not_mem_empty, false_iff]
        intro hj
        have hbelow := isParent_lt hj
        rw [List.length_append, List.length_singleton, ← h.size] at hbelow
        omega
    · next hi =>
      -- the children of an earlier frame are those it had, and the new one if it is the parent
      have hearlier : ∀ {frame : Frame}, g.trace.frame? i = some frame → i < before.length :=
        fun hframe => h.size ▸ lt_size_of_frame? hframe
      split at hframe
      · next heq =>
        subst heq
        obtain ⟨old, hold, rfl⟩ := Option.map_eq_some_iff.mp hframe
        obtain ⟨⟨s, sown, hs, hsown, hsame⟩, hrising, hmem⟩ := h.frames hold
        refine ⟨⟨s, sown, ?_, hsown, ?_⟩, ?_, fun j => ?_⟩
        · rw [List.getElem?_append_left (hearlier hold), hs]
        · rw [Frame.addChild, hsame]
        · rw [Frame.addChild, Array.toList_push, List.pairwise_append]
          refine ⟨hrising, List.pairwise_singleton _ _, fun j hj last hlast => ?_⟩
          rw [List.mem_singleton.mp hlast, h.size]
          exact (isParent_lt ((hmem j).mp (Array.mem_toList_iff.mp hj))).2
        · rw [Frame.addChild, Array.mem_push, hmem, isParent_concat_iff, h.size]
          simp [hpath, hlatest]
      · next hne =>
        obtain ⟨⟨s, sown, hs, hsown, hsame⟩, hrising, hmem⟩ := h.frames hframe
        refine ⟨⟨s, sown, ?_, hsown, hsame⟩, hrising, fun j => ?_⟩
        · rw [List.getElem?_append_left (hearlier hframe), hs]
        · rw [hmem, isParent_concat_iff]
          have hother : ¬ Latest before f.path.dropLast i := by
            rw [← h.found, hparent]
            simpa using Ne.symm hne
          simp [hother]

theorem Follows.accepts_iff (h : Follows before g) (hf : f.toFrame = .ok frame) :
    (∃ g', g.add f = .ok g') ↔ f.path ≠ [] ∧ ∃ above ∈ before, above.path = f.path.dropLast := by
  simp only [add_eq_ok_iff]
  rw [← exists_latest_iff]
  constructor
  · rintro ⟨g', parent, own, hpath, hparent, _⟩
    exact ⟨hpath, parent, (h.found _ _).mp hparent⟩
  · rintro ⟨hpath, parent, hlatest⟩
    exact ⟨_, parent, frame, hpath, (h.found _ _).mpr hlatest, hf,
      h.size ▸ lt_length_of_latest hlatest, rfl⟩

theorem Follows.foldlM (h : Follows before g) (hfold : rest.foldlM Growth.add g = .ok g') :
    Follows (before ++ rest) g' := by
  induction rest generalizing before g with
  | nil =>
      cases hfold
      rwa [List.append_nil]
  | cons f rest ih =>
      rw [List.foldlM_cons] at hfold
      obtain ⟨next, hnext, hfold⟩ := ok_of_bind hfold
      have hrest := ih (h.add hnext) hfold
      rwa [List.append_assoc] at hrest

theorem Follows.linked_iff (h : Follows before g) (hconverts : ∀ f ∈ rest, ∃ frame, f.toFrame = .ok frame) :
    (∃ g', rest.foldlM Growth.add g = .ok g') ↔ Linked before rest := by
  induction rest generalizing before g with
  | nil => exact iff_of_true ⟨g, rfl⟩ trivial
  | cons f rest ih =>
      obtain ⟨⟨frame, hf⟩, hconverts⟩ := List.forall_mem_cons.mp hconverts
      rw [Linked, ← h.accepts_iff hf]
      constructor
      · rintro ⟨g', hfold⟩
        rw [List.foldlM_cons] at hfold
        obtain ⟨next, hnext, hfold⟩ := ok_of_bind hfold
        exact ⟨⟨next, hnext⟩, (ih (h.add hnext) hconverts).mp ⟨g', hfold⟩⟩
      · rintro ⟨⟨next, hnext⟩, hlinked⟩
        obtain ⟨g', hfold⟩ := (ih (h.add hnext) hconverts).mpr hlinked
        refine ⟨g', ?_⟩
        rw [List.foldlM_cons, hnext]
        exact hfold

/-! ## Call trees -/

/-- Call trees side by side: a frame, the trees below it and the trees beside it. -/
inductive Forest where
  | nil
  | cons (frame : ServedFrame) (below beside : Forest)

namespace Forest

def size : Forest → Nat
  | nil => 0
  | cons _ below beside => 1 + below.size + beside.size

def Converts : Forest → Prop
  | nil => True
  | cons f below beside => (∃ frame, f.toFrame = .ok frame) ∧ below.Converts ∧ beside.Converts

/-- The frames in pre-order with their addresses, the trees being the children of a frame from its
`i`-th on. -/
def listed (above : List Nat) (i : Nat) : Forest → List ServedFrame
  | nil => []
  | cons f below beside =>
    { f with path := above ++ [i] } :: (below.listed (above ++ [i]) 0 ++ beside.listed above (i + 1))

/-- A forest as an arena shows it: the roots are the frames of a list, the frames are numbered in
pre-order from `n` on, and each has as children the roots of the trees below it. -/
inductive Shown (t : CallTrace) : Nat → List Nat → Forest → Prop where
  | nil {n : Nat} : Shown t n [] .nil
  | cons {n : Nat} {f : ServedFrame} {own frame : Frame} {below beside : Forest} {roots : List Nat} :
      f.toFrame = .ok own → t.frame? n = some frame → frame = { own with children := frame.children } →
      Shown t (n + 1) frame.children.toList below → Shown t (n + 1 + below.size) roots beside →
      Shown t n (n :: roots) (.cons f below beside)

theorem Shown.congr {t t' : CallTrace} {n : Nat} {roots : List Nat} {forest : Forest}
    (h : forest.Shown t n roots) (hsame : ∀ id, n ≤ id → id < n + forest.size → t'.frame? id = t.frame? id) :
    forest.Shown t' n roots := by
  induction h with
  | nil => exact .nil
  | @cons n f own frame below beside roots hown hframe hsaved _ _ ihbelow ihbeside =>
      rw [size] at hsame
      refine .cons hown ((hsame n (by omega) (by omega)).trans hframe) hsaved ?_ ?_
      · exact ihbelow fun id hlow hhigh => hsame id (by omega) (by omega)
      · exact ihbeside fun id hlow hhigh => hsame id (by omega) (by omega)

end Forest

/-- A growth that has taken up a forest below a frame: the frame has its roots as further children,
and what was there otherwise is as it was. -/
structure Takes (g : Growth) (above : List Nat) (parent : Nat) (forest : Forest) (g' : Growth) : Prop where
  size : g'.trace.size = g.trace.size + forest.size
  newer : ∃ newer, g'.ids = newer ++ g.ids ∧ ∀ e ∈ newer, above.length < e.1.length
  others : ∀ id < g.trace.size, id ≠ parent → g'.trace.frame? id = g.trace.frame? id
  shown : ∃ roots, forest.Shown g'.trace g.trace.size roots ∧
    g'.trace.frame? parent = (g.trace.frame? parent).map fun frame =>
      { frame with children := frame.children ++ roots.toArray }

theorem find?_append {t t' : CallTrace} {ids newer : List (List Nat × Nat)} {path : List Nat}
    (h : ∀ e ∈ newer, path.length < e.1.length) :
    (Growth.mk t' (newer ++ ids)).find? path = (Growth.mk t ids).find? path := by
  have hnone : newer.find? (fun e => decide (e.1 = path)) = none := by
    rw [List.find?_eq_none]
    intro e he heq
    have hlt := h e he
    rw [of_decide_eq_true heq] at hlt
    exact Nat.lt_irrefl _ hlt
  unfold Growth.find?
  rw [List.find?_append, hnone, Option.none_or]

theorem longer_concat {above : List Nat} {i n : Nat} {newer : List (List Nat × Nat)}
    (h : ∀ e ∈ newer, (above ++ [i]).length < e.1.length) :
    ∀ e ∈ newer ++ [(above ++ [i], n)], above.length < e.1.length := by
  intro e he
  rcases List.mem_append.mp he with he | he
  · exact Nat.lt_of_succ_lt (by simpa using h e he)
  · rw [List.mem_singleton.mp he]
    simp

/-- A frame is hung up, then what is below it, then what is beside it. -/
theorem Takes.cons {above : List Nat} {parent i : Nat} {below beside : Forest} {g₂ g₃ : Growth}
    (hown : f.toFrame = .ok frame) (hlt : parent < g.trace.size)
    (h₂ : Takes ⟨g.trace.pushChild parent frame, (above ++ [i], g.trace.size) :: g.ids⟩ (above ++ [i])
      g.trace.size below g₂)
    (h₃ : Takes g₂ above parent beside g₃) : Takes g above parent (.cons f below beside) g₃ := by
  have hsize₂ : g₂.trace.size = g.trace.size + 1 + below.size := by rw [h₂.size, size_pushChild]
  -- the trees beside the frame change nothing at and below it
  have hkept : ∀ id, g.trace.size ≤ id → id < g.trace.size + 1 + below.size →
      g₃.trace.frame? id = g₂.trace.frame? id :=
    fun id hlow hhigh => h₃.others id (by omega) (by omega)
  have hearlier : ∀ id < g.trace.size,
      g₂.trace.frame? id = (g.trace.pushChild parent frame).frame? id :=
    fun id hid => h₂.others id (by rw [size_pushChild]; omega) (Nat.ne_of_lt hid)
  obtain ⟨newer₂, hids₂, hlonger₂⟩ := h₂.newer
  obtain ⟨newer₃, hids₃, hlonger₃⟩ := h₃.newer
  obtain ⟨roots₂, hshown₂, hframe₂⟩ := h₂.shown
  obtain ⟨roots₃, hshown₃, hframe₃⟩ := h₃.shown
  constructor
  · rw [h₃.size, hsize₂, Forest.size]
    omega
  · refine ⟨newer₃ ++ (newer₂ ++ [(above ++ [i], g.trace.size)]), ?_, fun e he => ?_⟩
    · rw [hids₃, hids₂]
      simp
    · rcases List.mem_append.mp he with he | he
      · exact hlonger₃ e he
      · exact longer_concat hlonger₂ e he
  · intro id hid hne
    rw [h₃.others id (by omega) hne, hearlier id hid, frame?_pushChild, if_neg (Nat.ne_of_lt hid),
      if_neg hne]
  · refine ⟨g.trace.size :: roots₃, ?_, ?_⟩
    · rw [frame?_pushChild, if_pos rfl, Option.map_some, (ServedFrame.of_toFrame hown).1,
        Array.empty_append] at hframe₂
      rw [size_pushChild] at hshown₂
      rw [hsize₂] at hshown₃
      refine .cons hown ((hkept _ (Nat.le_refl _) (by omega)).trans hframe₂) rfl ?_ hshown₃
      exact hshown₂.congr fun id hlow hhigh => hkept id (by omega) hhigh
    · rw [hframe₃, hearlier parent hlt, frame?_pushChild, if_neg (Nat.ne_of_lt hlt), if_pos rfl,
        Option.map_map]
      congr 1
      funext old
      simp [Frame.addChild]

theorem exists_takes {forest : Forest} (hconverts : forest.Converts) {above : List Nat} {parent : Nat}
    (i : Nat) (hparent : g.find? above = some parent) (hlt : parent < g.trace.size) :
    ∃ g', (forest.listed above i).foldlM Growth.add g = .ok g' ∧ Takes g above parent forest g' := by
  induction forest generalizing g above parent i with
  | nil =>
      refine ⟨g, rfl, rfl, ⟨[], rfl, by simp⟩, fun _ _ _ => rfl, [], .nil, ?_⟩
      cases g.trace.frame? parent <;> simp
  | cons f below beside ihbelow ihbeside =>
      obtain ⟨⟨frame, hframe⟩, hbelow, hbeside⟩ := hconverts
      let g₁ : Growth := ⟨g.trace.pushChild parent frame, (above ++ [i], g.trace.size) :: g.ids⟩
      have hadd : g.add { f with path := above ++ [i] } = .ok g₁ :=
        add_eq_ok_iff.mpr ⟨parent, frame, by simp, by simpa using hparent,
          (ServedFrame.of_toFrame hframe).2 _, hlt, rfl⟩
      have hfound : g₁.find? (above ++ [i]) = some g.trace.size := find?_cons.trans (if_pos rfl)
      have hlt₁ : g.trace.size < g₁.trace.size := by
        rw [size_pushChild]
        exact Nat.lt_succ_self _
      obtain ⟨g₂, hfold₂, htakes₂⟩ := ihbelow hbelow 0 hfound hlt₁
      obtain ⟨newer, hids, hlonger⟩ := htakes₂.newer
      have hids : g₂.ids = (newer ++ [(above ++ [i], g.trace.size)]) ++ g.ids := by
        rw [hids, List.append_assoc]
        rfl
      have hparent₂ : g₂.find? above = some parent := by
        obtain ⟨trace₂, ids₂⟩ := g₂
        subst hids
        exact (find?_append (longer_concat hlonger)).trans hparent
      have hlt₂ : parent < g₂.trace.size := by
        rw [htakes₂.size]
        omega
      obtain ⟨g₃, hfold₃, htakes₃⟩ := ihbeside hbeside (i + 1) hparent₂ hlt₂
      refine ⟨g₃, ?_, htakes₂.cons hframe hlt htakes₃⟩
      rw [Forest.listed, List.foldlM_cons, hadd]
      change (below.listed (above ++ [i]) 0 ++ beside.listed above (i + 1)).foldlM Growth.add _ = _
      rw [List.foldlM_append, hfold₂]
      exact hfold₃

def listedTree (root : ServedFrame) (below : Forest) : List ServedFrame :=
  { root with path := [] } :: below.listed [] 0

theorem exists_buildTrace_listedTree {root : ServedFrame} {below : Forest}
    (h : (Forest.cons root below .nil).Converts) :
    ∃ t, buildTrace (listedTree root below) = .ok t ∧ t.size = 1 + below.size ∧
      (Forest.cons root below .nil).Shown t 0 [0] := by
  obtain ⟨⟨frame, hframe⟩, hbelow, _⟩ := h
  have hfound : (Growth.mk (.ofRoot frame) [([], 0)]).find? [] = some 0 := rfl
  obtain ⟨g, hfold, htakes⟩ := exists_takes hbelow 0 hfound Nat.one_pos
  obtain ⟨roots, hshown, hroot⟩ := htakes.shown
  refine ⟨g.trace, buildTrace_cons_eq_ok_iff.mpr ⟨rfl, frame, g,
    (ServedFrame.of_toFrame hframe).2 [], hfold, rfl⟩, htakes.size, ?_⟩
  have hroot : g.trace.frame? 0 = some { frame with children := roots.toArray } := by
    rw [hroot, frame?_ofRoot.mpr ⟨rfl, rfl⟩, Option.map_some, (ServedFrame.of_toFrame hframe).1,
      Array.empty_append]
  exact .cons hframe hroot rfl hshown .nil

/-! ## Flat traces -/

/-- Frames that are all understood make a trace just when there are none, or the first one is a root
and each later one finds its parent's address before it.  The trace then has them in their order,
each as it was served, and each under the latest frame before it with its parent's address.  So a
call tree that is listed in pre-order with its addresses comes back as it was, its frames numbered
in pre-order. -/
theorem buildTrace_rebuilds {served : List ServedFrame}
    (h : ∀ f ∈ served, ∃ frame, f.toFrame = .ok frame) :
    ((∃ t, buildTrace served = .ok t) ↔
      served = [] ∨ ∃ root rest, served = root :: rest ∧ root.path = [] ∧ Linked [root] rest) ∧
    (∀ t, buildTrace served = .ok t → t.size = served.length ∧
      ∀ i frame, t.frame? i = some frame →
        (∃ f own, served[i]? = some f ∧ f.toFrame = .ok own ∧
          frame = { own with children := frame.children }) ∧
        frame.children.toList.Pairwise (· < ·) ∧ ∀ j, j ∈ frame.children ↔ IsParent served i j) ∧
    ∀ root below, (Forest.cons root below .nil).Converts →
      ∃ t, buildTrace (listedTree root below) = .ok t ∧ t.size = 1 + below.size ∧
        (Forest.cons root below .nil).Shown t 0 [0] := by
  refine ⟨?_, fun t hbuilt => ?_, fun root below => exists_buildTrace_listedTree⟩
  · cases served with
    | nil => exact iff_of_true ⟨_, rfl⟩ (.inl rfl)
    | cons root rest =>
        obtain ⟨⟨frame, hframe⟩, hrest⟩ := List.forall_mem_cons.mp h
        constructor
        · rintro ⟨t, hbuilt⟩
          obtain ⟨hroot, frame, g, hframe, hfold, rfl⟩ := buildTrace_cons_eq_ok_iff.mp hbuilt
          exact .inr ⟨root, rest, rfl, hroot,
            ((follows_root hroot hframe).linked_iff hrest).mp ⟨g, hfold⟩⟩
        · rintro (hempty | ⟨root', rest', hserved, hroot, hlinked⟩)
          · cases hempty
          · cases hserved
            obtain ⟨g, hfold⟩ := ((follows_root hroot hframe).linked_iff hrest).mpr hlinked
            exact ⟨g.trace, buildTrace_cons_eq_ok_iff.mpr ⟨hroot, frame, g, hframe, hfold, rfl⟩⟩
  · cases served with
    | nil =>
        cases hbuilt
        refine ⟨rfl, fun i frame hframe => ?_⟩
        simp [frame?, CallTrace.empty] at hframe
    | cons root rest =>
        obtain ⟨hroot, frame, g, hframe, hfold, rfl⟩ := buildTrace_cons_eq_ok_iff.mp hbuilt
        have hfollows := (follows_root hroot hframe).foldlM hfold
        exact ⟨hfollows.size, fun i frame hframe => hfollows.frames hframe⟩

def servedCall (path : List Nat) : ServedFrame where
  kind := "call"
  action := ⟨none, none, some ⟨1⟩, none, none, none, none, none, none, none, none⟩
  result := none
  error := none
  path := path

theorem toFrame_servedCall (path : List Nat) :
    (servedCall path).toFrame = .ok (.plain .call ⟨1⟩ none 0) := by
  have hroot : (servedCall []).toFrame = .ok (.plain .call ⟨1⟩ none 0) := by decide +kernel
  exact (ServedFrame.of_toFrame hroot).2 path

/-! Two frames have one address; a third one with an address below goes under the second of them. -/

def repeatedCalls : List ServedFrame := [[], [0], [0], [0, 5], [3]].map servedCall

theorem buildTrace_rebuilds_repeated : (∀ f ∈ repeatedCalls, ∃ frame, f.toFrame = .ok frame) ∧
    ∃ t, buildTrace repeatedCalls = .ok t ∧ t.size = 5 ∧ IsParent repeatedCalls 2 3 ∧
      ¬ IsParent repeatedCalls 1 3 ∧ ∃ root, t.frame? 0 = some root ∧ root.children = #[1, 2, 4] := by
  have hserved : ∀ f ∈ repeatedCalls, ∃ frame, f.toFrame = .ok frame := by
    intro f hf
    obtain ⟨path, _, rfl⟩ := List.mem_map.mp hf
    exact ⟨_, toFrame_servedCall path⟩
  have hlinked : Linked [servedCall []] ([[0], [0], [0, 5], [3]].map servedCall) := by
    simp [Linked, servedCall]
  obtain ⟨hbuilds, hframes, _⟩ := buildTrace_rebuilds hserved
  obtain ⟨t, hbuilt⟩ := hbuilds.mpr (.inr ⟨_, _, rfl, rfl, hlinked⟩)
  obtain ⟨hsize, hframes⟩ := hframes t hbuilt
  have hchildren : ∀ t, buildTrace repeatedCalls = .ok t →
      (t.frame? 0).map Frame.children = some #[1, 2, 4] ∧
      (t.frame? 1).map Frame.children = some #[] ∧ (t.frame? 2).map Frame.children = some #[3] := by
    intro t ht
    cases ht
    decide +kernel
  obtain ⟨hroot, hfirst, hsecond⟩ := hchildren t hbuilt
  obtain ⟨root, hroot, hrootChildren⟩ := Option.map_eq_some_iff.mp hroot
  obtain ⟨first, hfirst, hfirstChildren⟩ := Option.map_eq_some_iff.mp hfirst
  obtain ⟨second, hsecond, hsecondChildren⟩ := Option.map_eq_some_iff.mp hsecond
  refine ⟨hserved, t, hbuilt, hsize, ?_, ?_, root, hroot, hrootChildren⟩
  · rw [← (hframes 2 second hsecond).2.2 3, hsecondChildren]
    simp
  · rw [← (hframes 1 first hfirst).2.2 3, hfirstChildren]
    simp

end ChainIngest.Rpc
