import ChainIngest.Proofs.FlatTraces
/-!
# Seats in a rebuilt tree

A frame is hung up as the next child of its parent, and the last number of its address
is not looked at.  So every frame has one seat, a path of child positions, as deep as
its address says; and the seats are the addresses just when every frame counts the
siblings that were listed before it.
-/

namespace ChainIngest

namespace CallTrace

def child? (t : CallTrace) (id i : Nat) : Option Nat :=
  (t.frame? id).bind fun f => f.children[i]?

/-- Where a path of child positions leads from the root, below failed frames too. -/
def locate (t : CallTrace) (path : List Nat) : Option Nat := path.foldlM t.child? 0

variable {t : CallTrace} {path above : List Nat} {parent id i k : Nat} {child frame : Frame}

theorem locate_concat_iff : t.locate (path ++ [k]) = some i ↔
    ∃ id, t.locate path = some id ∧ t.child? id k = some i := by
  rw [locate, List.foldlM_append]
  simp [locate, Option.bind_eq_some_iff]

theorem child?_of_frame (hframe : t.frame? id = some frame) : t.child? id k = frame.children[k]? := by
  rw [child?, hframe, Option.bind_some]

theorem lt_size_of_child? (h : t.child? id k = some i) : id < t.size := by
  obtain ⟨f, hframe, _⟩ := Option.bind_eq_some_iff.mp h
  exact lt_size_of_frame? hframe

theorem child?_pushChild_iff (hframe : t.frame? parent = some frame)
    (hchildren : child.children = #[]) : (t.pushChild parent child).child? id k = some i ↔
      t.child? id k = some i ∨ id = parent ∧ k = frame.children.size ∧ t.size = i := by
  rw [child?, frame?_pushChild]
  by_cases hlast : id = t.size
  · have hnone : t.frame? id = none := by
      rw [← Option.not_isSome_iff_eq_none, frame?_isSome, hlast]
      exact Nat.lt_irrefl _
    have hother : id ≠ parent := fun heq => Nat.ne_of_lt (lt_size_of_frame? hframe) (heq.symm.trans hlast)
    simp [hlast ▸ hnone, hlast, hchildren, child?, hlast ▸ hother]
  · rw [if_neg hlast]
    by_cases heq : id = parent
    · subst heq
      rw [if_pos rfl, hframe, Option.map_some, Option.bind_some, Frame.addChild, child?_of_frame hframe,
        Array.getElem?_push]
      split
      · next hk => simp [hk]
      · next hk => simp [hk]
    · simp [heq, child?]

end CallTrace

namespace Rpc

open CallTrace

variable {t : CallTrace} {seats : List (List Nat)} {path above : List Nat} {parent i k : Nat}
  {child frame : Frame}

namespace Growth

@[simp] theorem parentPath?_concat : parentPath? (above ++ [k]) = some above := by
  simp [parentPath?]

theorem parentPath?_eq_some_iff : parentPath? path = some above ↔ ∃ k, path = above ++ [k] := by
  constructor
  · intro h
    unfold parentPath? at h
    split at h
    · cases h
    · next hne =>
      cases h
      exact ⟨_, (List.dropLast_concat_getLast (by simpa using hne)).symm⟩
  · rintro ⟨k, rfl⟩
    exact parentPath?_concat

end Growth

open Growth

/-! ## Seats -/

/-- The paths to the frames of a tree, in the order of the frames. -/
structure Seating (t : CallTrace) (seats : List (List Nat)) : Prop where
  size : seats.length = t.size
  seat : ∀ path i, t.locate path = some i ↔ seats[i]? = some path
  /-- A frame has as many children as there are seats directly below its own. -/
  children : ∀ {i path frame}, seats[i]? = some path → t.frame? i = some frame →
    frame.children.size = seats.countP fun seat => parentPath? seat = some path

theorem seating_root (hchildren : frame.children = #[]) : Seating (.ofRoot frame) [[]] where
  size := rfl
  seat path i := by
    rcases List.eq_nil_or_concat path with rfl | ⟨above, k, rfl⟩
    · cases i <;> simp [locate]
    · rw [List.concat_eq_append, locate_concat_iff]
      constructor
      · rintro ⟨id, _, hchild⟩
        obtain ⟨f, hframe, hchild⟩ := Option.bind_eq_some_iff.mp hchild
        obtain ⟨_, rfl⟩ := frame?_ofRoot.mp hframe
        simp [hchildren] at hchild
      · intro hseat
        cases i <;> simp at hseat
  children := by
    intro i path f hseat hframe
    obtain ⟨rfl, rfl⟩ := frame?_ofRoot.mp hframe
    simp [hchildren, parentPath?]

theorem Seating.injective {j : Nat} (h : Seating t seats) (hi : seats[i]? = some path)
    (hj : seats[j]? = some path) : i = j :=
  Option.some.inj (((h.seat path i).mpr hi).symm.trans ((h.seat path j).mpr hj))

theorem Seating.free (h : Seating t seats) (hseat : seats[parent]? = some above)
    (hframe : t.frame? parent = some frame) :
    ∀ seat ∈ seats, parentPath? seat ≠ some (above ++ [frame.children.size]) := by
  have hfree : t.locate (above ++ [frame.children.size]) = none := by
    rw [Option.eq_none_iff_forall_ne_some]
    intro i hi
    obtain ⟨id, hid, hchild⟩ := locate_concat_iff.mp hi
    obtain rfl : parent = id := Option.some.inj (((h.seat above parent).mpr hseat).symm.trans hid)
    rw [child?_of_frame hframe] at hchild
    simp at hchild
  intro seat hmem hbelow
  obtain ⟨k, rfl⟩ := parentPath?_eq_some_iff.mp hbelow
  obtain ⟨i, hi⟩ := List.getElem?_of_mem hmem
  obtain ⟨id, hid, _⟩ := locate_concat_iff.mp ((h.seat _ i).mpr hi)
  rw [hfree] at hid
  cases hid

theorem getElem?_concat_iff {α : Type} {xs : List α} {x y : α} : (xs ++ [x])[i]? = some y ↔
    xs[i]? = some y ∨ i = xs.length ∧ x = y := by
  rcases Nat.lt_trichotomy i xs.length with hlt | rfl | hgt
  · rw [List.getElem?_append_left hlt]
    simp [Nat.ne_of_lt hlt]
  · simp
  · rw [List.getElem?_eq_none_iff.mpr (by rw [List.length_append]; exact hgt)]
    simp [List.getElem?_eq_none_iff.mpr (Nat.le_of_lt hgt), Nat.ne_of_gt hgt]

theorem Seating.locate_pushChild (h : Seating t seats) (hseat : seats[parent]? = some above)
    (hframe : t.frame? parent = some frame) (hchildren : child.children = #[]) :
    (t.pushChild parent child).locate path = some i ↔
      (seats ++ [above ++ [frame.children.size]])[i]? = some path := by
  induction path using List.reverseRecOn generalizing i with
  | nil =>
      have hroot : (t.pushChild parent child).locate [] = some i ↔ t.locate [] = some i := Iff.rfl
      rw [hroot, h.seat, getElem?_concat_iff]
      simp
  | append_singleton path k ih =>
      simp only [locate_concat_iff, ih, getElem?_concat_iff, child?_pushChild_iff hframe hchildren]
      rw [← h.seat (path ++ [k]), locate_concat_iff, h.size]
      constructor
      · rintro ⟨id, hid, hchild | ⟨rfl, rfl, rfl⟩⟩
        · have hlt := lt_size_of_child? hchild
          have hid := hid.resolve_right fun hnew => Nat.ne_of_lt hlt hnew.1
          exact .inl ⟨id, (h.seat path id).mpr hid, hchild⟩
        · have hlt := lt_size_of_frame? hframe
          have hid := hid.resolve_right fun hnew => Nat.ne_of_lt hlt hnew.1
          obtain rfl := Option.some.inj (hseat.symm.trans hid)
          exact .inr ⟨rfl, rfl⟩
      · rintro (⟨id, hid, hchild⟩ | ⟨rfl, hsame⟩)
        · exact ⟨id, .inl ((h.seat path id).mp hid), .inl hchild⟩
        · obtain ⟨rfl, hk⟩ := List.append_inj' hsame rfl
          cases hk
          exact ⟨parent, .inl hseat, .inr ⟨rfl, rfl, rfl⟩⟩

/-- A further child takes the next seat below its parent. -/
theorem Seating.pushChild (h : Seating t seats) (hseat : seats[parent]? = some above)
    (hframe : t.frame? parent = some frame) (hchildren : child.children = #[]) :
    Seating (t.pushChild parent child) (seats ++ [above ++ [frame.children.size]]) where
  size := by rw [List.length_append, h.size, size_pushChild, List.length_singleton]
  seat _ _ := h.locate_pushChild hseat hframe hchildren
  children := by
    intro i path f hi hf
    rw [frame?_pushChild] at hf
    rw [List.countP_append, List.countP_singleton, parentPath?_concat]
    rcases getElem?_concat_iff.mp hi with hi | ⟨rfl, rfl⟩
    · have hlt : i < t.size := h.size ▸ (List.getElem?_eq_some_iff.mp hi).1
      rw [if_neg (Nat.ne_of_lt hlt)] at hf
      by_cases heq : i = parent
      · subst heq
        rw [if_pos rfl, hframe] at hf
        cases hf
        obtain rfl := Option.some.inj (hseat.symm.trans hi)
        simp [Frame.addChild, ← h.children hseat hframe]
      · rw [if_neg heq] at hf
        have hother : above ≠ path := fun hsame => heq (h.injective (hsame ▸ hi) hseat)
        simp [h.children hi hf, hother]
    · rw [if_pos h.size] at hf
      cases hf
      have hnone : seats.countP (fun seat => parentPath? seat = some (above ++ [frame.children.size])) = 0 := by
        rw [List.countP_eq_zero]
        intro seat hmem
        simpa using h.free hseat hframe seat hmem
      simp [hchildren, hnone]

/-! ## Addresses -/

/-- Frames of which each, given those before it, has for the last number of its address how many
frames before it have an address with the same parent. -/
def Numbered (before : List ServedFrame) : List ServedFrame → Prop
  | [] => True
  | f :: rest =>
    (∀ k ∈ f.path.getLast?,
      k = before.countP fun g => parentPath? g.path = some f.path.dropLast) ∧
      Numbered (before ++ [f]) rest

instance decidableNumbered (before : List ServedFrame) :
    (served : List ServedFrame) → Decidable (Numbered before served)
  | [] => inferInstanceAs (Decidable True)
  | f :: rest =>
    have := decidableNumbered (before ++ [f]) rest
    inferInstanceAs (Decidable ((∀ k ∈ f.path.getLast?,
      k = before.countP fun g => parentPath? g.path = some f.path.dropLast) ∧
        Numbered (before ++ [f]) rest))

variable {g g' : Growth} {before rest : List ServedFrame}

/-- A frame takes a seat as deep as its address, and the very seat that its address names if it
counts its siblings, given that the frames before it sit where their addresses say. -/
theorem Seating.add {f : ServedFrame} (h : Seating g.trace seats) (hfollows : Follows before g)
    (hdepth : seats.map List.length = before.map fun f => f.path.length)
    (hadd : g.add f = .ok g') : ∃ seat, Seating g'.trace (seats ++ [seat]) ∧
      seat.length = f.path.length ∧
      (seats = before.map ServedFrame.path → (seat = f.path ↔ ∀ k ∈ f.path.getLast?,
        k = before.countP fun g => parentPath? g.path = some f.path.dropLast)) := by
  obtain ⟨parent, own, hpath, hfound, hown, hlt, rfl⟩ := add_eq_ok_iff.mp hadd
  obtain ⟨⟨p, hp, hparent⟩, _⟩ := (hfollows.found _ _).mp hfound
  obtain ⟨frame, hframe⟩ := Option.isSome_iff_exists.mp (frame?_isSome.mpr hlt)
  obtain ⟨above, hseat⟩ : ∃ above, seats[parent]? = some above :=
    ⟨_, List.getElem?_eq_getElem (h.size ▸ hlt)⟩
  obtain ⟨front, last, hlast⟩ := (List.eq_nil_or_concat f.path).resolve_left hpath
  rw [List.concat_eq_append] at hlast
  rw [hlast, List.dropLast_concat] at hparent
  refine ⟨_, h.pushChild hseat hframe (ServedFrame.of_toFrame hown).1, ?_, fun hseats => ?_⟩
  · have hlength : above.length = front.length := by
      have hsame := congrArg (·[parent]?) hdepth
      simpa [hseat, hp, hparent] using hsame
    rw [hlast, List.length_append, List.length_append, hlength, List.length_singleton,
      List.length_singleton]
  · have hcount := h.children hseat hframe
    subst hseats
    obtain rfl : front = above := by simpa [hp, hparent] using hseat
    rw [List.countP_map] at hcount
    rw [hlast, hcount]
    simp [Function.comp_def, eq_comm]

/-- The seats of all frames, and when they are those that the addresses name. -/
theorem exists_seating_of_foldlM (h : Seating g.trace seats) (hfollows : Follows before g)
    (hdepth : seats.map List.length = before.map fun f => f.path.length)
    (hfold : rest.foldlM Growth.add g = .ok g') : ∃ all, Seating g'.trace all ∧
      all.map List.length = (before ++ rest).map (fun f => f.path.length) ∧
      (all = (before ++ rest).map ServedFrame.path ↔
        seats = before.map ServedFrame.path ∧ Numbered before rest) := by
  induction rest generalizing before g seats with
  | nil =>
      cases hfold
      exact ⟨seats, h, by rwa [List.append_nil], by simp [Numbered]⟩
  | cons f rest ih =>
      rw [List.foldlM_cons] at hfold
      obtain ⟨next, hnext, hfold⟩ := ok_of_bind hfold
      obtain ⟨seat, hseating, hlength, hseat⟩ := h.add hfollows hdepth hnext
      have hdepth' : (seats ++ [seat]).map List.length =
          (before ++ [f]).map fun f => f.path.length := by
        rw [List.map_append, List.map_append, hdepth, List.map_singleton, List.map_singleton, hlength]
      obtain ⟨all, hall, hdeep, hsame⟩ := ih hseating (hfollows.add hnext) hdepth' hfold
      rw [List.append_assoc, List.singleton_append] at hdeep hsame
      refine ⟨all, hall, hdeep, hsame.trans ?_⟩
      rw [List.map_append, List.map_singleton, Numbered, ← and_assoc]
      refine and_congr_left fun _ => ?_
      constructor
      · intro heq
        obtain ⟨hseats, hlast⟩ := List.append_inj' heq rfl
        exact ⟨hseats, (hseat hseats).mp (List.singleton_inj.mp hlast)⟩
      · rintro ⟨hseats, hcounts⟩
        rw [hseats, (hseat hseats).mpr hcounts]

theorem path_ne_nil_of_foldlM (hfold : rest.foldlM Growth.add g = .ok g') :
    ∀ f ∈ rest, f.path ≠ [] := by
  induction rest generalizing g with
  | nil => simp
  | cons f rest ih =>
      rw [List.foldlM_cons] at hfold
      obtain ⟨next, hnext, hfold⟩ := ok_of_bind hfold
      obtain ⟨_, _, hpath, _⟩ := add_eq_ok_iff.mp hnext
      exact List.forall_mem_cons.mpr ⟨hpath, ih hfold⟩

theorem exists_seating {served : List ServedFrame} (h : buildTrace served = .ok t) :
    ∃ seats, (served ≠ [] → Seating t seats) ∧
      seats.map List.length = served.map (fun f => f.path.length) ∧
      (seats = served.map ServedFrame.path ↔ Numbered [] served) := by
  cases served with
  | nil => exact ⟨[], fun hne => absurd rfl hne, rfl, by simp [Numbered]⟩
  | cons root rest =>
      obtain ⟨hroot, frame, g, hframe, hfold, rfl⟩ := buildTrace_cons_eq_ok_iff.mp h
      have hseating : Seating (CallTrace.ofRoot frame) [[]] :=
        seating_root (ServedFrame.of_toFrame hframe).1
      obtain ⟨seats, hseats, hdepth, hsame⟩ :=
        exists_seating_of_foldlM hseating (follows_root hroot hframe) (by simp [hroot]) hfold
      exact ⟨seats, fun _ => hseats, hdepth, hsame.trans (by simp [Numbered, hroot])⟩

/-! ## Frames at their addresses -/

theorem Seating.nodup (h : Seating t seats) : seats.Nodup := by
  rw [List.nodup_iff_getElem?_ne_getElem?]
  intro i j hij hlt hsame
  have hbound : i < seats.length := Nat.lt_trans hij hlt
  have hi : seats[i]? = some seats[i] := List.getElem?_eq_getElem hbound
  exact Nat.ne_of_lt hij (h.injective hi (hsame ▸ hi))

theorem Seating.eq_paths_iff {served : List ServedFrame} (h : Seating t seats)
    (hlength : seats.length = served.length) : seats = served.map ServedFrame.path ↔
      ∀ i f, served[i]? = some f → t.locate f.path = some i := by
  constructor
  · rintro rfl i f hf
    exact (h.seat _ i).mpr (by rw [List.getElem?_map, hf, Option.map_some])
  · intro hfound
    refine List.ext_getElem? fun i => ?_
    rw [List.getElem?_map]
    cases hf : served[i]? with
    | none => exact List.getElem?_eq_none_iff.mpr (hlength ▸ List.getElem?_eq_none_iff.mp hf)
    | some f => exact (h.seat _ i).mp (hfound i f hf)

/-- Every frame of a rebuilt tree sits at the end of one path of child positions, as deep as its
address says.  The paths are the addresses just when every frame counts the siblings listed before
it, and then no two frames have one address.  Only the first frame has the empty one. -/
theorem seated_iff_numbered {served : List ServedFrame} (h : buildTrace served = .ok t) :
    (∀ i f, served[i]? = some f →
      ∃ seat, seat.length = f.path.length ∧ ∀ path, t.locate path = some i ↔ path = seat) ∧
    ((∀ i f, served[i]? = some f → t.locate f.path = some i) ↔ Numbered [] served) ∧
    (Numbered [] served → (served.map ServedFrame.path).Nodup) ∧
    ∀ i f, served[i]? = some f → (f.path = [] ↔ i = 0) := by
  obtain ⟨seats, hseating, hdepth, hnumbered⟩ := exists_seating h
  cases served with
  | nil => simp [Numbered]
  | cons root rest =>
      have hseating : Seating t seats := hseating (List.cons_ne_nil root rest)
      have hlength : seats.length = (root :: rest).length := by
        simpa using congrArg List.length hdepth
      refine ⟨fun i f hf => ?_, (hseating.eq_paths_iff hlength).symm.trans hnumbered,
        fun hnum => ?_, fun i f hf => ?_⟩
      · have hi : i < seats.length := hlength ▸ (List.getElem?_eq_some_iff.mp hf).1
        have hseat : seats[i]? = some seats[i] := List.getElem?_eq_getElem hi
        refine ⟨seats[i], ?_, fun path => ?_⟩
        · have hsame : (seats.map List.length)[i]? = _ := congrArg (·[i]?) hdepth
          rw [List.getElem?_map, List.getElem?_map, hseat, hf] at hsame
          exact Option.some.inj hsame
        · rw [hseating.seat, hseat, Option.some.injEq, eq_comm]
      · rw [← hnumbered.mpr hnum]
        exact hseating.nodup
      · obtain ⟨hroot, _, _, _, hfold, _⟩ := buildTrace_cons_eq_ok_iff.mp h
        cases i with
        | zero =>
            obtain rfl := Option.some.inj hf
            simp [hroot]
        | succ i =>
            have hne := path_ne_nil_of_foldlM hfold f (List.mem_of_getElem? hf)
            simp [hne]

/-! A tree of four calls with their addresses, and the same calls with the siblings listed the other
way round. -/

def nestedCalls : List ServedFrame := [[], [0], [0, 0], [1]].map servedCall

def reorderedCalls : List ServedFrame := [[], [1], [0], [0, 0]].map servedCall

theorem seated_iff_numbered_nested :
    (∃ t, buildTrace nestedCalls = .ok t ∧ Numbered [] nestedCalls ∧
      t.locate [0, 0] = some 2 ∧ t.locate [1] = some 3) ∧
    ∃ t, buildTrace reorderedCalls = .ok t ∧ ¬ Numbered [] reorderedCalls ∧
      ¬ ∀ i f, reorderedCalls[i]? = some f → t.locate f.path = some i := by
  have hnested : ∃ t, buildTrace nestedCalls = .ok t := ⟨_, rfl⟩
  have hreordered : ∃ t, buildTrace reorderedCalls = .ok t := ⟨_, rfl⟩
  have hnumbered : Numbered [] nestedCalls := by decide
  have hunnumbered : ¬ Numbered [] reorderedCalls := by decide
  obtain ⟨t, ht⟩ := hnested
  obtain ⟨t', ht'⟩ := hreordered
  have hseated := (seated_iff_numbered ht).2.1.mpr hnumbered
  exact ⟨⟨t, ht, hnumbered, hseated 2 _ rfl, hseated 3 _ rfl⟩, t', ht', hunnumbered,
    fun hfound => hunnumbered ((seated_iff_numbered ht').2.1.mp hfound)⟩

def gappedCalls : List ServedFrame := [[], [1]].map servedCall

def doubledCalls : List ServedFrame := [[], [0], [0]].map servedCall

/-- A list whose siblings leave out a number is taken, and a frame does not sit where its address
says; so is one in which two frames have one address. -/
theorem buildTrace_takes_unnumbered :
    (∃ t, buildTrace gappedCalls = .ok t ∧ t.locate [0] = some 1 ∧
      ¬ ∀ i f, gappedCalls[i]? = some f → t.locate f.path = some i) ∧
    ∃ t, buildTrace doubledCalls = .ok t ∧ t.locate [1] = some 2 ∧
      ¬ (doubledCalls.map ServedFrame.path).Nodup := by
  refine ⟨⟨_, rfl, by decide, fun hfound => ?_⟩, _, rfl, by decide, by decide⟩
  have hlast := hfound 1 _ rfl
  revert hlast
  decide

end Rpc

end ChainIngest
