import ChainIngest.Balance.Schedule
import Mathlib.Data.List.Nodup
/-!
# Eras

A schedule keeps its eras in the order of their first blocks, and those with the
same first block in the order in which they were listed.  So the last era begun
is, of the eras begun, the one with the greatest first block and, of several such,
the one listed last; and only the order among eras with the same first block counts.
-/

namespace ChainIngest.Balance

/-- The era governs the height: of the eras begun by then it has the greatest first block, and it is
listed after all others with this first block. -/
def Governs (eras : List Era) (number : Nat) (era : Era) : Prop :=
  ∃ before after, eras = before ++ era :: after ∧ era.start ≤ number ∧
    (∀ other ∈ before, other.start ≤ number → other.start ≤ era.start) ∧
    ∀ other ∈ after, other.start ≤ number → other.start < era.start

def startingAt (start : Nat) (eras : List Era) : List Era :=
  eras.filter fun era => era.start = start

section Lists

variable {eras listed : List Era} {era : Era} {start number : Nat}

theorem mem_startingAt : era ∈ startingAt start eras ↔ era ∈ eras ∧ era.start = start := by
  rw [startingAt, List.mem_filter, decide_eq_true_iff]

theorem startingAt_cons : startingAt start (era :: eras) =
    if era.start = start then era :: startingAt start eras else startingAt start eras := by
  simp only [startingAt, List.filter_cons, decide_eq_true_eq]

theorem split_of_startingAt {front : List Era}
    (h : startingAt era.start eras = front ++ [era]) :
    ∃ before after, eras = before ++ era :: after ∧ ∀ other ∈ after, other.start ≠ era.start := by
  obtain ⟨front, back, rfl, -, hback⟩ := List.filter_eq_append_iff.mp h
  obtain ⟨between, after, rfl, -, -, hafter⟩ := List.filter_eq_cons_iff.mp hback
  refine ⟨front ++ between, after, (List.append_assoc ..).symm, ?_⟩
  intro other hother hstart
  have hmem : other ∈ startingAt era.start after := mem_startingAt.mpr ⟨hother, hstart⟩
  rw [startingAt, hafter] at hmem
  cases hmem

theorem Governs.unique {other : Era} (h : Governs eras number era)
    (hother : Governs eras number other) : era = other := by
  obtain ⟨before, after, rfl, hbegun, hbefore, hafter⟩ := h
  obtain ⟨before', after', hsplit, hbegun', hbefore', hafter'⟩ := hother
  rcases List.append_eq_append_iff.mp hsplit with ⟨between, rfl, hback⟩ | ⟨between, rfl, hback⟩
  · cases between with
    | nil => exact (List.cons.inj hback).1
    | cons _ between =>
        obtain ⟨rfl, rfl⟩ := List.cons.inj hback
        have hlater := hafter other (by simp) hbegun'
        have hearlier := hbefore' era (by simp) hbegun
        omega
  · cases between with
    | nil => exact (List.cons.inj hback).1.symm
    | cons _ between =>
        obtain ⟨rfl, rfl⟩ := List.cons.inj hback
        have hlater := hafter' era (by simp) hbegun
        have hearlier := hbefore other (by simp) hbegun'
        omega

/-! ## Eras in order -/

theorem start_le_of_mem (hsorted : (era :: eras).Pairwise fun a b => a.start ≤ b.start)
    {other : Era} (h : other ∈ era :: eras) : era.start ≤ other.start := by
  rcases List.mem_cons.mp h with rfl | h
  · exact Nat.le_refl _
  · exact (List.pairwise_cons.mp hsorted).1 other h

theorem mem_iff_of_startingAt (h : ∀ start, startingAt start eras = startingAt start listed) :
    era ∈ eras ↔ era ∈ listed := by
  have hera := congrArg (era ∈ ·) (h era.start)
  simpa only [mem_startingAt, and_true, eq_iff_iff] using hera

/-- The order of first blocks leaves open only the order among eras with the same first block. -/
theorem eq_of_startingAt (hleft : eras.Pairwise fun a b => a.start ≤ b.start)
    (hright : listed.Pairwise fun a b => a.start ≤ b.start)
    (h : ∀ start, startingAt start eras = startingAt start listed) : eras = listed := by
  induction eras generalizing listed with
  | nil =>
      cases listed with
      | nil => rfl
      | cons b listed => cases (mem_iff_of_startingAt h).mpr List.mem_cons_self
  | cons a eras ih =>
      cases listed with
      | nil => cases (mem_iff_of_startingAt h).mp List.mem_cons_self
      | cons b listed =>
          have hstart : a.start = b.start := by
            apply Nat.le_antisymm
            · apply start_le_of_mem hleft
              exact (mem_iff_of_startingAt h).mpr List.mem_cons_self
            · apply start_le_of_mem hright
              exact (mem_iff_of_startingAt h).mp List.mem_cons_self
          have hhead : a = b := by
            have hfirst := h a.start
            rw [startingAt_cons, startingAt_cons, if_pos rfl, if_pos hstart.symm] at hfirst
            exact (List.cons.inj hfirst).1
          subst hhead
          have htails : ∀ start, startingAt start eras = startingAt start listed := by
            intro start
            have hboth := h start
            rw [startingAt_cons, startingAt_cons] at hboth
            split at hboth
            · exact (List.cons.inj hboth).2
            · exact hboth
          rw [ih hleft.of_cons hright.of_cons htails]

end Lists

namespace Schedule

variable {eras listed : List Era} {number : Nat}

theorem mem_eras_ofEras {era : Era} : era ∈ (ofEras eras).eras ↔ era ∈ eras :=
  List.mem_mergeSort

theorem start_trans (a b c : Era) (hab : decide (a.start ≤ b.start) = true)
    (hbc : decide (b.start ≤ c.start) = true) : decide (a.start ≤ c.start) = true := by
  rw [decide_eq_true_iff] at hab hbc ⊢
  exact Nat.le_trans hab hbc

theorem start_total (a b : Era) :
    (decide (a.start ≤ b.start) || decide (b.start ≤ a.start)) = true := by
  rw [Bool.or_eq_true, decide_eq_true_iff, decide_eq_true_iff]
  exact Nat.le_total ..

theorem ascending_ofEras (eras : List Era) :
    (ofEras eras).eras.Pairwise fun a b => a.start ≤ b.start := by
  have hsorted := List.pairwise_mergeSort start_trans start_total eras
  simp only [decide_eq_true_eq] at hsorted
  exact hsorted

theorem startingAt_ofEras (start : Nat) (eras : List Era) :
    startingAt start (ofEras eras).eras = startingAt start eras := by
  have hequal : (startingAt start eras).Pairwise fun a b => decide (a.start ≤ b.start) = true := by
    apply List.pairwise_of_forall_mem_list
    intro a ha b hb
    rw [(mem_startingAt.mp ha).2, (mem_startingAt.mp hb).2]
    exact decide_eq_true (Nat.le_refl start)
  have hlisted : (startingAt start eras).Sublist (ofEras eras).eras :=
    List.sublist_mergeSort start_trans start_total hequal List.filter_sublist
  have hkept : (startingAt start eras).Sublist (startingAt start (ofEras eras).eras) := by
    have hfilter := hlisted.filter fun era => era.start = start
    simpa only [startingAt, List.filter_filter, Bool.and_self] using hfilter
  have hlength : (startingAt start (ofEras eras).eras).length = (startingAt start eras).length :=
    ((List.mergeSort_perm eras _).filter _).length_eq
  exact (hkept.eq_of_length hlength.symm).symm

theorem ofEras_eq_of_startingAt (h : ∀ start, startingAt start listed = startingAt start eras) :
    ofEras listed = ofEras eras := by
  have heras : (ofEras listed).eras = (ofEras eras).eras := by
    apply eq_of_startingAt (ascending_ofEras listed) (ascending_ofEras eras)
    intro start
    rw [startingAt_ofEras, startingAt_ofEras, h start]
  exact congrArg Schedule.mk heras

/-- Among eras with distinct first blocks no order is to be kept. -/
theorem ofEras_eq_of_perm (hperm : listed.Perm eras) (hdistinct : (eras.map Era.start).Nodup) :
    ofEras listed = ofEras eras := by
  have hsorted : (ofEras listed).eras.Perm (ofEras eras).eras :=
    (List.mergeSort_perm listed _).trans (hperm.trans (List.mergeSort_perm eras _).symm)
  have heras : (ofEras listed).eras = (ofEras eras).eras := by
    apply List.Perm.eq_of_pairwise _ (ascending_ofEras listed) (ascending_ofEras eras) hsorted
    intro a b ha hb hab hba
    apply List.inj_on_of_nodup_map hdistinct _ (mem_eras_ofEras.mp hb) (Nat.le_antisymm hab hba)
    exact hperm.mem_iff.mp (mem_eras_ofEras.mp ha)
  exact congrArg Schedule.mk heras

/-! ## The last era begun -/

theorem split_of_find? {era : Era}
    (h : ((ofEras eras).eras.reverse.find? fun era => era.start ≤ number) = some era) :
    ∃ earlier later, (ofEras eras).eras = earlier ++ era :: later ∧ era.start ≤ number ∧
      ∀ other ∈ later, number < other.start := by
  obtain ⟨hbegun, later, earlier, hsplit, hlater⟩ := List.find?_eq_some_iff_append.mp h
  refine ⟨earlier.reverse, later.reverse, ?_, of_decide_eq_true hbegun, ?_⟩
  · calc (ofEras eras).eras = (later ++ era :: earlier).reverse := by
          rw [← hsplit, List.reverse_reverse]
      _ = earlier.reverse ++ era :: later.reverse := by simp
  · intro other hother
    have hnot := hlater other (List.mem_reverse.mp hother)
    simpa using hnot

/-- The last era begun governs the height. -/
theorem governs_of_find? {era : Era}
    (h : ((ofEras eras).eras.reverse.find? fun era => era.start ≤ number) = some era) :
    Governs eras number era := by
  obtain ⟨earlier, later, hsorted, hbegun, hlater⟩ := split_of_find? h
  have hascending := ascending_ofEras eras
  rw [hsorted, List.pairwise_append] at hascending
  have hgreatest : ∀ other ∈ eras, other.start ≤ number → other.start ≤ era.start := by
    intro other hother hle
    rw [← mem_eras_ofEras, hsorted, List.mem_append, List.mem_cons] at hother
    rcases hother with hother | rfl | hother
    · exact hascending.2.2 other hother era List.mem_cons_self
    · exact Nat.le_refl _
    · exact absurd hle (Nat.not_le.mpr (hlater other hother))
  have hnone : startingAt era.start later = [] := by
    apply List.eq_nil_iff_forall_not_mem.mpr
    intro other hother
    obtain ⟨hmem, hstart⟩ := mem_startingAt.mp hother
    have hlt := hlater other hmem
    omega
  -- as the order is stable, the era is also the last of the list with its first block
  have hlast : startingAt era.start eras = startingAt era.start earlier ++ [era] := by
    calc startingAt era.start eras = startingAt era.start (earlier ++ era :: later) := by
          rw [← hsorted, startingAt_ofEras]
      _ = startingAt era.start earlier ++ startingAt era.start (era :: later) :=
          List.filter_append ..
      _ = startingAt era.start earlier ++ [era] := by rw [startingAt_cons, if_pos rfl, hnone]
  obtain ⟨before, after, rfl, hafter⟩ := split_of_startingAt hlast
  refine ⟨before, after, rfl, hbegun, fun other hother => hgreatest other (by simp [hother]), ?_⟩
  intro other hother hle
  exact Nat.lt_of_le_of_ne (hgreatest other (by simp [hother]) hle) (hafter other hother)

theorem blockReward_of_later (h : ∀ era ∈ eras, number < era.start) :
    (ofEras eras).blockReward number = 0 := by
  have hnone : ((ofEras eras).eras.reverse.find? fun era => era.start ≤ number) = .none := by
    rw [List.find?_eq_none]
    intro era hera
    have hlt := h era (mem_eras_ofEras.mp (List.mem_reverse.mp hera))
    simpa using hlt
  rw [blockReward, hnone]

/-- An era governs the height and its reward is paid, or no era has begun. -/
theorem governs_or_later (eras : List Era) (number : Nat) :
    (∃ era, Governs eras number era ∧ (ofEras eras).blockReward number = era.reward) ∨
      ∀ era ∈ eras, number < era.start := by
  cases hfind : (ofEras eras).eras.reverse.find? fun era => era.start ≤ number with
  | none =>
      right
      intro era hera
      have hnot := List.find?_eq_none.mp hfind era (List.mem_reverse.mpr (mem_eras_ofEras.mpr hera))
      simpa using hnot
  | some era =>
      left
      exact ⟨era, governs_of_find? hfind, by rw [blockReward, hfind]⟩

/-- The base reward of a height is that of the era that governs it, and zero before all eras.  Only
the order among eras with the same first block counts, and none where first blocks are distinct. -/
theorem blockReward_ofEras (eras : List Era) :
    (∀ number,
      ((∃ era, Governs eras number era) ∨ ∀ era ∈ eras, number < era.start) ∧
      (∀ era, Governs eras number era → (ofEras eras).blockReward number = era.reward) ∧
      ((∀ era ∈ eras, number < era.start) → (ofEras eras).blockReward number = 0)) ∧
    (∀ listed, (∀ start, startingAt start listed = startingAt start eras) →
      ofEras listed = ofEras eras) ∧
    ∀ listed, listed.Perm eras → (eras.map Era.start).Nodup → ofEras listed = ofEras eras := by
  refine ⟨fun number => ⟨?_, ?_, blockReward_of_later⟩, fun _ => ofEras_eq_of_startingAt,
    fun _ => ofEras_eq_of_perm⟩
  · exact (governs_or_later eras number).imp_left fun ⟨era, hera, _⟩ => ⟨era, hera⟩
  · intro era hera
    rcases governs_or_later eras number with ⟨last, hlast, hreward⟩ | hlater
    · rw [hreward, hera.unique hlast]
    · obtain ⟨before, after, rfl, hbegun, -⟩ := hera
      exact absurd hbegun (Nat.not_le.mpr (hlater era (by simp)))

/-- Two eras begin with block 10; it counts that the third is listed after the first. -/
def tiedEras : List Era := [⟨10, 1⟩, ⟨5, 2⟩, ⟨10, 3⟩, ⟨20, 4⟩]

theorem blockReward_ofEras_tied :
    Governs tiedEras 15 ⟨10, 3⟩ ∧ (ofEras tiedEras).blockReward 15 = 3 ∧
      (∀ era ∈ tiedEras, 4 < era.start) ∧ (ofEras tiedEras).blockReward 4 = 0 ∧
      ofEras [⟨20, 4⟩, ⟨10, 1⟩, ⟨10, 3⟩, ⟨5, 2⟩] = ofEras tiedEras ∧
      ofEras [⟨20, 4⟩, ⟨10, 3⟩, ⟨5, 2⟩] = ofEras tiedEras.tail := by
  have hgoverns : Governs tiedEras 15 ⟨10, 3⟩ :=
    ⟨[⟨10, 1⟩, ⟨5, 2⟩], [⟨20, 4⟩], rfl, by decide, by decide, by decide⟩
  have hlater : ∀ era ∈ tiedEras, 4 < era.start := by decide
  have hlisted : ∀ start, startingAt start [⟨20, 4⟩, ⟨10, 1⟩, ⟨10, 3⟩, ⟨5, 2⟩] =
      startingAt start tiedEras := by
    intro start
    simp only [tiedEras, startingAt_cons]
    grind
  obtain ⟨hrewards, hreordered, -⟩ := blockReward_ofEras tiedEras
  obtain ⟨-, -, hdistinct⟩ := blockReward_ofEras tiedEras.tail
  exact ⟨hgoverns, (hrewards 15).2.1 _ hgoverns, hlater, (hrewards 4).2.2 hlater,
    hreordered _ hlisted, hdistinct _ (by decide) (by decide)⟩

end Schedule

end ChainIngest.Balance
