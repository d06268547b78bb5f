import ChainIngest.Proofs.Conservation
/-!
# What a check finds missing

A sheet that passed its check is compared with what is left of it when changes
get lost.  What it is expected to add up to stays, what it adds up to falls short
by the lost amounts, so the loss is noticed unless these cancel.  A change is
never zero, so a single lost change is always noticed.
-/

namespace ChainIngest

namespace Word

theorem ofInt_sum_toInt {α : Type} (f : α → Word) (xs : List α) :
    BitVec.ofInt 256 (xs.map fun x => (f x).toInt).sum = (xs.map f).sum := by
  induction xs with
  | nil => rfl
  | cons x xs ih =>
      simp only [List.map_cons, List.sum_cons]
      rw [BitVec.ofInt_add, BitVec.ofInt_toInt, ih]

/-- Signed words add up to zero exactly if their exact sum is a multiple of the word size. -/
theorem sum_eq_zero_iff_dvd {α : Type} (f : α → Word) (xs : List α) :
    (xs.map f).sum = 0 ↔ (2 ^ 256 : Int) ∣ (xs.map fun x => (f x).toInt).sum := by
  rw [← ofInt_sum_toInt, ← BitVec.toNat_inj, BitVec.toNat_ofInt]
  simp only [BitVec.ofNat_eq_ofNat, BitVec.toNat_ofNat, Nat.zero_mod]
  omega

end Word

namespace Balance

variable {s : Sheet} {kept lost : List BalanceDelta}

/-! ## Changes of a sheet -/

theorem amount_ne_zero_of_mem {block : BlockId} {cs : List Change} {d : BalanceDelta}
    (h : d ∈ deltasOf block cs) : d.amount ≠ 0 := by
  rw [deltasOf, List.mem_mapIdx] at h
  obtain ⟨i, hi, rfl⟩ := h
  have hchange := List.of_mem_filter (List.getElem_mem hi)
  simpa [Change.toDelta] using hchange

/-! ## Losing changes -/

theorem verify_eq_ok_iff : s.verify = .ok () ↔ s.expectedTotal = s.total := by
  unfold Sheet.verify
  split <;> simp_all

theorem total_of_perm (h : (kept ++ lost).Perm s.deltas) :
    ({ s with deltas := kept } : Sheet).total = s.total - (lost.map BalanceDelta.amount).sum := by
  have hsum := (h.map BalanceDelta.amount).sum_eq
  rw [List.map_append, List.sum_append] at hsum
  rw [total_eq_sum, total_eq_sum, ← hsum]
  simp

/-- The check of what is left: nothing is wrong if the lost amounts cancel, and else the error tells
the expected sum of the whole sheet and what is left of it. -/
theorem verify_of_lost (hpassed : s.verify = .ok ()) (h : (kept ++ lost).Perm s.deltas) :
    ({ s with deltas := kept } : Sheet).verify =
      if (lost.map BalanceDelta.amount).sum = 0 then .ok ()
      else .error (.conservation s.block s.expectedTotal
        (s.total - (lost.map BalanceDelta.amount).sum)) := by
  have hexpected : s.expectedTotal = s.total := verify_eq_ok_iff.mp hpassed
  have hgap : s.expectedTotal = s.total - (lost.map BalanceDelta.amount).sum ↔
      (lost.map BalanceDelta.amount).sum = 0 := by
    rw [hexpected, eq_comm, sub_eq_self]
  have hsame : ({ s with deltas := kept } : Sheet).expectedTotal = s.expectedTotal := rfl
  rw [Sheet.verify, hsame, total_of_perm h]
  simp only [hgap]

/-- Whatever changes of a sheet that passed its check get lost, the check of what is left tells
whether their amounts add up to zero.  A single one never does: the error shows what was expected
of the whole sheet, and what was there less the lost amount. -/
theorem verify_detects_loss (input : Input) (schedule : Schedule)
    (hpassed : (compute input schedule).verify = .ok ()) :
    let sheet := compute input schedule
    (∀ d ∈ sheet.deltas, d.amount ≠ 0) ∧
    (sheet.deltas.length < 2 ^ 32 →
      ∀ (i : Nat) (d : BalanceDelta), sheet.deltas[i]? = some d → d.index.toNat = i) ∧
    (∀ kept lost, (kept ++ lost).Perm sheet.deltas →
      (({ sheet with deltas := kept } : Sheet).verify = .ok () ↔
        (2 ^ 256 : Int) ∣ (lost.map fun d => d.amount.toInt).sum)) ∧
    (∀ before d after, sheet.deltas = before ++ d :: after →
      ({ sheet with deltas := before ++ after } : Sheet).verify =
        .error (.conservation sheet.block sheet.expectedTotal (sheet.total - d.amount))) := by
  intro sheet
  have hnonzero (d : BalanceDelta) (hd : d ∈ sheet.deltas) : d.amount ≠ 0 :=
    amount_ne_zero_of_mem hd
  refine ⟨hnonzero, ?_, ?_, ?_⟩
  · intro hfew i d hd
    have hi : i < sheet.deltas.length := (List.getElem?_eq_some_iff.mp hd).1
    rw [index_of_deltasOf hd, UInt32.toNat_ofNat_of_lt' (lt_trans hi hfew)]
  · intro kept lost hperm
    rw [verify_of_lost hpassed hperm, ← Word.sum_eq_zero_iff_dvd]
    split <;> simp_all
  · intro before d after hsplit
    have hperm : (before ++ after ++ [d]).Perm sheet.deltas := by
      rw [hsplit]
      exact (List.perm_append_singleton d _).trans List.perm_middle.symm
    have hlost : ([d].map BalanceDelta.amount).sum = d.amount := by simp
    have hd : d.amount ≠ 0 := hnonzero d (by simp [hsplit])
    rw [verify_of_lost hpassed hperm, hlost, if_neg hd]

/-- The sheet loses both ends of a transfer of three, and then its debit alone. -/
theorem verify_detects_loss_extremes :
    let sheet := compute extremeInput (.constant (2 ^ 255))
    sheet.verify = .ok () ∧ sheet.deltas.length = 12 ∧
      ({ sheet with deltas := sheet.deltas.take 6 ++ sheet.deltas.drop 8 } : Sheet).verify = .ok () ∧
      ({ sheet with deltas := sheet.deltas.take 6 ++ sheet.deltas.drop 7 } : Sheet).verify =
        .error (.conservation ⟨1, ⟨1⟩⟩ (2 ^ 255 - 63000) (2 ^ 255 - 62997)) := by
  intro sheet
  have hpassed : sheet.verify = .ok () := verify_eq_ok_iff.mpr (by decide +kernel)
  have hlength : sheet.deltas.length = 12 := by decide +kernel
  obtain ⟨_, _, hmany, hone⟩ := verify_detects_loss extremeInput (.constant (2 ^ 255)) hpassed
  have hboth : (sheet.deltas.take 6 ++ sheet.deltas.drop 8 ++
      (sheet.deltas.drop 6).take 2).Perm sheet.deltas := by decide +kernel
  have hdebit : sheet.deltas = sheet.deltas.take 6 ++
      ⟨⟨1⟩, 1, 6, ⟨7⟩, -3, .transfer, some ⟨12⟩⟩ :: sheet.deltas.drop 7 := by decide +kernel
  refine ⟨hpassed, hlength, (hmany _ _ hboth).mpr (by decide +kernel), (hone _ _ _ hdebit).trans ?_⟩
  have hexpected : sheet.expectedTotal = 2 ^ 255 - 63000 := by decide +kernel
  have hactual : sheet.total - (-3) = 2 ^ 255 - 62997 := by decide +kernel
  rw [hexpected, hactual]
  rfl

end Balance

end ChainIngest
