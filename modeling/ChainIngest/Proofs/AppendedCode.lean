import ChainIngest.Proofs.Detection
/-!
# Code behind code

Code is read from its start, so nothing that is put behind it can hide what it offers: a
capability once found is found in every longer code.  If the first part ends where an
instruction ends, the second is read as if it stood alone.  A push that lacks bytes of its
constant takes them from the second part, which is read from behind them.
-/

namespace ChainIngest.Capability

variable {a b rest : Bytes} {op : UInt8} {k missing : Nat}
  {before instructions later : List Instruction} {i : Instruction} {s : Selector}

/-! ## Where code ends -/

/-- Code whose last instruction is a push that lacks some bytes of its constant. -/
structure Lacks (code : Bytes) (before : List Instruction) (i : Instruction) (missing : Nat) :
    Prop where
  decodes : Decodes code (before ++ [i])
  pushes : Pushes (i.immediate.length + missing) i.op
  missing_pos : 0 < missing

def EndsInPush (code : Bytes) : Prop := ∃ before i missing, Lacks code before i missing

theorem Lacks.of_cut (hpush : Pushes k op) (hcut : rest.length < k) :
    Lacks (op :: rest) [] ⟨op, rest⟩ (k - rest.length) where
  decodes := .cut hpush hcut
  pushes := by
    have hlength : rest.length + (k - rest.length) = k := by omega
    rwa [hlength]
  missing_pos := by omega

theorem not_endsInPush_nil : ¬ EndsInPush [] := by
  rintro ⟨before, i, missing, hlacks⟩
  have hnil := hlacks.decodes.unique .nil
  cases before <;> cases hnil

/-- What code ends in is decided behind its first instruction, if that is complete. -/
theorem endsInPush_cons_iff {code : Bytes} (hfirst : ∀ missing, 0 < missing →
      ¬ Pushes (i.immediate.length + missing) i.op)
    (hdecodes : ∀ later, Decodes rest later → Decodes code (i :: later)) :
    EndsInPush code ↔ EndsInPush rest := by
  constructor
  · rintro ⟨before, last, missing, hlacks⟩
    obtain ⟨later, hlater⟩ := exists_decodes rest
    have hsame := hlacks.decodes.unique (hdecodes later hlater)
    cases before with
    | nil =>
        cases hsame
        exact absurd hlacks.pushes (hfirst missing hlacks.missing_pos)
    | cons first before =>
        cases hsame
        exact ⟨before, last, missing, hlater, hlacks.pushes, hlacks.missing_pos⟩
  · rintro ⟨before, last, missing, hlacks⟩
    exact ⟨i :: before, last, missing, hdecodes _ hlacks.decodes, hlacks.pushes,
      hlacks.missing_pos⟩

theorem endsInPush_plain_iff (hplain : ∀ k, ¬ Pushes k op) :
    EndsInPush (op :: rest) ↔ EndsInPush rest :=
  endsInPush_cons_iff (i := ⟨op, []⟩) (fun _ _ => hplain _) fun _ hlater => .plain hplain hlater

theorem endsInPush_push_iff (hpush : Pushes k op) (hlength : k ≤ rest.length) :
    EndsInPush (op :: rest) ↔ EndsInPush (rest.drop k) := by
  refine endsInPush_cons_iff (i := ⟨op, rest.take k⟩) (fun missing hmissing hmore => ?_)
    fun _ hlater => .push hpush hlength hlater
  have hwidth := hpush.unique hmore
  rw [List.length_take_of_le hlength] at hwidth
  omega

/-! ## Reading on -/

theorem Decodes.append (h : Decodes a instructions) (hends : ¬ EndsInPush a)
    (hlater : Decodes b later) : Decodes (a ++ b) (instructions ++ later) := by
  induction h with
  | nil => exact hlater
  | plain hplain _ ih => exact .plain hplain (ih (mt (endsInPush_plain_iff hplain).mpr hends))
  | @push k op rest _ hpush hlength _ ih =>
      have hrest := ih (mt (endsInPush_push_iff hpush hlength).mpr hends)
      rw [← List.drop_append_of_le_length hlength] at hrest
      have hlonger : k ≤ (rest ++ b).length := by
        rw [List.length_append]
        omega
      have hread := Decodes.push hpush hlonger hrest
      rw [List.take_append_of_le_length hlength] at hread
      exact hread
  | cut hpush hcut => exact absurd ⟨_, _, _, Lacks.of_cut hpush hcut⟩ hends

/-- In front of a push that is cut off there are complete instructions only. -/
theorem Lacks.split (h : Lacks a before i missing) :
    ∃ front, a = front ++ i.op :: i.immediate ∧ ¬ EndsInPush front := by
  obtain ⟨hdecodes, hpushes, hmissing⟩ := h
  generalize hall : before ++ [i] = instructions at hdecodes
  induction hdecodes generalizing before with
  | nil => cases before <;> cases hall
  | plain hplain hrest ih =>
      cases before with
      | nil =>
          cases hall
          exact absurd hpushes (hplain _)
      | cons first before =>
          cases hall
          obtain ⟨front, rfl, hfront⟩ := ih rfl
          exact ⟨_ :: front, rfl, mt (endsInPush_plain_iff hplain).mp hfront⟩
  | @push k op rest _ hpush hlength hrest ih =>
      cases before with
      | nil =>
          cases hall
          have hwidth := hpush.unique hpushes
          rw [List.length_take_of_le hlength] at hwidth
          omega
      | cons first before =>
          cases hall
          obtain ⟨front, hfront, hends⟩ := ih rfl
          refine ⟨op :: (rest.take k ++ front), ?_, ?_⟩
          · rw [List.cons_append, List.append_assoc, ← hfront, List.take_append_drop]
          · have htaken : (rest.take k).length = k := List.length_take_of_le hlength
            rw [endsInPush_push_iff hpush (by rw [List.length_append, htaken]; omega),
              List.drop_left' htaken]
            exact hends
  | cut hpush hcut =>
      cases before with
      | nil =>
          cases hall
          exact ⟨[], rfl, not_endsInPush_nil⟩
      | cons first before => cases before <;> cases hall

/-! ## Selectors -/

theorem offered_append :
    Offered (instructions ++ later) s ↔ Offered instructions s ∨ Offered later s := by
  simp only [Offered, List.mem_append, or_and_right, exists_or]

/-- The selectors of both parts, if the first ends with an instruction. -/
theorem mem_pushedSelectors_append (hends : ¬ EndsInPush a) :
    s ∈ pushedSelectors (a ++ b) ↔ s ∈ pushedSelectors a ∨ s ∈ pushedSelectors b := by
  obtain ⟨instructions, ha⟩ := exists_decodes a
  obtain ⟨later, hb⟩ := exists_decodes b
  rw [mem_pushedSelectors_iff (ha.append hends hb), mem_pushedSelectors_iff ha,
    mem_pushedSelectors_iff hb, offered_append]

theorem not_offers_of_short {immediate : Bytes} (hpush : Pushes k op)
    (hshort : immediate.length < k) : ¬ (Instruction.mk op immediate).Offers s := by
  rintro ⟨width, _, hwidth, hlength, _⟩
  have hsame := hpush.unique hwidth
  have hlength : immediate.length = width := hlength
  omega

theorem not_mem_pushedSelectors_of_cut (hpush : Pushes k op) (hcut : rest.length < k) :
    s ∉ pushedSelectors (op :: rest) := by
  rw [mem_pushedSelectors_iff (.cut hpush hcut)]
  simp [Offered, not_offers_of_short hpush hcut]

/-- A push with enough bytes behind it takes its constant, and the rest is read from there. -/
theorem mem_pushedSelectors_push (hpush : Pushes k op) (hlength : k ≤ rest.length) :
    s ∈ pushedSelectors (op :: rest) ↔
      (Instruction.mk op (rest.take k)).Offers s ∨ s ∈ pushedSelectors (rest.drop k) := by
  obtain ⟨later, hlater⟩ := exists_decodes (rest.drop k)
  rw [mem_pushedSelectors_iff (.push hpush hlength hlater), offered_cons,
    mem_pushedSelectors_iff hlater]

/-- A push that lacks bytes takes them from what follows, which is read from behind them. -/
theorem Lacks.mem_pushedSelectors_append (h : Lacks a before i missing) :
    s ∈ pushedSelectors (a ++ b) ↔ s ∈ pushedSelectors a ∨
      (Instruction.mk i.op (i.immediate ++ b.take missing)).Offers s ∨
      s ∈ pushedSelectors (b.drop missing) := by
  obtain ⟨front, rfl, hends⟩ := h.split
  have hmissing := h.missing_pos
  have hnothing : s ∉ pushedSelectors (i.op :: i.immediate) :=
    not_mem_pushedSelectors_of_cut h.pushes (by omega)
  rw [List.append_assoc, Capability.mem_pushedSelectors_append hends,
    Capability.mem_pushedSelectors_append hends, or_iff_left hnothing, List.cons_append]
  apply or_congr_right
  by_cases henough : missing ≤ b.length
  · rw [mem_pushedSelectors_push h.pushes (by rw [List.length_append]; omega),
      List.take_length_add_append, List.drop_length_add_append]
  -- all of what follows goes into the constant, and still it is not complete
  · have hshort : (i.immediate ++ b).length < i.immediate.length + missing := by
      rw [List.length_append]
      omega
    have hnone : s ∉ pushedSelectors [] := by simp [pushedSelectors]
    rw [List.take_of_length_le (by omega), List.drop_of_length_le (by omega), or_iff_left hnone]
    exact iff_of_false (not_mem_pushedSelectors_of_cut h.pushes hshort)
      (not_offers_of_short h.pushes hshort)

theorem mem_pushedSelectors_of_prefix (b : Bytes) (h : s ∈ pushedSelectors a) :
    s ∈ pushedSelectors (a ++ b) := by
  by_cases hends : EndsInPush a
  · obtain ⟨before, i, missing, hlacks⟩ := hends
    exact hlacks.mem_pushedSelectors_append.mpr (.inl h)
  · exact (mem_pushedSelectors_append hends).mpr (.inl h)

/-! ## Capabilities -/

/-- More selectors never cost a capability. -/
theorem contains_detect_mono (h : ∀ s ∈ pushedSelectors a, s ∈ pushedSelectors b) {c : Capability}
    (hfound : (detect a).contains c = true) : (detect b).contains c = true := by
  obtain ⟨r, hr, hcapability, hsatisfied⟩ :=
    (contains_applyRules basesFirst_rules (pushedSelectors a) c).mp hfound
  exact (contains_applyRules basesFirst_rules (pushedSelectors b) c).mpr
    ⟨r, hr, hcapability, hsatisfied.mono (fun _ hb => hb) h⟩

/-- Whatever is put behind code, the selectors and the capabilities that were found in it are still
found.  If it does not end inside the constant of a push, the selectors of the whole are just those
of the two parts.  If it does, the bytes that are missing are taken from what follows: the
completed constant counts, and then the selectors of what is left behind it. -/
theorem detect_append (a b : Bytes) :
    (∀ s ∈ pushedSelectors a, s ∈ pushedSelectors (a ++ b)) ∧
    (∀ c, (detect a).contains c = true → (detect (a ++ b)).contains c = true) ∧
    (¬ EndsInPush a → ∀ s,
      s ∈ pushedSelectors (a ++ b) ↔ s ∈ pushedSelectors a ∨ s ∈ pushedSelectors b) ∧
    ∀ before i missing, Lacks a before i missing → ∀ s,
      s ∈ pushedSelectors (a ++ b) ↔ s ∈ pushedSelectors a ∨
        (Instruction.mk i.op (i.immediate ++ b.take missing)).Offers s ∨
        s ∈ pushedSelectors (b.drop missing) := by
  have hkept : ∀ s ∈ pushedSelectors a, s ∈ pushedSelectors (a ++ b) :=
    fun _ hs => mem_pushedSelectors_of_prefix b hs
  refine ⟨hkept, fun c hfound => contains_detect_mono hkept hfound, ?_, ?_⟩
  · exact fun hends _ => mem_pushedSelectors_append hends
  · exact fun _ _ _ hlacks _ => hlacks.mem_pushedSelectors_append

/-! The selector of a transfer, three bytes in the first part and one in the second, and a push
before it that is complete. -/

theorem detect_append_transfer :
    ¬ EndsInPush [0x60, 0x80] ∧ Lacks [0x63, 0xa9, 0x05, 0x9c] [] ⟨0x63, [0xa9, 0x05, 0x9c]⟩ 1 ∧
      0xa9059cbb ∉ pushedSelectors [0x63, 0xa9, 0x05, 0x9c] ∧
      0xa9059cbb ∈
        pushedSelectors ([0x60, 0x80] ++ ([0x63, 0xa9, 0x05, 0x9c] ++ [0xbb, 0x14])) := by
  have hlong : Pushes 1 0x60 := ⟨by decide, by decide, rfl⟩
  have hwhole : ¬ EndsInPush [0x60, 0x80] :=
    mt (endsInPush_push_iff hlong (by decide)).mp not_endsInPush_nil
  have hpush : Pushes 4 0x63 := ⟨by decide, by decide, rfl⟩
  have hlacks : Lacks [0x63, 0xa9, 0x05, 0x9c] [] ⟨0x63, [0xa9, 0x05, 0x9c]⟩ 1 :=
    Lacks.of_cut hpush (by decide)
  refine ⟨hwhole, hlacks, not_mem_pushedSelectors_of_cut hpush (by decide), ?_⟩
  apply ((detect_append [0x60, 0x80] _).2.2.1 hwhole _).mpr
  right
  apply ((detect_append [0x63, 0xa9, 0x05, 0x9c] [0xbb, 0x14]).2.2.2 _ _ _ hlacks _).mpr
  exact .inr (.inl ⟨4, by decide, hpush, rfl, rfl⟩)

end ChainIngest.Capability
