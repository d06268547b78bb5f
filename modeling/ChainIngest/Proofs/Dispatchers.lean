import ChainIngest.Proofs.AppendedCode
/-!
# Dispatchers

A dispatcher is read comparison by comparison: the bytes of a selector and those of a
jump's destination are constants of a push, whatever they look like, and a comparison
ends where an instruction ends.  Besides its selectors a dispatcher pushes the constants
of its prologue and its destinations.  These are below 2 ^ 16, and no rule asks for so
small a selector, so a dispatcher has just the capabilities of its selectors.
-/

namespace ChainIngest.Capability

variable {code : Bytes} {instructions later : List Instruction} {op : UInt8} {k : Nat}
  {s : Selector} {selectors : List Selector} {next : UInt16}

/-! ## What is generated -/

def comparison (destination : UInt16) (s : Selector) : List Instruction :=
  [⟨0x80, []⟩, ⟨0x63, selectorBytes s⟩, ⟨0x14, []⟩, ⟨0x61, Bytes.ofNatBE 2 destination.toNat⟩,
    ⟨0x57, []⟩]

def listing (next : UInt16) : List Selector → List Instruction
  | [] => []
  | s :: rest => comparison next s ++ listing (next + 1) rest

def prologue : List Instruction :=
  [⟨0x60, [0x80]⟩, ⟨0x60, [0x40]⟩, ⟨0x52, []⟩, ⟨0x60, [0x00]⟩, ⟨0x35, []⟩, ⟨0x60, [0xe0]⟩,
    ⟨0x1c, []⟩]

theorem not_pushes (hop : op.toNat < 0x60) (k : Nat) : ¬ Pushes k op := by
  rintro ⟨hpositive, _, hwidth⟩
  omega

theorem not_pushes_above (hop : 0x7f < op.toNat) (k : Nat) : ¬ Pushes k op := by
  rintro ⟨_, hmost, hwidth⟩
  omega

theorem pushes_byte (b : UInt8) : Pushes [b].length 0x60 := by
  rw [List.length_singleton]
  exact ⟨by decide, by decide, rfl⟩

theorem Decodes.single (h : Decodes code later) (hop : op.toNat < 0x60) :
    Decodes (op :: code) (⟨op, []⟩ :: later) :=
  .plain (not_pushes hop) h

theorem Decodes.constant {immediate : Bytes} (hpush : Pushes immediate.length op)
    (h : Decodes code later) : Decodes (op :: (immediate ++ code)) (⟨op, immediate⟩ :: later) := by
  have hlength : immediate.length ≤ (immediate ++ code).length := by
    rw [List.length_append]
    omega
  have hread := Decodes.push hpush hlength (by rwa [List.drop_left])
  rwa [List.take_left] at hread

theorem Decodes.comparison (h : Decodes code later) (destination : UInt16) (s : Selector) :
    Decodes ([0x80, 0x63] ++ selectorBytes s ++ [0x14, 0x61] ++ Bytes.ofNatBE 2 destination.toNat ++
      [0x57] ++ code) (comparison destination s ++ later) := by
  have hselector : Pushes (selectorBytes s).length 0x63 := by
    rw [selectorBytes, Bytes.length_ofNatBE]
    exact ⟨by decide, by decide, rfl⟩
  have hdestination : Pushes (Bytes.ofNatBE 2 destination.toNat).length 0x61 := by
    rw [Bytes.length_ofNatBE]
    exact ⟨by decide, by decide, rfl⟩
  have hjump := h.single (by decide : (0x57 : UInt8).toNat < 0x60)
  have hequal := (hjump.constant hdestination).single (by decide : (0x14 : UInt8).toNat < 0x60)
  have hcopy := Decodes.plain (not_pushes_above (by decide : 0x7f < (0x80 : UInt8).toNat))
    (hequal.constant hselector)
  simpa [Capability.comparison] using hcopy

theorem Decodes.comparisons (h : Decodes code later) (next : UInt16) (selectors : List Selector) :
    Decodes (comparisons next selectors ++ code) (listing next selectors ++ later) := by
  induction selectors generalizing next with
  | nil => exact h
  | cons s rest ih =>
      have hfirst := (ih (next + 1)).comparison next s
      rw [Capability.comparisons, listing, List.append_assoc, List.append_assoc]
      exact hfirst

theorem Decodes.dispatcher (h : Decodes code later) (selectors : List Selector) :
    Decodes (dispatcher selectors ++ code)
      (prologue ++ (listing 0x0100 selectors ++ ⟨0x00, []⟩ :: later)) := by
  have hstop := h.single (by decide : (0x00 : UInt8).toNat < 0x60)
  have hbody := hstop.comparisons 0x0100 selectors
  have hshift := hbody.single (by decide : (0x1c : UInt8).toNat < 0x60)
  have hload := (hshift.constant (pushes_byte 0xe0)).single
    (by decide : (0x35 : UInt8).toNat < 0x60)
  have hstore := (hload.constant (pushes_byte 0x00)).single
    (by decide : (0x52 : UInt8).toNat < 0x60)
  have hwhole := (hstore.constant (pushes_byte 0x40)).constant (pushes_byte 0x80)
  simpa [Capability.dispatcher, prologue] using hwhole

/-! ## What it pushes -/

theorem not_offers_plain {immediate : Bytes} (hplain : ∀ k, ¬ Pushes k op) :
    ¬ (Instruction.mk op immediate).Offers s := by
  rintro ⟨k, _, hpush, _⟩
  exact hplain k hpush

theorem selectorOf_selectorBytes (s : Selector) : selectorOf (selectorBytes s) = s := by
  rw [selectorOf, selectorBytes, Bytes.toNatBE_ofNatBE,
    Nat.mod_eq_of_lt (show s.toNat < 256 ^ 4 from s.toNat_lt), UInt32.ofNat_toNat]

theorem selectorOf_destination (destination : UInt16) :
    selectorOf (Bytes.ofNatBE 2 destination.toNat) = destination.toUInt32 := by
  have hlt : destination.toNat < 256 ^ 2 := destination.toNat_lt
  apply UInt32.toNat_inj.mp
  rw [selectorOf, Bytes.toNatBE_ofNatBE, Nat.mod_eq_of_lt hlt, UInt16.toNat_toUInt32,
    UInt32.toNat_ofNat_of_lt' (Nat.lt_trans hlt (by decide))]

theorem offered_comparison {destination : UInt16} {s' : Selector} :
    Offered (comparison destination s') s ↔ s = s' ∨ s = destination.toUInt32 := by
  have hselector : (Instruction.mk 0x63 (selectorBytes s')).Offers s ↔ s = s' := by
    have hlength : (selectorBytes s').length = 4 := Bytes.length_ofNatBE 4 _
    rw [offers_iff (by rw [hlength]; exact ⟨by decide, by decide, rfl⟩), hlength,
      selectorOf_selectorBytes, and_iff_right (Nat.le_refl 4)]
  have hdestination :
      (Instruction.mk 0x61 (Bytes.ofNatBE 2 destination.toNat)).Offers s ↔
        s = destination.toUInt32 := by
    have hlength : (Bytes.ofNatBE 2 destination.toNat).length = 2 := Bytes.length_ofNatBE 2 _
    rw [offers_iff (by rw [hlength]; exact ⟨by decide, by decide, rfl⟩), hlength,
      selectorOf_destination, and_iff_right (by decide)]
  rw [comparison, offered_cons, or_iff_right (not_offers_plain (not_pushes_above (by decide))),
    offered_cons, hselector, offered_cons, or_iff_right (not_offers_plain (not_pushes (by decide))),
    offered_cons, hdestination, offered_cons,
    or_iff_right (not_offers_plain (not_pushes (by decide)))]
  simp [Offered]

theorem offered_listing : Offered (listing next selectors) s ↔
    s ∈ selectors ∨ ∃ i < selectors.length, s = (next + UInt16.ofNat i).toUInt32 := by
  induction selectors generalizing next with
  | nil => simp [listing, Offered]
  | cons s' rest ih =>
      have hstep : ∀ i, next + UInt16.ofNat (i + 1) = next + 1 + UInt16.ofNat i := by
        intro i
        rw [UInt16.add_assoc, UInt16.ofNat_add, UInt16.add_comm (UInt16.ofNat i)]
        rfl
      have hdestinations :
          (∃ i < (s' :: rest).length, s = (next + UInt16.ofNat i).toUInt32) ↔
            s = next.toUInt32 ∨ ∃ i < rest.length, s = (next + 1 + UInt16.ofNat i).toUInt32 := by
        rw [List.length_cons, Nat.exists_lt_succ_left]
        simp only [hstep]
        simp
      rw [listing, offered_append, offered_comparison, ih, hdestinations, List.mem_cons,
        or_or_or_comm]

theorem offered_prologue : Offered prologue s ↔ s ∈ [0x80, 0x40, 0x00, 0xe0] := by
  have hconstant : ∀ b : UInt8, (Instruction.mk 0x60 [b]).Offers s ↔ s = selectorOf [b] := by
    intro b
    rw [offers_iff (pushes_byte b), List.length_singleton, and_iff_right (by decide)]
  have hplain : ∀ op : UInt8, op.toNat < 0x60 → ¬ (Instruction.mk op []).Offers s :=
    fun _ hop => not_offers_plain (not_pushes hop)
  rw [prologue, offered_cons, offered_cons, offered_cons, offered_cons, offered_cons, offered_cons,
    offered_cons, hconstant, hconstant, hconstant, hconstant,
    or_iff_right (hplain 0x52 (by decide)), or_iff_right (hplain 0x35 (by decide)),
    or_iff_right (hplain 0x1c (by decide))]
  simp [Offered, selectorOf, Bytes.toNatBE, Bytes.toNatLE]

/-- Everything that is pushed: the constants of the prologue, the selectors with a destination each,
and what the code behind the dispatcher pushes. -/
theorem mem_pushedSelectors_dispatcher (selectors : List Selector) (suffix : Bytes) :
    s ∈ pushedSelectors (dispatcher selectors ++ suffix) ↔
      s ∈ [0x80, 0x40, 0x00, 0xe0] ∨
        (s ∈ selectors ∨ ∃ i < selectors.length, s = (0x0100 + UInt16.ofNat i).toUInt32) ∨
        s ∈ pushedSelectors suffix := by
  obtain ⟨later, hlater⟩ := exists_decodes suffix
  have hstop : ¬ (Instruction.mk 0x00 []).Offers s := not_offers_plain (not_pushes (by decide))
  rw [mem_pushedSelectors_iff (hlater.dispatcher selectors), offered_append, offered_append,
    offered_cons, or_iff_right hstop, offered_prologue, offered_listing,
    mem_pushedSelectors_iff hlater]

/-! ## What the rules ask for -/

theorem two_pow_le_of_required {r : Rule} (hr : r ∈ rules) (hs : s ∈ r.selectors) :
    2 ^ 16 ≤ s.toNat := by
  have hall : (rules.all fun r => r.selectors.all fun s => 2 ^ 16 ≤ s.toNat) = true := by decide
  exact of_decide_eq_true (List.all_eq_true.mp (List.all_eq_true.mp hall r hr) s hs)

/-- A selector that a rule asks for is neither a constant of the prologue nor a destination. -/
theorem mem_pushedSelectors_dispatcher_of_required {r : Rule} (hr : r ∈ rules)
    (hs : s ∈ r.selectors) (selectors : List Selector) (suffix : Bytes) :
    s ∈ pushedSelectors (dispatcher selectors ++ suffix) ↔
      s ∈ selectors ∨ s ∈ pushedSelectors suffix := by
  have hlarge := two_pow_le_of_required hr hs
  have hprologue : s ∉ ([0x80, 0x40, 0x00, 0xe0] : List Selector) := by
    have hsmall : ([0x80, 0x40, 0x00, 0xe0] : List Selector).all (·.toNat < 2 ^ 16) = true := by
      decide
    exact fun hmem =>
      Nat.not_le_of_lt (of_decide_eq_true (List.all_eq_true.mp hsmall s hmem)) hlarge
  have hdestination : ¬ ∃ i < selectors.length, s = (0x0100 + UInt16.ofNat i).toUInt32 := by
    rintro ⟨i, _, rfl⟩
    rw [UInt16.toNat_toUInt32] at hlarge
    exact Nat.not_le_of_lt (UInt16.toNat_lt _) hlarge
  rw [mem_pushedSelectors_dispatcher, or_iff_right hprologue, or_iff_left hdestination]

/-- Only the selectors that rules ask for decide whether one is satisfied. -/
theorem satisfied_congr_of_required {has has' : Selector → Prop} {r : Rule} (hr : r ∈ rules)
    (h : ∀ b ∈ rules, ∀ s ∈ b.selectors, has s ↔ has' s) :
    r.Satisfied rules has ↔ r.Satisfied rules has' := by
  have hall : ∀ b ∈ rules, (∀ s ∈ b.selectors, has s) ↔ ∀ s ∈ b.selectors, has' s :=
    fun b hb => forall₂_congr (h b hb)
  refine and_congr (hall r hr) (forall₂_congr fun base _ => exists_congr fun b => ?_)
  exact and_congr_right fun hb => and_congr_right fun _ => hall b hb

theorem contains_detect_dispatcher (selectors : List Selector) (suffix : Bytes) (c : Capability) :
    (detect (dispatcher selectors ++ suffix)).contains c = true ↔
      ∃ r ∈ rules, r.capability = c ∧
        r.Satisfied rules fun s => s ∈ selectors ∨ s ∈ pushedSelectors suffix := by
  refine (contains_applyRules basesFirst_rules _ c).trans (exists_congr fun r => ?_)
  refine and_congr_right fun hr => and_congr_right fun _ => satisfied_congr_of_required hr ?_
  exact fun b hb s hs => mem_pushedSelectors_dispatcher_of_required hb hs selectors suffix

/-- A dispatcher has just the capabilities whose selectors, and whose base's selectors, it
dispatches on.  What else it pushes is no selector that a rule asks for, whatever the bytes of its
selectors look like; listing selectors in another order or more than once changes nothing.  Code
behind it adds the selectors that it pushes read on its own, and takes no capability away. -/
theorem detect_dispatcher (selectors : List Selector) :
    (detect (dispatcher selectors)).Proper ∧
    (∀ c, (detect (dispatcher selectors)).contains c = true ↔
      ∃ r ∈ rules, r.capability = c ∧ r.Satisfied rules (· ∈ selectors)) ∧
    (∀ r ∈ rules, ∀ s ∈ r.selectors,
      s ∈ pushedSelectors (dispatcher selectors) ↔ s ∈ selectors) ∧
    (∀ others : List Selector, (∀ s, s ∈ others ↔ s ∈ selectors) →
      detect (dispatcher others) = detect (dispatcher selectors)) ∧
    ∀ suffix c,
      ((detect (dispatcher selectors)).contains c = true →
        (detect (dispatcher selectors ++ suffix)).contains c = true) ∧
      ((detect (dispatcher selectors ++ suffix)).contains c = true ↔
        ∃ r ∈ rules, r.capability = c ∧
          r.Satisfied rules fun s => s ∈ selectors ∨ s ∈ pushedSelectors suffix) := by
  have hnone : ∀ s, s ∉ pushedSelectors [] := by simp [pushedSelectors]
  have halone : ∀ selectors c, (detect (dispatcher selectors)).contains c = true ↔
      ∃ r ∈ rules, r.capability = c ∧ r.Satisfied rules (· ∈ selectors) := by
    intro selectors c
    have hempty := contains_detect_dispatcher selectors [] c
    simp only [hnone, or_false] at hempty
    rwa [List.append_nil] at hempty
  refine ⟨proper_detect _, halone selectors, fun r hr s hs => ?_, fun others hsame => ?_,
    fun suffix c => ⟨fun hfound => ?_, contains_detect_dispatcher selectors suffix c⟩⟩
  · have hrequired := mem_pushedSelectors_dispatcher_of_required hr hs selectors []
    rwa [List.append_nil, or_iff_left (hnone s)] at hrequired
  · refine (proper_detect _).ext (proper_detect _) fun c => ?_
    rw [Bool.eq_iff_iff, halone others, halone selectors]
    simp only [hsame]
  · exact contains_detect_mono (fun s hs => mem_pushedSelectors_of_prefix suffix hs) hfound

end ChainIngest.Capability
