import ChainIngest.Capability.Detect
import Mathlib.Data.List.Induction
import Mathlib.Data.List.Nodup
import Mathlib.Data.List.Perm.Basic
/-!
# What detection finds

Code is a sequence of instructions, and a push carries its constant with it.  The
capabilities of a contract are those whose selectors, and whose base's selectors,
are all among the constants of up to four bytes.  Nothing else in the code counts,
and neither does the order in which the rules are tried, as long as a base is tried
before what extends it.
-/

namespace ChainIngest

/-! ## Sets of capabilities -/

namespace Capability

theorem bit_eq_twoPow (c : Capability) : c.bit.toBitVec = BitVec.twoPow 16 c.position := by
  cases c <;> decide

theorem position_lt (c : Capability) : c.position < 13 := by cases c <;> decide

theorem all_position (c : Capability) : all[c.position]? = some c := by cases c <;> rfl

theorem position_inj {c d : Capability} (h : c.position = d.position) : c = d := by
  apply Option.some.inj
  rw [← all_position c, ← all_position d, h]

theorem exists_position {i : Nat} (hi : i < 13) : ∃ c : Capability, c.position = i := by
  have hall : ∀ i < 13, ∃ c ∈ all, c.position = i := by decide
  obtain ⟨c, _, hc⟩ := hall i hi
  exact ⟨c, hc⟩

end Capability

namespace Capabilities

theorem contains_eq_getLsbD (s : Capabilities) (c : Capability) :
    s.contains c = s.bits.toBitVec.getLsbD c.position := by
  have hand : (s.bits &&& c.bit).toBitVec =
      bif s.bits.toBitVec.getLsbD c.position then BitVec.twoPow 16 c.position else 0#16 := by
    rw [UInt16.toBitVec_and, c.bit_eq_twoPow, BitVec.and_twoPow, Bool.cond_eq_ite]
  have hbit : c.bit ≠ 0 := by cases c <;> decide
  cases hget : s.bits.toBitVec.getLsbD c.position with
  | true =>
      rw [hget, cond_true, ← c.bit_eq_twoPow, UInt16.toBitVec_inj] at hand
      rw [contains, hand, bne_iff_ne]
      exact hbit
  | false =>
      rw [hget, cond_false] at hand
      have hzero : s.bits &&& c.bit = 0 := UInt16.toBitVec_inj.mp hand
      rw [contains, hzero]
      rfl

@[simp] theorem contains_empty (c : Capability) : empty.contains c = false := by
  rw [contains, empty, UInt16.zero_and]
  rfl

theorem contains_insert (s : Capabilities) (c d : Capability) :
    (s.insert c).contains d = (s.contains d || decide (c = d)) := by
  rw [contains_eq_getLsbD, contains_eq_getLsbD, insert, UInt16.toBitVec_or, BitVec.getLsbD_or,
    c.bit_eq_twoPow, BitVec.getLsbD_twoPow]
  have hlt : c.position < 16 := Nat.lt_trans c.position_lt (by decide)
  rw [decide_eq_true hlt, Bool.true_and]
  congr 1
  exact decide_eq_decide.mpr ⟨Capability.position_inj, fun h => h ▸ rfl⟩

/-- A set without bits that stand for nothing. -/
def Proper (s : Capabilities) : Prop := ∀ i, s.bits.toBitVec.getLsbD i = true → i < 13

theorem proper_empty : empty.Proper := by
  intro i h
  rw [empty, show (0 : UInt16).toBitVec = 0#16 from rfl, BitVec.getLsbD_zero] at h
  cases h

theorem Proper.insert {s : Capabilities} (h : s.Proper) (c : Capability) : (s.insert c).Proper := by
  intro i hi
  rw [Capabilities.insert, UInt16.toBitVec_or, BitVec.getLsbD_or, c.bit_eq_twoPow,
    BitVec.getLsbD_twoPow, Bool.or_eq_true, Bool.and_eq_true, decide_eq_true_eq, decide_eq_true_eq] at hi
  rcases hi with hold | ⟨_, rfl⟩
  · exact h i hold
  · exact c.position_lt

theorem Proper.ext {s t : Capabilities} (hs : s.Proper) (ht : t.Proper)
    (h : ∀ c, s.contains c = t.contains c) : s = t := by
  obtain ⟨bits⟩ := s
  obtain ⟨bits'⟩ := t
  congr 1
  apply UInt16.toBitVec_inj.mp
  apply BitVec.eq_of_getLsbD_eq
  intro i _
  by_cases hi : i < 13
  · obtain ⟨c, rfl⟩ := Capability.exists_position hi
    rw [← contains_eq_getLsbD ⟨bits⟩, ← contains_eq_getLsbD ⟨bits'⟩, h c]
  · rw [Bool.eq_false_iff.mpr fun hbit => hi (hs i hbit),
      Bool.eq_false_iff.mpr fun hbit => hi (ht i hbit)]

end Capabilities

namespace Capability

/-! ## Instructions -/

structure Instruction where
  op : UInt8
  immediate : Bytes

def Pushes (k : Nat) (op : UInt8) : Prop := 1 ≤ k ∧ k ≤ 32 ∧ op.toNat = 0x5f + k

/-- Code read instruction by instruction from its start.  A push takes its constant with it, or
what is left of the code if that is less. -/
inductive Decodes : Bytes → List Instruction → Prop where
  | nil : Decodes [] []
  | plain {op : UInt8} {rest : Bytes} {later : List Instruction} : (∀ k, ¬ Pushes k op) →
      Decodes rest later → Decodes (op :: rest) (⟨op, []⟩ :: later)
  | push {k : Nat} {op : UInt8} {rest : Bytes} {later : List Instruction} : Pushes k op →
      k ≤ rest.length → Decodes (rest.drop k) later →
      Decodes (op :: rest) (⟨op, rest.take k⟩ :: later)
  | cut {k : Nat} {op : UInt8} {rest : Bytes} : Pushes k op → rest.length < k →
      Decodes (op :: rest) [⟨op, rest⟩]

/-- An instruction that pushes a selector, if need be without the zeros in front. -/
def Instruction.Offers (i : Instruction) (s : Selector) : Prop :=
  ∃ k ≤ 4, Pushes k i.op ∧ i.immediate.length = k ∧
    selectorBytes s = List.replicate (4 - k) 0 ++ i.immediate

def Offered (instructions : List Instruction) (s : Selector) : Prop :=
  ∃ i ∈ instructions, i.Offers s

variable {code rest : Bytes} {instructions : List Instruction} {op : UInt8} {k : Nat} {s : Selector}

theorem Pushes.unique {k' : Nat} (h : Pushes k op) (h' : Pushes k' op) : k = k' := by
  obtain ⟨_, _, h⟩ := h
  obtain ⟨_, _, h'⟩ := h'
  omega

theorem Pushes.width (h : Pushes k op) : immediateWidth op = k := by
  obtain ⟨_, _, hop⟩ := h
  rw [immediateWidth, if_pos (by omega)]
  omega

theorem pushes_immediateWidth (h : immediateWidth op ≠ 0) : Pushes (immediateWidth op) op := by
  unfold immediateWidth at h ⊢
  split at h
  · next hrange =>
    rw [if_pos hrange]
    unfold Pushes
    omega
  · exact absurd rfl h

theorem immediateWidth_eq_zero (h : ∀ k, ¬ Pushes k op) : immediateWidth op = 0 := by
  by_contra hwidth
  exact h _ (pushes_immediateWidth hwidth)

theorem exists_decodes (code : Bytes) : ∃ instructions, Decodes code instructions := by
  fun_induction pushedSelectors code with
  | case1 => exact ⟨[], .nil⟩
  | case2 op rest width _ _ _ ih | case3 op rest width _ _ _ ih =>
    obtain ⟨later, hlater⟩ := ih
    by_cases hwidth : width = 0
    · have hrest : rest.drop width = rest := by rw [hwidth, List.drop_zero]
      refine ⟨_, .plain (fun k hk => ?_) (hrest ▸ hlater)⟩
      exact Nat.ne_of_gt hk.1 (hk.width.symm.trans hwidth)
    · have hpush := pushes_immediateWidth hwidth
      by_cases hcut : rest.length < width
      · exact ⟨_, .cut hpush hcut⟩
      · exact ⟨_, .push hpush (Nat.le_of_not_lt hcut) hlater⟩

/-- Code can be read in one way only. -/
theorem Decodes.unique {other : List Instruction} (h : Decodes code instructions)
    (h' : Decodes code other) : other = instructions := by
  induction h generalizing other with
  | nil =>
      cases h'
      rfl
  | plain hplain _ ih =>
      cases h' with
      | plain _ hrest => rw [ih hrest]
      | push hpush => exact absurd hpush (hplain _)
      | cut hpush => exact absurd hpush (hplain _)
  | push hpush hlength _ ih =>
      cases h' with
      | plain hplain => exact absurd hpush (hplain _)
      | push hpush' _ hrest =>
          obtain rfl := hpush.unique hpush'
          rw [ih hrest]
      | cut hpush' hcut =>
          obtain rfl := hpush.unique hpush'
          omega
  | cut hpush hcut =>
      cases h' with
      | plain hplain => exact absurd hpush (hplain _)
      | push hpush' hlength =>
          obtain rfl := hpush.unique hpush'
          omega
      | cut => rfl

/-! ## Selectors -/

theorem toNatLE_append_zeros (b : Bytes) (n : Nat) :
    Bytes.toNatLE (b ++ List.replicate n 0) = Bytes.toNatLE b := by
  induction b with
  | nil =>
      induction n with
      | zero => rfl
      | succ n ih =>
          change (0 : UInt8).toNat + 256 * Bytes.toNatLE ([] ++ List.replicate n 0) = 0
          rw [ih]
          rfl
  | cons b rest ih => rw [List.cons_append, Bytes.toNatLE, ih, Bytes.toNatLE]

theorem toNatBE_zeros_append (n : Nat) (b : Bytes) :
    Bytes.toNatBE (List.replicate n 0 ++ b) = Bytes.toNatBE b := by
  rw [Bytes.toNatBE, List.reverse_append, List.reverse_replicate, toNatLE_append_zeros, Bytes.toNatBE]

/-- A constant of at most four bytes is the selector that it spells behind zeros. -/
theorem eq_selectorOf_iff {immediate : Bytes} (h : immediate.length ≤ 4) :
    s = selectorOf immediate ↔
      selectorBytes s = List.replicate (4 - immediate.length) 0 ++ immediate := by
  have hlength : (List.replicate (4 - immediate.length) 0 ++ immediate).length = 4 := by
    rw [List.length_append, List.length_replicate]
    omega
  have hlt : immediate.toNatBE < 2 ^ 32 :=
    calc immediate.toNatBE
      _ < 256 ^ immediate.length := Bytes.toNatBE_lt immediate
      _ ≤ 256 ^ 4 := Nat.pow_le_pow_right (by decide) h
  constructor
  · rintro rfl
    have hback := Bytes.ofNatBE_toNatBE (List.replicate (4 - immediate.length) 0 ++ immediate)
    rw [hlength, toNatBE_zeros_append] at hback
    rw [selectorBytes, selectorOf, UInt32.toNat_ofNat_of_lt' hlt, hback]
  · intro hbytes
    have hvalue := congrArg Bytes.toNatBE hbytes
    rw [selectorBytes, Bytes.toNatBE_ofNatBE, toNatBE_zeros_append,
      Nat.mod_eq_of_lt (show s.toNat < 256 ^ 4 from s.toNat_lt)] at hvalue
    rw [selectorOf, ← hvalue, UInt32.ofNat_toNat]

theorem offers_iff {immediate : Bytes} (h : Pushes immediate.length op) :
    (Instruction.mk op immediate).Offers s ↔ immediate.length ≤ 4 ∧ s = selectorOf immediate := by
  constructor
  · rintro ⟨k, hk, _, rfl, hbytes⟩
    exact ⟨hk, (eq_selectorOf_iff hk).mpr hbytes⟩
  · rintro ⟨hk, hs⟩
    exact ⟨immediate.length, hk, h, rfl, (eq_selectorOf_iff hk).mp hs⟩

theorem offered_cons {i : Instruction} {later : List Instruction} :
    Offered (i :: later) s ↔ i.Offers s ∨ Offered later s := by
  simp [Offered]

/-- Scanning code collects just the selectors that its instructions push. -/
theorem mem_pushedSelectors_iff (h : Decodes code instructions) :
    s ∈ pushedSelectors code ↔ Offered instructions s := by
  induction h with
  | nil => simp [pushedSelectors, Offered]
  | @plain op rest later hplain _ ih =>
      have hnothing : ¬ (Instruction.mk op []).Offers s := by
        rintro ⟨k, _, hk, _⟩
        exact hplain k hk
      rw [pushedSelectors, immediateWidth_eq_zero hplain, offered_cons]
      simpa [hnothing] using ih
  | @push k op rest later hpush hlength _ ih =>
      have htaken : (rest.take k).length = k := List.length_take_of_le hlength
      rw [pushedSelectors, hpush.width, offered_cons, offers_iff (htaken.symm ▸ hpush), htaken, ← ih]
      have hpositive := hpush.1
      split
      · next hsmall => rw [List.mem_cons, and_iff_right hsmall.2.1]
      · next hwide =>
        have hwide : ¬ k ≤ 4 := fun hk => hwide ⟨hpositive, hk, rfl⟩
        rw [or_iff_right fun hsmall => hwide hsmall.1]
  | @cut k op rest hpush hcut =>
      have hnothing : ¬ (Instruction.mk op rest).Offers s := by
        rintro ⟨k', _, hk', rfl, _⟩
        obtain rfl := hpush.unique hk'
        exact Nat.lt_irrefl _ hcut
      rw [pushedSelectors, hpush.width, offered_cons, List.take_of_length_le (Nat.le_of_lt hcut),
        List.drop_of_length_le (Nat.le_of_lt hcut), if_neg fun hall => Nat.ne_of_lt hcut hall.2.2]
      simp [pushedSelectors, Offered, hnothing]

/-! ## Rules -/

def applyRules (order : List Rule) (pushed : List Selector) (found : Capabilities) : Capabilities :=
  order.foldl (fun found r => if r.met pushed found then found.insert r.capability else found) found

/-- A rule whose selectors, and whose base's selectors if it has a base, all have a property. -/
def Rule.Satisfied (order : List Rule) (has : Selector → Prop) (r : Rule) : Prop :=
  (∀ s ∈ r.selectors, has s) ∧
    ∀ base, r.base = some base → ∃ b ∈ order, b.capability = base ∧ ∀ s ∈ b.selectors, has s

/-- Rules in an order in which a base, which extends nothing itself, comes before what extends
it. -/
structure BasesFirst (order : List Rule) : Prop where
  plain : ∀ r ∈ order, ∀ b ∈ order, r.base = some b.capability → b.base = none
  before : order.Pairwise fun earlier later => earlier.base ≠ some later.capability

instance (order : List Rule) : Decidable (BasesFirst order) :=
  decidable_of_iff
    ((∀ r ∈ order, ∀ b ∈ order, r.base = some b.capability → b.base = none) ∧
      order.Pairwise fun earlier later => earlier.base ≠ some later.capability)
    ⟨fun h => ⟨h.1, h.2⟩, fun h => ⟨h.plain, h.before⟩⟩

theorem basesFirst_rules : BasesFirst rules := by decide

theorem met_iff {r : Rule} {pushed : List Selector} {found : Capabilities} :
    r.met pushed found = true ↔
      (∀ base, r.base = some base → found.contains base = true) ∧ ∀ s ∈ r.selectors, s ∈ pushed := by
  simp [Rule.met, Option.all_eq_true]

/-- Where a rule is tried, its base was tried before. -/
theorem BasesFirst.of_extends {done later : List Rule} {r b : Rule}
    (h : BasesFirst (done ++ r :: later)) (hb : b ∈ done ++ r :: later)
    (hextends : r.base = some b.capability) : b ∈ done ∧ b.base = none := by
  have hplain : b.base = none := h.plain r (by simp) b hb hextends
  refine ⟨?_, hplain⟩
  have hbefore := h.before
  rw [List.pairwise_append, List.pairwise_cons] at hbefore
  rcases List.mem_append.mp hb with hb | hb
  · exact hb
  · rcases List.mem_cons.mp hb with rfl | hb
    · rw [hplain] at hextends
      cases hextends
    · exact absurd hextends (hbefore.2.1.1 b hb)

theorem applyRules_concat (done : List Rule) (r : Rule) (pushed : List Selector)
    (found : Capabilities) : applyRules (done ++ [r]) pushed found =
      if r.met pushed (applyRules done pushed found) then
        (applyRules done pushed found).insert r.capability
      else applyRules done pushed found := by
  rw [applyRules, List.foldl_append]
  rfl

/-- Trying rules one after the other finds what each of them says on its own: when a rule is
tried, its base has been found if it can be. -/
theorem contains_applyRules {order : List Rule} (h : BasesFirst order) (pushed : List Selector)
    (c : Capability) : (applyRules order pushed .empty).contains c = true ↔
      ∃ r ∈ order, r.capability = c ∧ r.Satisfied order (· ∈ pushed) := by
  suffices hprefix : ∀ done later, order = done ++ later → ∀ c,
      (applyRules done pushed .empty).contains c = true ↔
        ∃ r ∈ done, r.capability = c ∧ r.Satisfied order (· ∈ pushed) from
    hprefix order [] (List.append_nil order).symm c
  intro done
  induction done using List.reverseRecOn with
  | nil => simp [applyRules]
  | append_singleton done r ih =>
      intro later horder c
      rw [List.append_assoc, List.singleton_append] at horder
      subst horder
      have ih := ih (r :: later) rfl
      have hbase : ∀ base, r.base = some base →
          ((applyRules done pushed .empty).contains base = true ↔
            ∃ b ∈ done ++ r :: later, b.capability = base ∧ ∀ s ∈ b.selectors, s ∈ pushed) := by
        intro base hextends
        rw [ih base]
        constructor
        · rintro ⟨b, hb, hcapability, hsatisfied⟩
          exact ⟨b, List.mem_append_left _ hb, hcapability, hsatisfied.1⟩
        · rintro ⟨b, hb, rfl, hselectors⟩
          obtain ⟨hdone, hplain⟩ := h.of_extends hb hextends
          refine ⟨b, hdone, rfl, hselectors, fun base hbase => ?_⟩
          rw [hplain] at hbase
          cases hbase
      have hmet : r.met pushed (applyRules done pushed .empty) = true ↔
          r.Satisfied (done ++ r :: later) (· ∈ pushed) := by
        rw [met_iff, Rule.Satisfied, and_comm]
        exact and_congr_right fun _ => forall₂_congr hbase
      rw [applyRules_concat]
      simp only [List.mem_append, List.mem_singleton, or_and_right, exists_or, exists_eq_left]
      split
      · next hyes =>
        rw [Capabilities.contains_insert, Bool.or_eq_true, decide_eq_true_eq, ih c,
          and_iff_left (hmet.mp hyes)]
      · next hno =>
        rw [ih c, or_iff_left fun hyes => hno (hmet.mpr hyes.2)]

theorem proper_applyRules (order : List Rule) (pushed : List Selector) {found : Capabilities}
    (h : found.Proper) : (applyRules order pushed found).Proper := by
  induction order generalizing found with
  | nil => exact h
  | cons r later ih =>
      rw [applyRules, List.foldl_cons]
      apply ih
      split
      · exact h.insert _
      · exact h

theorem Rule.Satisfied.mono {order order' : List Rule} {has has' : Selector → Prop} {r : Rule}
    (h : r.Satisfied order has) (horder : ∀ b ∈ order, b ∈ order') (hhas : ∀ s, has s → has' s) :
    r.Satisfied order' has' := by
  obtain ⟨hselectors, hbase⟩ := h
  refine ⟨fun s hs => hhas s (hselectors s hs), fun base hextends => ?_⟩
  obtain ⟨b, hb, hcapability, hselectors⟩ := hbase base hextends
  exact ⟨b, horder b hb, hcapability, fun s hs => hhas s (hselectors s hs)⟩

theorem satisfied_congr {order order' : List Rule} {has has' : Selector → Prop} {r : Rule}
    (horder : ∀ b, b ∈ order ↔ b ∈ order') (hhas : ∀ s, has s ↔ has' s) :
    r.Satisfied order has ↔ r.Satisfied order' has' :=
  ⟨fun h => h.mono (fun b => (horder b).mp) fun s => (hhas s).mp,
    fun h => h.mono (fun b => (horder b).mpr) fun s => (hhas s).mpr⟩

theorem existsUnique_rule (c : Capability) : ∃! r, r ∈ rules ∧ r.capability = c := by
  have hnodup : (rules.map Rule.capability).Nodup := by decide
  have hmem : c ∈ rules.map Rule.capability := by cases c <;> decide
  obtain ⟨r, hr, rfl⟩ := List.mem_map.mp hmem
  refine ⟨r, ⟨hr, rfl⟩, ?_⟩
  rintro r' ⟨hr', hcapability⟩
  exact List.inj_on_of_nodup_map hnodup hr' hr hcapability

/-! ## Detection -/

theorem proper_detect (code : Bytes) : (detect code).Proper :=
  proper_applyRules rules _ Capabilities.proper_empty

/-- Any order of the rules with bases first finds the same. -/
theorem applyRules_eq_detect {order : List Rule} (hperm : order.Perm rules) (h : BasesFirst order)
    (code : Bytes) : applyRules order (pushedSelectors code) .empty = detect code := by
  refine (proper_applyRules order _ Capabilities.proper_empty).ext (proper_detect code) fun c => ?_
  rw [Bool.eq_iff_iff, contains_applyRules h]
  refine Iff.trans ?_ (contains_applyRules basesFirst_rules (pushedSelectors code) c).symm
  apply exists_congr
  intro r
  rw [hperm.mem_iff, satisfied_congr (fun b => hperm.mem_iff) fun s => Iff.rfl]

theorem contains_detect_iff (h : Decodes code instructions) {r : Rule} (hr : r ∈ rules) :
    (detect code).contains r.capability = true ↔ r.Satisfied rules (Offered instructions) := by
  refine (contains_applyRules basesFirst_rules (pushedSelectors code) _).trans ?_
  have hoffered : ∀ r : Rule, r.Satisfied rules (· ∈ pushedSelectors code) ↔
      r.Satisfied rules (Offered instructions) :=
    fun r => satisfied_congr (fun b => Iff.rfl) fun s => mem_pushedSelectors_iff h
  constructor
  · rintro ⟨r', hr', hcapability, hsatisfied⟩
    obtain rfl := (existsUnique_rule r.capability).unique ⟨hr', hcapability⟩ ⟨hr, rfl⟩
    exact (hoffered r').mp hsatisfied
  · intro hsatisfied
    exact ⟨r, hr, rfl, (hoffered r).mpr hsatisfied⟩

theorem detect_congr {other : Bytes} {others : List Instruction} (h : Decodes code instructions)
    (h' : Decodes other others) (hoffered : ∀ s, Offered others s ↔ Offered instructions s) :
    detect other = detect code := by
  refine (proper_detect other).ext (proper_detect code) fun c => ?_
  obtain ⟨r, ⟨hr, rfl⟩, _⟩ := existsUnique_rule c
  rw [Bool.eq_iff_iff, contains_detect_iff h hr, contains_detect_iff h' hr]
  exact satisfied_congr (fun b => Iff.rfl) hoffered

theorem Rule.Satisfied.contains_base {r : Rule} {base : Capability} (hextends : r.base = some base)
    (hr : r ∈ rules) (h : Decodes code instructions)
    (hsatisfied : r.Satisfied rules (Offered instructions)) :
    (detect code).contains base = true := by
  obtain ⟨b, hb, rfl, hselectors⟩ := hsatisfied.2 base hextends
  have hplain : b.base = none := basesFirst_rules.plain r hr b hb hextends
  refine (contains_detect_iff h hb).mpr ⟨hselectors, fun base hbase => ?_⟩
  rw [hplain] at hbase
  cases hbase

/-- Code is read as instructions in one way only, and each capability has one rule.  A capability
is found exactly if all selectors of its rule, and of its base's rule, are pushed by complete
instructions, however the rules are listed.  So an extension is never found without its base, a
push that is cut off offers nothing, codes that push the same selectors have the same capabilities
whatever else they hold, and the rules may be tried in any order in which bases come first. -/
theorem detect_satisfies_rules (code : Bytes) :
    ∃ instructions, Decodes code instructions ∧
      (∀ other, Decodes code other → other = instructions) ∧
      (∀ c, ∃! r, r ∈ rules ∧ r.capability = c) ∧
      (∀ order, order.Perm rules →
        (∀ r ∈ order, (detect code).contains r.capability = true ↔
          r.Satisfied order (Offered instructions)) ∧
        (BasesFirst order → applyRules order (pushedSelectors code) .empty = detect code)) ∧
      (∀ r ∈ rules, ∀ base, r.base = some base → (detect code).contains r.capability = true →
        (detect code).contains base = true) ∧
      (∀ i ∈ instructions, (∃ k, Pushes k i.op ∧ i.immediate.length < k) → ∀ s, ¬ i.Offers s) ∧
      ∀ other others, Decodes other others → (∀ s, Offered others s ↔ Offered instructions s) →
        detect other = detect code := by
  obtain ⟨instructions, hdecodes⟩ := exists_decodes code
  refine ⟨instructions, hdecodes, fun other hother => hdecodes.unique hother, existsUnique_rule, ?_,
    ?_, ?_, fun other others hother => detect_congr hdecodes hother⟩
  · intro order hperm
    refine ⟨fun r hr => ?_, fun hfirst => applyRules_eq_detect hperm hfirst code⟩
    rw [contains_detect_iff hdecodes (hperm.mem_iff.mp hr)]
    exact satisfied_congr (fun b => hperm.mem_iff.symm) fun s => Iff.rfl
  · intro r hr base hextends hfound
    exact ((contains_detect_iff hdecodes hr).mp hfound).contains_base hextends hr hdecodes
  · rintro i _ ⟨k, hpush, hcut⟩ s ⟨k', _, hpush', hlength, _⟩
    obtain rfl := hpush.unique hpush'
    exact Nat.ne_of_lt hcut hlength

end Capability

end ChainIngest
