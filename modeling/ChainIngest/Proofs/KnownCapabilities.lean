import ChainIngest.Proofs.Detection
import ChainIngest.Proofs.PrefixCode
/-!
# Known and unknown capability bits

Thirteen of the sixteen bits of a capability set stand for something.  Sets that are
put together from capabilities have no other bit, but a record is read as it was
written: its sets have unknown bits exactly if the bytes have them.  Such bits make
a set another one, and keep it from being the empty one, but no capability and
nothing that is worked out from the capabilities depends on them.
-/

namespace ChainIngest

namespace Capabilities

/-! ## Sets without unknown bits -/

theorem getLsbD_mask (i : Nat) : mask.toBitVec.getLsbD i = decide (i < 13) := by
  have hmask : mask.toBitVec = BitVec.setWidth 16 (BitVec.allOnes 13) := by decide
  rw [hmask, BitVec.getLsbD_setWidth, BitVec.getLsbD_allOnes, ← Bool.decide_and]
  apply decide_eq_decide.mpr
  omega

theorem getLsbD_ofBits (bits : UInt16) (i : Nat) :
    (ofBits bits).bits.toBitVec.getLsbD i = (bits.toBitVec.getLsbD i && decide (i < 13)) := by
  rw [ofBits, UInt16.toBitVec_and, BitVec.getLsbD_and, getLsbD_mask]

theorem proper_ofBits (bits : UInt16) : (ofBits bits).Proper := by
  intro i hi
  rw [getLsbD_ofBits, Bool.and_eq_true, decide_eq_true_eq] at hi
  exact hi.2

theorem contains_ofBits (s : Capabilities) (c : Capability) :
    (ofBits s.bits).contains c = s.contains c := by
  rw [contains_eq_getLsbD, contains_eq_getLsbD, getLsbD_ofBits, decide_eq_true c.position_lt,
    Bool.and_true]

theorem eq_ofBits_iff {s : Capabilities} : s = ofBits s.bits ↔ s.Proper := by
  constructor
  · intro h
    rw [h]
    exact proper_ofBits s.bits
  · intro h
    exact h.ext (proper_ofBits s.bits) fun c => (contains_ofBits s c).symm

theorem proper_ofList (cs : List Capability) : (ofList cs).Proper := by
  induction cs using List.reverseRecOn with
  | nil => exact proper_empty
  | append_singleton cs c ih =>
      rw [ofList, List.foldl_append]
      exact ih.insert c

theorem contains_ofList {cs : List Capability} {c : Capability} :
    (ofList cs).contains c = true ↔ c ∈ cs := by
  induction cs using List.reverseRecOn with
  | nil => simp [ofList]
  | append_singleton cs d ih =>
      rw [ofList, List.foldl_append]
      change ((ofList cs).insert d).contains c = true ↔ _
      rw [contains_insert, Bool.or_eq_true, ih, decide_eq_true_eq, List.mem_append,
        List.mem_singleton, eq_comm]

theorem mem_toList {s : Capabilities} {c : Capability} : c ∈ s.toList ↔ s.contains c = true := by
  have hall : c ∈ Capability.all := by cases c <;> decide
  rw [toList, List.mem_filter, and_iff_right hall]

/-- The sets without unknown bits are those that capabilities are gathered in. -/
theorem proper_iff_ofList {s : Capabilities} : s.Proper ↔ ∃ cs, s = ofList cs := by
  constructor
  · intro h
    refine ⟨s.toList, h.ext (proper_ofList _) fun c => ?_⟩
    rw [Bool.eq_iff_iff, contains_ofList, mem_toList]
  · rintro ⟨cs, rfl⟩
    exact proper_ofList cs

structure Alike (s t : Capabilities) : Prop where
  toList : s.toList = t.toList
  contractType : s.contractType = t.contractType
  isNonFungible : s.isNonFungible = t.isNonFungible
  text : s.text = t.text

theorem alike_of_contains {s t : Capabilities} (h : ∀ c, s.contains c = t.contains c) :
    s.Alike t := by
  have hlist : s.toList = t.toList := by rw [toList, toList, funext h]
  exact ⟨hlist, by simp only [contractType, h], by simp only [isNonFungible, h], by
    rw [text, text, hlist]⟩

end Capabilities

namespace Record.RecordType

open Capabilities (eq_ofBits_iff proper_iff_ofList alike_of_contains contains_ofBits)

/-! ## Sets in records -/

def sets : (type : RecordType) → type.Value → List Capabilities
  | capabilities, s => [s]
  | created, c => [c.capabilities]
  | archive, a => a.created.map ContractCreated.capabilities
  | internal, _ | reward, _ | destroyed, _ => []

theorem decode_encode_full :
    archive.format.decode (archive.format.encode fullArchive) = .ok fullArchive :=
  Format.decode_encode _ (archive.restores _ (by constructor <;> decide))

/-- Records are read with their unknown bits. -/
theorem not_known_of_decode :
    (∃ s, capabilities.format.decode [0x03, 0x00, 0x20] = .ok s ∧ s ≠ .ofBits s.bits) ∧
      ∃ b a, archive.format.decode b = .ok a ∧ ∃ s ∈ archive.sets a, s ≠ .ofBits s.bits := by
  refine ⟨⟨⟨0x2000⟩, by rfl, by decide⟩, _, _, decode_encode_full, ?_⟩
  exact ⟨⟨0xffff⟩, List.mem_singleton_self _, by decide⟩

/-- All sets of a record that was read are without unknown bits exactly if the bytes begin with a
record whose sets are put together from capabilities.  Whatever bits they have, the same is worked
out from them as if unknown bits had been dropped. -/
theorem known_of_decode_iff (type : RecordType) {b : Bytes} {a : type.Value}
    (h : type.format.decode b = .ok a) :
    ((∀ s ∈ type.sets a, s = .ofBits s.bits) ↔
      ∃ a', type.Fits a' ∧ type.format.encode a' <+: b ∧
        ∀ s ∈ type.sets a', ∃ cs, s = .ofList cs) ∧
    ∀ s ∈ type.sets a, s.Alike (.ofBits s.bits) := by
  have hiff := fun a => Format.decode_eq_ok_iff type.restores type.canonical (b := b) (a := a)
  refine ⟨⟨fun hknown => ?_, ?_⟩, fun s _ => alike_of_contains fun c => (contains_ofBits s c).symm⟩
  · obtain ⟨hfits, hbegins⟩ := (hiff a).mp h
    exact ⟨a, hfits, hbegins, fun s hs => proper_iff_ofList.mp (eq_ofBits_iff.mp (hknown s hs))⟩
  · rintro ⟨a', hfits, hbegins, hsets⟩ s hs
    have hread := (hiff a').mpr ⟨hfits, hbegins⟩
    obtain rfl := Except.ok.inj (hread.symm.trans h)
    exact eq_ofBits_iff.mpr (proper_iff_ofList.mpr (hsets s hs))

theorem known_of_decode_iff_full :
    (∀ s ∈ capabilities.sets ⟨0x88⟩, s = .ofBits s.bits) ∧
      (¬ ∃ a, archive.Fits a ∧ archive.format.encode a <+: archive.format.encode fullArchive ∧
        ∀ s ∈ archive.sets a, ∃ cs, s = .ofList cs) ∧
      (⟨0xffff⟩ : Capabilities).Alike (.ofBits 0xffff) := by
  have hread : capabilities.format.decode [0x03, 0x88, 0x00, 0x07] = .ok ⟨0x88⟩ := by rfl
  obtain ⟨hknown, _⟩ := known_of_decode_iff capabilities hread
  obtain ⟨hunknown, halike⟩ := known_of_decode_iff archive decode_encode_full
  refine ⟨hknown.mpr ⟨⟨0x88⟩, trivial, by decide, fun s hs => ⟨[.erc165, .erc20], ?_⟩⟩, ?_, ?_⟩
  · obtain rfl := List.mem_singleton.mp hs
    decide
  · intro hlisted
    exact absurd (hunknown.mpr hlisted ⟨0xffff⟩ (List.mem_singleton_self _)) (by decide)
  · exact halike ⟨0xffff⟩ (List.mem_singleton_self _)

end Record.RecordType

end ChainIngest
