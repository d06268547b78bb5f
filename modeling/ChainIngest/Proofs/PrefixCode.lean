import ChainIngest.Proofs.RecordLayout
/-!
# Records as a prefix code

A byte string is read as a record exactly when it begins with what is written for that
record.  Nothing but written records can be read, so a record has one written form, no
part of it is taken for a whole, and the tag keeps the types apart.
-/

namespace ChainIngest.Record

namespace Layout

variable {α β : Type} {P : α → Prop} {Q : β → Prop}

/-- Only values that fit can be read, and only from what is written for them. -/
def Canonical (l : Layout α) (fits : α → Prop) : Prop :=
  ∀ b a rest, l.read b = some (a, rest) → fits a ∧ b = l.write a ++ rest

/-! ## Numbers -/

theorem ofNatLE_of_split? {width : Nat} {b front rest : Bytes}
    (h : split? width b = some (front, rest)) : b = Bytes.ofNatLE width front.toNatLE ++ rest := by
  obtain ⟨rfl, rfl⟩ := eq_append_of_split? h
  rw [Bytes.ofNatLE_toNatLE]

theorem toNatLE_of_split? {width : Nat} {b front rest : Bytes}
    (h : split? width b = some (front, rest)) : front.toNatLE < 256 ^ width := by
  obtain ⟨_, rfl⟩ := eq_append_of_split? h
  exact Bytes.toNatLE_lt front

theorem canonical_uint16 : uint16.Canonical fun _ => True := by
  intro b n rest h
  obtain ⟨⟨front, rest⟩, hsplit, heq⟩ := Option.map_eq_some_iff.mp h
  cases heq
  refine ⟨trivial, ?_⟩
  change b = Bytes.ofNatLE 2 (UInt16.ofNat front.toNatLE).toNat ++ rest
  rw [UInt16.toNat_ofNat_of_lt' (toNatLE_of_split? hsplit)]
  exact ofNatLE_of_split? hsplit

theorem canonical_uint32 : uint32.Canonical fun _ => True := by
  intro b n rest h
  obtain ⟨⟨front, rest⟩, hsplit, heq⟩ := Option.map_eq_some_iff.mp h
  cases heq
  refine ⟨trivial, ?_⟩
  change b = Bytes.ofNatLE 4 (UInt32.ofNat front.toNatLE).toNat ++ rest
  rw [UInt32.toNat_ofNat_of_lt' (toNatLE_of_split? hsplit)]
  exact ofNatLE_of_split? hsplit

theorem canonical_count : count.Canonical fun n => n < 2 ^ 64 := by
  intro b n rest h
  obtain ⟨⟨front, rest⟩, hsplit, heq⟩ := Option.map_eq_some_iff.mp h
  cases heq
  exact ⟨toNatLE_of_split? hsplit, ofNatLE_of_split? hsplit⟩

/-! ## Byte strings -/

theorem canonical_blob : blob.Canonical fun b => b.length < 2 ^ 64 := by
  intro b content rest h
  obtain ⟨⟨n, later⟩, hcount, hsplit⟩ := Option.bind_eq_some_iff.mp h
  obtain ⟨hsmall, rfl⟩ := canonical_count _ _ _ hcount
  obtain ⟨rfl, rfl⟩ := eq_append_of_split? hsplit
  exact ⟨hsmall, by rw [blob, List.append_assoc]⟩

theorem canonical_fixed {width : Nat} {toBytes : α → Bytes} {ofBytes : Bytes → α}
    (hback : ∀ {content : Bytes}, content.length = width → toBytes (ofBytes content) = content) :
    (fixed width toBytes ofBytes).Canonical fun _ => True := by
  intro b a rest h
  obtain ⟨⟨content, later⟩, hblob, hwidth⟩ := Option.bind_eq_some_iff.mp h
  dsimp only at hwidth
  split at hwidth
  · next hlength =>
    cases hwidth
    refine ⟨trivial, ?_⟩
    change b = blob.write (toBytes (ofBytes content)) ++ rest
    rw [hback hlength]
    exact (canonical_blob _ _ _ hblob).2
  · cases hwidth

theorem canonical_hash : hash.Canonical fun _ => True :=
  canonical_fixed Hash.toBytes_ofBytes

theorem canonical_address : address.Canonical fun _ => True :=
  canonical_fixed Address.toBytes_ofBytes

theorem canonical_word : word.Canonical fun _ => True :=
  canonical_fixed Word.toBytes_ofBytes

/-! ## Choices and sequences -/

theorem canonical_choice [BEq α] [LawfulBEq α] {all : List α} (hdistinct : all.Nodup) :
    (choice all).Canonical fun _ => True := by
  intro b a rest h
  obtain ⟨⟨place, later⟩, hplace, h⟩ := Option.bind_eq_some_iff.mp h
  obtain ⟨found, hfound, heq⟩ := Option.bind_eq_some_iff.mp h
  cases heq
  obtain ⟨hlength, rfl⟩ := List.getElem?_eq_some_iff.mp hfound
  refine ⟨trivial, ?_⟩
  change b = uint32.write (UInt32.ofNat (all.idxOf all[place.toNat])) ++ rest
  rw [hdistinct.idxOf_getElem _ hlength, UInt32.ofNat_toNat]
  exact (canonical_uint32 _ _ _ hplace).2

theorem canonical_pair {first : Layout α} {second : Layout β} (h : first.Canonical P)
    (h' : second.Canonical Q) : (first.pair second).Canonical fun ab => P ab.1 ∧ Q ab.2 := by
  intro b ab rest hread
  obtain ⟨⟨x, middle⟩, hfirst, hread⟩ := Option.bind_eq_some_iff.mp hread
  obtain ⟨⟨y, last⟩, hsecond, heq⟩ := Option.bind_eq_some_iff.mp hread
  cases heq
  obtain ⟨hx, rfl⟩ := h _ _ _ hfirst
  obtain ⟨hy, rfl⟩ := h' _ _ _ hsecond
  exact ⟨⟨hx, hy⟩, by rw [pair, List.append_assoc]⟩

theorem canonical_via {l : Layout α} {toBase : β → α} {ofBase : α → β} (h : l.Canonical P)
    (hback : ∀ a, toBase (ofBase a) = a) (hfits : ∀ a, P a → Q (ofBase a)) :
    (l.via toBase ofBase).Canonical Q := by
  intro bytes b rest hread
  obtain ⟨⟨a, later⟩, hbase, heq⟩ := Option.map_eq_some_iff.mp hread
  cases heq
  obtain ⟨ha, rfl⟩ := h _ _ _ hbase
  refine ⟨hfits a ha, ?_⟩
  change l.write a ++ rest = l.write (toBase (ofBase a)) ++ rest
  rw [hback]

theorem canonical_readMany {l : Layout α} (h : l.Canonical P) {n : Nat} {b rest : Bytes}
    {as : List α} (hread : readMany l n b = some (as, rest)) :
    as.length = n ∧ (∀ a ∈ as, P a) ∧ b = as.flatMap l.write ++ rest := by
  induction n generalizing b as with
  | zero =>
      cases hread
      exact ⟨rfl, by simp, rfl⟩
  | succ n ih =>
      obtain ⟨⟨a, middle⟩, ha, hread⟩ := Option.bind_eq_some_iff.mp hread
      obtain ⟨⟨others, last⟩, hothers, heq⟩ := Option.bind_eq_some_iff.mp hread
      cases heq
      obtain ⟨hfits, rfl⟩ := h _ _ _ ha
      obtain ⟨rfl, hall, rfl⟩ := ih hothers
      exact ⟨rfl, List.forall_mem_cons.mpr ⟨hfits, hall⟩, by
        rw [List.flatMap_cons, List.append_assoc]⟩

theorem canonical_list {l : Layout α} (h : l.Canonical P) :
    l.list.Canonical fun as => as.length < 2 ^ 64 ∧ ∀ a ∈ as, P a := by
  intro b as rest hread
  obtain ⟨⟨n, later⟩, hcount, hmany⟩ := Option.bind_eq_some_iff.mp hread
  obtain ⟨hsmall, rfl⟩ := canonical_count _ _ _ hcount
  obtain ⟨rfl, hall, rfl⟩ := canonical_readMany h hmany
  exact ⟨⟨hsmall, hall⟩, by rw [list, List.append_assoc]⟩

/-! ## Rows -/

theorem canonical_capabilities : capabilities.Canonical fun _ => True :=
  canonical_via canonical_uint16 (fun _ => rfl) fun _ _ => trivial

theorem canonical_contractType : contractType.Canonical fun _ => True :=
  canonical_choice (by decide)

theorem canonical_rewardKind : rewardKind.Canonical fun _ => True :=
  canonical_choice (by decide)

theorem canonical_internal : internal.Canonical fun _ => True :=
  canonical_via (canonical_pair canonical_hash (canonical_pair canonical_uint32
    (canonical_pair canonical_address (canonical_pair canonical_address canonical_word))))
    (fun _ => rfl) fun _ _ => trivial

theorem canonical_reward : reward.Canonical fun _ => True :=
  canonical_via (canonical_pair canonical_hash (canonical_pair canonical_hash
    (canonical_pair canonical_address (canonical_pair canonical_word canonical_rewardKind))))
    (fun _ => rfl) fun _ _ => trivial

theorem canonical_created : created.Canonical fun c => c.code.length < 2 ^ 64 :=
  canonical_via (canonical_pair canonical_hash (canonical_pair canonical_uint32
    (canonical_pair canonical_address (canonical_pair canonical_address
      (canonical_pair canonical_blob (canonical_pair canonical_word
        (canonical_pair canonical_capabilities canonical_contractType)))))))
    (fun _ => rfl) fun _ ⟨_, _, _, _, hcode, _⟩ => hcode

theorem canonical_destroyed : destroyed.Canonical fun _ => True :=
  canonical_via (canonical_pair canonical_hash (canonical_pair canonical_uint32
    (canonical_pair canonical_address (canonical_pair canonical_address canonical_word))))
    (fun _ => rfl) fun _ _ => trivial

theorem canonical_archive : archive.Canonical Archive.Countable :=
  canonical_via (canonical_pair canonical_hash (canonical_pair (canonical_list canonical_internal)
    (canonical_pair (canonical_list canonical_created)
      (canonical_pair (canonical_list canonical_destroyed) (canonical_list canonical_reward)))))
    (fun _ => rfl) fun _ ⟨_, hinternal, hcreated, hdestroyed, hrewards⟩ =>
      ⟨hinternal.1, hcreated.1, hdestroyed.1, hrewards.1, hcreated.2⟩

end Layout

/-! ## Record types -/

/-- A record is decoded just from the strings that begin with its encoding. -/
theorem Format.decode_eq_ok_iff {α : Type} {f : Format α} {fits : α → Prop}
    (hrestores : ∀ a, fits a → f.layout.Restores a) (hcanonical : f.layout.Canonical fits)
    {b : Bytes} {a : α} : f.decode b = .ok a ↔ fits a ∧ f.encode a <+: b := by
  constructor
  · intro h
    unfold decode at h
    split at h
    · cases h
    · next tag body =>
      split at h
      · cases h
      · next htag =>
        split at h
        · next found rest hread =>
          cases h
          obtain ⟨hfits, rfl⟩ := hcanonical _ _ _ hread
          refine ⟨hfits, rest, ?_⟩
          rw [encode, Decidable.not_not.mp htag, List.cons_append]
        · cases h
  · rintro ⟨hfits, rest, rfl⟩
    simp [encode, decode, hrestores a hfits rest]

theorem Format.decode_part {α : Type} {f : Format α} {fits : α → Prop}
    (hrestores : ∀ a, fits a → f.layout.Restores a) (hcanonical : f.layout.Canonical fits)
    {part : Bytes} {a : α} (hfits : fits a) (hpart : part <+: f.encode a)
    (hproper : part ≠ f.encode a) : ∃ e, f.decode part = .error e := by
  cases hdecode : f.decode part with
  | error e => exact ⟨e, rfl⟩
  | ok other =>
      exfalso
      have hiff := fun b a => decode_eq_ok_iff hrestores hcanonical (b := b) (a := a)
      obtain ⟨hother, hbegins⟩ := (hiff part other).mp hdecode
      have hwhole := (hiff (f.encode a) other).mpr ⟨hother, hbegins.trans hpart⟩
      rw [(hiff (f.encode a) a).mpr ⟨hfits, List.prefix_rfl⟩] at hwhole
      cases hwhole
      exact hproper (hpart.eq_of_length_le hbegins.length_le)

inductive RecordType where
  | internal
  | reward
  | capabilities
  | created
  | destroyed
  | archive
deriving DecidableEq, Inhabited

namespace RecordType

abbrev Value : RecordType → Type
  | internal => InternalTransaction
  | reward => Reward
  | capabilities => Capabilities
  | created => ContractCreated
  | destroyed => ContractDestroyed
  | archive => Archive

def format : (type : RecordType) → Format type.Value
  | internal => internalFormat
  | reward => rewardFormat
  | capabilities => capabilitiesFormat
  | created => createdFormat
  | destroyed => destroyedFormat
  | archive => archiveFormat

/-- A record whose codes and lists can be counted in eight bytes, as all can that fit a memory
of so many addresses. -/
def Fits : (type : RecordType) → type.Value → Prop
  | created, c => c.code.length < 2 ^ 64
  | archive, a => a.Countable
  | internal, _ | reward, _ | capabilities, _ | destroyed, _ => True

theorem restores (type : RecordType) (a : type.Value) (h : type.Fits a) :
    type.format.layout.Restores a := by
  cases type with
  | internal => exact Layout.restores_internal a
  | reward => exact Layout.restores_reward a
  | capabilities => exact Layout.restores_capabilities a
  | created => exact Layout.restores_created h
  | destroyed => exact Layout.restores_destroyed a
  | archive => exact Layout.restores_archive h

theorem canonical (type : RecordType) : type.format.layout.Canonical type.Fits := by
  cases type with
  | internal => exact Layout.canonical_internal
  | reward => exact Layout.canonical_reward
  | capabilities => exact Layout.canonical_capabilities
  | created => exact Layout.canonical_created
  | destroyed => exact Layout.canonical_destroyed
  | archive => exact Layout.canonical_archive

theorem tag_injective : Function.Injective fun type : RecordType => type.format.tag := by
  intro type other heq
  cases type <;> cases other <;> first | rfl | exact absurd heq (by decide)

/-- A record of any type is decoded just from the strings that begin with its encoding: not from
a part of it, and a record of another type is known by its tag. -/
theorem decode_eq_ok_iff_prefix (type : RecordType) (a : type.Value) :
    (∀ b, type.format.decode b = .ok a ↔ type.Fits a ∧ type.format.encode a <+: b) ∧
    (type.Fits a → ∀ part, part <+: type.format.encode a → part ≠ type.format.encode a →
      ∃ e, type.format.decode part = .error e) ∧
    ∀ other ≠ type, other.format.decode (type.format.encode a) =
      .error (.unexpectedTag type.format.tag other.format.tag other.format.name) := by
  refine ⟨fun b => Format.decode_eq_ok_iff type.restores type.canonical, ?_, ?_⟩
  · intro hfits part hpart hproper
    exact Format.decode_part type.restores type.canonical hfits hpart hproper
  · intro other hother
    have htag : type.format.tag ≠ other.format.tag := fun heq => hother (tag_injective heq.symm)
    rw [Format.encode, Format.decode, if_pos htag]

/-- An archive with a row of each type, one of them with code and with every bit of a capability
set. -/
def fullArchive : Archive where
  blockHash := ⟨9⟩
  internal := [⟨⟨7⟩, 3, ⟨1⟩, ⟨2⟩, 10⟩]
  created := [⟨⟨7⟩, 0, ⟨1⟩, ⟨3⟩, [0x60, 0x80], 0, ⟨0xffff⟩, .erc20⟩]
  destroyed := [⟨⟨7⟩, 5, ⟨3⟩, ⟨1⟩, BitVec.allOnes 256⟩]
  rewards := [⟨⟨9⟩, ⟨9⟩, ⟨4⟩, 2, .block⟩, ⟨⟨9⟩, ⟨8⟩, ⟨5⟩, 1, .ommer⟩]

theorem decode_eq_ok_iff_prefix_full :
    archive.Fits fullArchive ∧
      archive.format.decode (archive.format.encode fullArchive ++ [1, 2]) = .ok fullArchive ∧
      (∃ e, archive.format.decode (archive.format.encode fullArchive).dropLast = .error e) ∧
      created.format.decode (archive.format.encode fullArchive) =
        .error (.unexpectedTag 0x10 0x04 "ContractCreated") := by
  have hfits : fullArchive.Countable := by
    constructor <;> decide
  obtain ⟨hiff, hpart, hother⟩ := decode_eq_ok_iff_prefix archive fullArchive
  have hproper : (archive.format.encode fullArchive).dropLast ≠
      archive.format.encode fullArchive := by decide +kernel
  exact ⟨hfits, (hiff _).mpr ⟨hfits, List.prefix_append _ _⟩,
    hpart hfits _ (List.dropLast_prefix _) hproper, hother created (by decide)⟩

end RecordType

end ChainIngest.Record
