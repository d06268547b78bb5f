import ChainIngest.Record.Codec
/-!
# Records that are read back

A record that was written is read back as it was, and what follows it stays.  Lengths
and counts take eight bytes, so this holds of whatever is short enough to be counted
with them.
-/

namespace ChainIngest.Record

namespace Layout

variable {α β : Type}

/-- What is written for a value is read as that value, whatever follows. -/
def Restores (l : Layout α) (a : α) : Prop :=
  ∀ rest, l.read (l.write a ++ rest) = some (a, rest)

/-! ## Numbers -/

theorem restores_uint16 (n : UInt16) : uint16.Restores n := by
  intro rest
  have hsmall : n.toNat % 256 ^ 2 = n.toNat := Nat.mod_eq_of_lt n.toNat_lt
  simp only [uint16, split?_append (Bytes.length_ofNatLE 2 n.toNat), Option.map_some,
    Bytes.toNatLE_ofNatLE, hsmall, UInt16.ofNat_toNat]

theorem restores_uint32 (n : UInt32) : uint32.Restores n := by
  intro rest
  have hsmall : n.toNat % 256 ^ 4 = n.toNat := Nat.mod_eq_of_lt n.toNat_lt
  simp only [uint32, split?_append (Bytes.length_ofNatLE 4 n.toNat), Option.map_some,
    Bytes.toNatLE_ofNatLE, hsmall, UInt32.ofNat_toNat]

theorem restores_count {n : Nat} (h : n < 2 ^ 64) : count.Restores n := by
  intro rest
  have hsmall : n % 256 ^ 8 = n := Nat.mod_eq_of_lt h
  simp only [count, split?_append (Bytes.length_ofNatLE 8 n), Option.map_some,
    Bytes.toNatLE_ofNatLE, hsmall]

/-! ## Byte strings -/

theorem restores_blob {b : Bytes} (h : b.length < 2 ^ 64) : blob.Restores b := by
  intro rest
  have hcount := restores_count h (b ++ rest)
  simp only [blob, List.append_assoc, hcount, Option.bind_eq_bind, Option.bind_some]
  exact split?_append rfl rest

theorem restores_fixed {width : Nat} {toBytes : α → Bytes} {ofBytes : Bytes → α} {a : α}
    (hwidth : width < 2 ^ 64) (hlength : (toBytes a).length = width)
    (hback : ofBytes (toBytes a) = a) : (fixed width toBytes ofBytes).Restores a := by
  intro rest
  have hblob := restores_blob (hlength ▸ hwidth) rest
  simp only [fixed, hblob, Option.bind_eq_bind, Option.bind_some, if_pos hlength, hback]
  rfl

theorem restores_hash (h : Hash) : hash.Restores h :=
  restores_fixed (by decide) h.length_toBytes h.ofBytes_toBytes

theorem restores_address (a : Address) : address.Restores a :=
  restores_fixed (by decide) a.length_toBytes a.ofBytes_toBytes

theorem restores_word (w : Word) : word.Restores w :=
  restores_fixed (by decide) (Word.length_toBytes w) (Word.ofBytes_toBytes w)

/-! ## Choices and sequences -/

theorem restores_choice [BEq α] [LawfulBEq α] {all : List α} {a : α} (hmem : a ∈ all)
    (hfew : all.length ≤ 2 ^ 32) : (choice all).Restores a := by
  intro rest
  have hplace : all.idxOf a < all.length := List.idxOf_lt_length_iff.mpr hmem
  have hsmall : (UInt32.ofNat (all.idxOf a)).toNat = all.idxOf a := by
    rw [UInt32.toNat_ofNat']
    omega
  have hfound : all[all.idxOf a]? = some a := by
    rw [List.getElem?_eq_getElem hplace, List.getElem_idxOf hplace]
  have hread := restores_uint32 (UInt32.ofNat (all.idxOf a)) rest
  simp only [choice, hread, hsmall, hfound, Option.bind_eq_bind, Option.bind_some]
  rfl

theorem restores_pair {first : Layout α} {second : Layout β} {ab : α × β}
    (h : first.Restores ab.1) (h' : second.Restores ab.2) : (first.pair second).Restores ab := by
  intro rest
  simp only [pair, List.append_assoc, h _, h' _, Option.bind_eq_bind, Option.bind_some]
  rfl

theorem restores_via {l : Layout α} {toBase : β → α} {ofBase : α → β} {b : β}
    (h : l.Restores (toBase b)) (hback : ofBase (toBase b) = b) :
    (l.via toBase ofBase).Restores b := by
  intro rest
  simp only [via, h _, Option.map_some, hback]

theorem readMany_flatMap {l : Layout α} {as : List α} (h : ∀ a ∈ as, l.Restores a)
    (rest : Bytes) : readMany l as.length (as.flatMap l.write ++ rest) = some (as, rest) := by
  induction as with
  | nil => rfl
  | cons a as ih =>
      obtain ⟨ha, has⟩ := List.forall_mem_cons.mp h
      simp only [List.length_cons, readMany, List.flatMap_cons, List.append_assoc, ha _, ih has,
        Option.bind_eq_bind, Option.bind_some]
      rfl

theorem restores_list {l : Layout α} {as : List α} (hlength : as.length < 2 ^ 64)
    (h : ∀ a ∈ as, l.Restores a) : l.list.Restores as := by
  intro rest
  have hcount := restores_count hlength (as.flatMap l.write ++ rest)
  simp only [list, List.append_assoc, hcount, Option.bind_eq_bind, Option.bind_some]
  exact readMany_flatMap h rest

/-! ## Rows -/

theorem restores_capabilities (c : Capabilities) : capabilities.Restores c :=
  restores_via (restores_uint16 _) rfl

theorem restores_contractType (t : ContractType) : contractType.Restores t :=
  restores_choice (by cases t <;> decide) (by decide)

theorem restores_rewardKind (k : RewardKind) : rewardKind.Restores k :=
  restores_choice (by cases k <;> decide) (by decide)

theorem restores_internal (t : InternalTransaction) : internal.Restores t :=
  restores_via (restores_pair (restores_hash _) (restores_pair (restores_uint32 _)
    (restores_pair (restores_address _) (restores_pair (restores_address _)
      (restores_word _))))) rfl

theorem restores_reward (r : Reward) : reward.Restores r :=
  restores_via (restores_pair (restores_hash _) (restores_pair (restores_hash _)
    (restores_pair (restores_address _) (restores_pair (restores_word _)
      (restores_rewardKind _))))) rfl

theorem restores_created {c : ContractCreated} (hcode : c.code.length < 2 ^ 64) :
    created.Restores c :=
  restores_via (restores_pair (restores_hash _) (restores_pair (restores_uint32 _)
    (restores_pair (restores_address _) (restores_pair (restores_address _)
      (restores_pair (restores_blob hcode) (restores_pair (restores_word _)
        (restores_pair (restores_capabilities _) (restores_contractType _)))))))) rfl

theorem restores_destroyed (d : ContractDestroyed) : destroyed.Restores d :=
  restores_via (restores_pair (restores_hash _) (restores_pair (restores_uint32 _)
    (restores_pair (restores_address _) (restores_pair (restores_address _)
      (restores_word _))))) rfl

end Layout

/-! ## Archives -/

structure Archive.Countable (a : Archive) : Prop where
  internal : a.internal.length < 2 ^ 64
  created : a.created.length < 2 ^ 64
  destroyed : a.destroyed.length < 2 ^ 64
  rewards : a.rewards.length < 2 ^ 64
  code : ∀ c ∈ a.created, c.code.length < 2 ^ 64

theorem Layout.restores_archive {a : Archive} (h : a.Countable) : Layout.archive.Restores a :=
  restores_via (restores_pair (restores_hash _)
    (restores_pair (restores_list h.internal fun t _ => restores_internal t)
      (restores_pair (restores_list h.created fun _ hc => restores_created (h.code _ hc))
        (restores_pair (restores_list h.destroyed fun d _ => restores_destroyed d)
          (restores_list h.rewards fun r _ => restores_reward r))))) rfl

theorem Format.decode_encode {α : Type} (f : Format α) {a : α} (h : f.layout.Restores a) :
    f.decode (f.encode a) = .ok a := by
  have hread := h []
  rw [List.append_nil] at hread
  simp [decode, encode, hread]

end ChainIngest.Record
