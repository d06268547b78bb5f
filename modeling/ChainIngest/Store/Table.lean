import ChainIngest.Word
/-!
# Tables

A table holds at most one row a key and lists its rows in key order.  Two tables
with the same rows are equal, so whole stores can be compared.  Keys are ordered
by a number of their own.
-/

namespace ChainIngest.Store

/-! ## Keys -/

/-- A type whose values are told apart and ordered by a number. -/
class Key (κ : Type) where
  rank : κ → Nat
  rank_inj : ∀ {a b : κ}, rank a = rank b → a = b

instance : Key Nat := ⟨id, fun h => h⟩

instance : Key Hash where
  rank h := h.word.toNat
  rank_inj := by
    intro a b h
    cases a
    cases b
    exact congrArg Hash.mk (BitVec.eq_of_toNat_eq h)

instance : Key Address where
  rank a := a.word.toNat
  rank_inj := by
    intro a b h
    cases a
    cases b
    exact congrArg Address.mk (BitVec.eq_of_toNat_eq h)

instance : Key (Hash × UInt32) where
  rank k := k.1.word.toNat * 2 ^ 32 + k.2.toNat
  rank_inj := by
    rintro ⟨⟨a⟩, i⟩ ⟨⟨b⟩, j⟩ h
    have hi := i.toNat_lt
    have hj := j.toNat_lt
    simp only at h
    have ha : a = b := BitVec.eq_of_toNat_eq (by omega)
    have hij : i = j := UInt32.toNat_inj.mp (by omega)
    rw [ha, hij]

instance : Key (Hash × Hash) where
  rank k := k.1.word.toNat * 2 ^ 256 + k.2.word.toNat
  rank_inj := by
    rintro ⟨⟨a⟩, ⟨i⟩⟩ ⟨⟨b⟩, ⟨j⟩⟩ h
    have hi := i.isLt
    have hj := j.isLt
    simp only at h
    have ha : a = b := BitVec.eq_of_toNat_eq (by omega)
    have hij : i = j := BitVec.eq_of_toNat_eq (by omega)
    rw [ha, hij]

instance : Key (Nat × Hash) where
  rank k := k.1 * 2 ^ 256 + k.2.word.toNat
  rank_inj := by
    rintro ⟨a, ⟨i⟩⟩ ⟨b, ⟨j⟩⟩ h
    have hi := i.isLt
    have hj := j.isLt
    simp only at h
    have ha : a = b := by omega
    have hij : i = j := BitVec.eq_of_toNat_eq (by omega)
    rw [ha, hij]

/-! ## Tables -/

variable {κ ν : Type} [Key κ]

abbrev Entries (κ ν : Type) := List (κ × ν)

namespace Entries

def Ordered (es : Entries κ ν) : Prop :=
  es.Pairwise fun a b => Key.rank a.1 < Key.rank b.1

def get? : Entries κ ν → κ → Option ν
  | [], _ => none
  | (k, v) :: rest, key =>
    if Key.rank k = Key.rank key then some v else get? rest key

/-- Writes the row of a key: `f` of the row that is there, or of none. -/
def alter : Entries κ ν → κ → (Option ν → ν) → Entries κ ν
  | [], key, f => [(key, f none)]
  | (k, v) :: rest, key, f =>
    if Key.rank key < Key.rank k then (key, f none) :: (k, v) :: rest
    else if Key.rank k = Key.rank key then (k, f (some v)) :: rest
    else (k, v) :: alter rest key f

theorem mem_alter_rank {es : Entries κ ν} {key : κ} {f : Option ν → ν} {e : κ × ν}
    (h : e ∈ es.alter key f) : Key.rank e.1 = Key.rank key ∨ ∃ e' ∈ es, e'.1 = e.1 := by
  induction es with
  | nil =>
    simp only [alter, List.mem_singleton] at h
    exact .inl (by rw [h])
  | cons x rest ih =>
    obtain ⟨k, v⟩ := x
    simp only [alter] at h
    split at h
    · rcases List.mem_cons.mp h with h | h
      · exact .inl (by rw [h])
      · exact .inr ⟨e, h, rfl⟩
    · split at h
      · next hk =>
        rcases List.mem_cons.mp h with h | h
        · exact .inl (by rw [h]; exact hk)
        · exact .inr ⟨e, List.mem_cons_of_mem _ h, rfl⟩
      · rcases List.mem_cons.mp h with h | h
        · exact .inr ⟨(k, v), List.mem_cons_self, by rw [h]⟩
        · rcases ih h with h | ⟨e', he', h⟩
          · exact .inl h
          · exact .inr ⟨e', List.mem_cons_of_mem _ he', h⟩

theorem ordered_alter {es : Entries κ ν} (h : es.Ordered) (key : κ) (f : Option ν → ν) :
    (es.alter key f).Ordered := by
  induction es with
  | nil => simp [alter, Ordered]
  | cons x rest ih =>
    obtain ⟨k, v⟩ := x
    have hhead := (List.pairwise_cons.mp h).1
    have htail := (List.pairwise_cons.mp h).2
    simp only [alter]
    split
    · next hlt =>
      refine List.pairwise_cons.mpr ⟨fun e he => ?_, h⟩
      rcases List.mem_cons.mp he with he | he
      · rw [he]; exact hlt
      · exact Nat.lt_trans hlt (hhead e he)
    · split
      · exact List.pairwise_cons.mpr ⟨hhead, htail⟩
      · next hlt hne =>
        refine List.pairwise_cons.mpr ⟨fun e he => ?_, ih htail⟩
        rcases mem_alter_rank he with hr | ⟨e', he', hr⟩
        · show Key.rank k < Key.rank e.1
          omega
        · rw [← hr]; exact hhead e' he'

theorem get?_alter {es : Entries κ ν} (h : es.Ordered) (key : κ) (f : Option ν → ν) (q : κ) :
    (es.alter key f).get? q =
      if Key.rank key = Key.rank q then some (f (es.get? key)) else es.get? q := by
  induction es with
  | nil => simp [alter, get?]
  | cons x rest ih =>
    obtain ⟨k, v⟩ := x
    have hhead := (List.pairwise_cons.mp h).1
    have htail := (List.pairwise_cons.mp h).2
    have absent : ∀ key' : κ, (∀ e ∈ rest, Key.rank key' < Key.rank e.1) →
        get? rest key' = none := by
      intro key' hall
      clear ih h hhead htail
      induction rest with
      | nil => rfl
      | cons y more ih' =>
        obtain ⟨k', v'⟩ := y
        have hy := hall (k', v') List.mem_cons_self
        simp only at hy
        simp only [get?]
        rw [if_neg (by omega)]
        exact ih' fun e he => hall e (List.mem_cons_of_mem _ he)
    simp only [alter]
    split
    · next hlt =>
      have hnone : get? rest key = none :=
        absent key fun e he => Nat.lt_trans hlt (hhead e he)
      have hne : Key.rank k ≠ Key.rank key := by omega
      simp only [get?, hne, if_false, hnone]
    · split
      · next hk => simp only [get?, hk, if_true]; split <;> rfl
      · next hlt hne =>
        simp only [get?, hne, if_false, ih htail]
        by_cases hq : Key.rank key = Key.rank q
        · have : Key.rank k ≠ Key.rank q := by omega
          simp [hq, this]
        · simp [hq]

end Entries

structure Table (κ ν : Type) [Key κ] where
  entries : Entries κ ν
  ordered : entries.Ordered

namespace Table

def empty : Table κ ν := ⟨[], List.Pairwise.nil⟩

instance : Inhabited (Table κ ν) := ⟨empty⟩

instance [DecidableEq κ] [DecidableEq ν] : DecidableEq (Table κ ν) := fun a b =>
  if h : a.entries = b.entries then
    .isTrue (by cases a; cases b; simp only at h; subst h; rfl)
  else .isFalse fun hab => h (by rw [hab])

def get? (t : Table κ ν) (key : κ) : Option ν := t.entries.get? key

def alter (t : Table κ ν) (key : κ) (f : Option ν → ν) : Table κ ν :=
  ⟨t.entries.alter key f, Entries.ordered_alter t.ordered key f⟩

def insert (t : Table κ ν) (key : κ) (row : ν) : Table κ ν := t.alter key fun _ => row

def insertNew (t : Table κ ν) (key : κ) (row : ν) : Table κ ν :=
  t.alter key fun old => old.getD row

def map (t : Table κ ν) (f : κ → ν → ν) : Table κ ν :=
  ⟨t.entries.map fun e => (e.1, f e.1 e.2), by
    have h := t.ordered
    unfold Entries.Ordered at h ⊢
    rw [List.pairwise_map]
    exact h⟩

def filterKeys (t : Table κ ν) (keep : κ → Bool) : Table κ ν :=
  ⟨t.entries.filter fun e => keep e.1, List.Pairwise.filter _ t.ordered⟩

def rows (t : Table κ ν) : List ν := t.entries.map Prod.snd

def size (t : Table κ ν) : Nat := t.entries.length

theorem get?_alter (t : Table κ ν) (key : κ) (f : Option ν → ν) (q : κ) :
    (t.alter key f).get? q =
      if Key.rank key = Key.rank q then some (f (t.get? key)) else t.get? q :=
  Entries.get?_alter t.ordered key f q

end Table

end ChainIngest.Store
