import ChainIngest.Proofs.LogRows
/-!
# Fields of event data

Event data holds a number in its head word, and a byte string or a list of words
right behind the length word that its head word points at, wherever that is.
Reading a field finds exactly what the data holds there, so a log is decoded to
an event exactly if its topics name the event's indexed fields and its data holds
the others.
-/

namespace ChainIngest

namespace Abi

/-! ## Pieces of data -/

/-- The piece stands in the data, `offset` bytes from its start. -/
def Lies (data : Bytes) (offset : Nat) (piece : Bytes) : Prop :=
  ∃ front rest, data = front ++ piece ++ rest ∧ front.length = offset

variable {data piece : Bytes} {offset : Nat}

theorem lies_iff : Lies data offset piece ↔
    offset + piece.length ≤ data.length ∧ (data.drop offset).take piece.length = piece := by
  constructor
  · rintro ⟨front, rest, rfl, rfl⟩
    exact ⟨by simp, by simp⟩
  · rintro ⟨hlength, hpiece⟩
    refine ⟨data.take offset, data.drop (offset + piece.length), ?_, by simp; omega⟩
    calc data = data.take offset ++ data.drop offset := (List.take_append_drop ..).symm
      _ = data.take offset ++ (piece ++ (data.drop offset).drop piece.length) := by
          conv_lhs => rw [← List.take_append_drop piece.length (data.drop offset), hpiece]
      _ = data.take offset ++ piece ++ data.drop (offset + piece.length) := by
          rw [List.drop_drop, List.append_assoc]

theorem Lies.le (h : Lies data offset piece) : offset + piece.length ≤ data.length :=
  (lies_iff.mp h).1

theorem lies_append_iff {next : Bytes} : Lies data offset (piece ++ next) ↔
    Lies data offset piece ∧ Lies data (offset + piece.length) next := by
  constructor
  · rintro ⟨front, rest, rfl, rfl⟩
    exact ⟨⟨front, next ++ rest, by simp, rfl⟩, ⟨front ++ piece, rest, by simp, by simp⟩⟩
  · rintro ⟨⟨front, rest, rfl, rfl⟩, hnext⟩
    obtain ⟨hlength, hnext⟩ := lies_iff.mp hnext
    rw [List.append_assoc, ← List.append_assoc, List.drop_left' (by simp)] at hnext
    refine ⟨front, rest.drop next.length, ?_, rfl⟩
    conv_lhs => rw [← List.take_append_drop next.length rest, hnext]
    simp

theorem Lies.extend {whole : Bytes} (h : Lies data offset piece) (hbegins : data <+: whole) :
    Lies whole offset piece := by
  obtain ⟨front, rest, rfl, hfront⟩ := h
  obtain ⟨more, rfl⟩ := hbegins
  exact ⟨front, rest ++ more, by simp, hfront⟩

/-! ## Words and slices -/

theorem word?_eq_some_iff {w : Word} : word? data offset = some w ↔
    Lies data offset w.toBytes := by
  rw [lies_iff, Word.length_toBytes, word?]
  constructor
  · intro h
    split at h
    · next hlength =>
      cases h
      refine ⟨?_, (Word.toBytes_ofBytes hlength).symm⟩
      simp at hlength
      omega
    · cases h
  · rintro ⟨hlength, hbytes⟩
    rw [hbytes, if_pos (Word.length_toBytes w), Word.ofBytes_toBytes]

theorem word?_eq_none_iff : word? data offset = none ↔ data.length < offset + 32 := by
  simp only [word?, ite_eq_right_iff, reduceCtorEq, imp_false, List.length_take, List.length_drop]
  omega

theorem Lies.word_unique {v w : Word} (hv : Lies data offset v.toBytes)
    (hw : Lies data offset w.toBytes) : v = w :=
  Option.some.inj ((word?_eq_some_iff.mpr hv).symm.trans (word?_eq_some_iff.mpr hw))

theorem slice?_eq_some_iff {count : Nat} : slice? data offset count = some piece ↔
    piece.length = count ∧ Lies data offset piece := by
  rw [lies_iff, slice?]
  constructor
  · intro h
    split at h
    · next hlength =>
      cases h
      refine ⟨by simp; omega, by simp; omega, by simp⟩
    · cases h
  · rintro ⟨rfl, hlength, hpiece⟩
    rw [if_pos hlength, hpiece]

theorem slice?_eq_none_iff {count : Nat} : slice? data offset count = none ↔
    data.length < offset + count := by
  simp [slice?]

theorem wordsOf_flatMap (ws : List Word) : wordsOf ws.length (ws.flatMap Word.toBytes) = ws := by
  induction ws with
  | nil => rfl
  | cons w ws ih =>
      rw [List.length_cons, List.flatMap_cons, wordsOf, List.take_left' (Word.length_toBytes w),
        List.drop_left' (Word.length_toBytes w), Word.ofBytes_toBytes, ih]

theorem flatMap_wordsOf {count : Nat} (h : data.length = 32 * count) :
    (wordsOf count data).flatMap Word.toBytes = data := by
  induction count generalizing data with
  | zero => rw [List.eq_nil_of_length_eq_zero (h.trans (Nat.mul_zero 32))]; rfl
  | succ count ih =>
      rw [wordsOf, List.flatMap_cons, Word.toBytes_ofBytes (by simp; omega),
        ih (by simp; omega), List.take_append_drop]

theorem length_flatMap_toBytes (ws : List Word) :
    (ws.flatMap Word.toBytes).length = 32 * ws.length := by
  induction ws with
  | nil => rfl
  | cons w ws ih => simp [ih]; omega

/-! ## Fields -/

inductive Kind where
  | word
  | bytes
  | words
deriving DecidableEq

inductive Value where
  | word (w : Word)
  | bytes (b : Bytes)
  | words (ws : List Word)
deriving DecidableEq

namespace Value

def kind : Value → Kind
  | .word _ => .word
  | .bytes _ => .bytes
  | .words _ => .words

def count : Value → Nat
  | .word _ => 0
  | .bytes b => b.length
  | .words ws => ws.length

def content : Value → Bytes
  | .word _ => []
  | .bytes b => b
  | .words ws => ws.flatMap Word.toBytes

variable {v : Value}

theorem kind_eq_word_iff : v.kind = .word ↔ ∃ w, v = .word w := by
  cases v <;> simp [kind]

theorem kind_eq_bytes_iff : v.kind = .bytes ↔ ∃ b, v = .bytes b := by
  cases v <;> simp [kind]

theorem kind_eq_words_iff : v.kind = .words ↔ ∃ ws, v = .words ws := by
  cases v <;> simp [kind]

end Value

/-- The data holds the field in its head word, or behind the length word that its head word points
at. -/
inductive Holds (data : Bytes) (place : Nat) : Value → Prop where
  | word {w : Word} : Lies data (32 * place) w.toBytes → Holds data place (.word w)
  | tail {v : Value} {offset length : Word} : v.kind ≠ .word →
      Lies data (32 * place) offset.toBytes → length.toNat = v.count →
      Lies data offset.toNat (length.toBytes ++ v.content) → Holds data place v

def value? (data : Bytes) (place : Nat) : Kind → Option Value
  | .word => (head? data place).map .word
  | .bytes => (bytes? data place).map .bytes
  | .words => (words? data place).map .words

/-- Reads fields whose head words are in a row. -/
def values? (data : Bytes) : (place : Nat) → List Kind → Option (List Value)
  | _, [] => some []
  | place, kind :: kinds => do
    let v ← value? data place kind
    let vs ← values? data (place + 1) kinds
    return v :: vs

variable {place : Nat}

theorem Holds.extend {whole : Bytes} {v : Value} (h : Holds data place v)
    (hbegins : data <+: whole) : Holds whole place v := by
  cases h with
  | word hw => exact .word (hw.extend hbegins)
  | tail hkind hoffset hlength htail =>
      exact .tail hkind (hoffset.extend hbegins) hlength (htail.extend hbegins)

theorem head?_eq_some_iff {w : Word} : head? data place = some w ↔
    Lies data (32 * place) w.toBytes :=
  word?_eq_some_iff

theorem tail?_eq_some_iff {o n : Nat} : tail? data place = some (o, n) ↔
    ∃ offset length : Word, offset.toNat = o ∧ length.toNat = n ∧
      Lies data (32 * place) offset.toBytes ∧ Lies data o length.toBytes := by
  simp only [tail?, Option.bind_eq_bind, Option.bind_eq_some_iff, Option.pure_def,
    Option.some.injEq, Prod.mk.injEq, head?_eq_some_iff, word?_eq_some_iff]
  constructor
  · rintro ⟨offset, hoffset, length, hlength, rfl, rfl⟩
    exact ⟨offset, length, rfl, rfl, hoffset, hlength⟩
  · rintro ⟨offset, length, rfl, rfl, hoffset, hlength⟩
    exact ⟨offset, hoffset, length, hlength, rfl, rfl⟩

theorem bytes?_eq_some_iff {b : Bytes} : bytes? data place = some b ↔
    ∃ offset length : Word, Lies data (32 * place) offset.toBytes ∧ length.toNat = b.length ∧
      Lies data offset.toNat (length.toBytes ++ b) := by
  simp only [bytes?, Option.bind_eq_bind, Option.bind_eq_some_iff, Prod.exists, tail?_eq_some_iff,
    slice?_eq_some_iff, lies_append_iff, Word.length_toBytes]
  constructor
  · rintro ⟨_, _, ⟨offset, length, rfl, rfl, hoffset, hlength⟩, hcount, hb⟩
    exact ⟨offset, length, hoffset, hcount.symm, hlength, hb⟩
  · rintro ⟨offset, length, hoffset, hcount, hlength, hb⟩
    exact ⟨_, _, ⟨offset, length, rfl, rfl, hoffset, hlength⟩, hcount.symm, hb⟩

theorem words?_eq_some_iff {ws : List Word} : words? data place = some ws ↔
    ∃ offset length : Word, Lies data (32 * place) offset.toBytes ∧ length.toNat = ws.length ∧
      Lies data offset.toNat (length.toBytes ++ ws.flatMap Word.toBytes) := by
  simp only [words?, Option.bind_eq_bind, Option.bind_eq_some_iff, Prod.exists, tail?_eq_some_iff,
    slice?_eq_some_iff, lies_append_iff, Word.length_toBytes, Option.pure_def, Option.some.injEq]
  constructor
  · rintro ⟨_, _, ⟨offset, length, rfl, rfl, hoffset, hlength⟩, content, ⟨hcount, hcontent⟩, rfl⟩
    refine ⟨offset, length, hoffset, by simp, hlength, ?_⟩
    rwa [flatMap_wordsOf hcount]
  · rintro ⟨offset, length, hoffset, hcount, hlength, hcontent⟩
    refine ⟨_, _, ⟨offset, length, rfl, rfl, hoffset, hlength⟩, _, ⟨?_, hcontent⟩, ?_⟩
    · rw [length_flatMap_toBytes, hcount]
    · rw [hcount, wordsOf_flatMap]

/-- Reading a field finds what the data holds there. -/
theorem value?_eq_some_iff {kind : Kind} {v : Value} : value? data place kind = some v ↔
    v.kind = kind ∧ Holds data place v := by
  constructor
  · intro h
    cases kind with
    | word =>
        obtain ⟨w, hw, rfl⟩ := Option.map_eq_some_iff.mp h
        exact ⟨rfl, .word (head?_eq_some_iff.mp hw)⟩
    | bytes =>
        obtain ⟨b, hb, rfl⟩ := Option.map_eq_some_iff.mp h
        obtain ⟨offset, length, hoffset, hlength, htail⟩ := bytes?_eq_some_iff.mp hb
        exact ⟨rfl, .tail (by simp [Value.kind]) hoffset hlength htail⟩
    | words =>
        obtain ⟨ws, hws, rfl⟩ := Option.map_eq_some_iff.mp h
        obtain ⟨offset, length, hoffset, hlength, htail⟩ := words?_eq_some_iff.mp hws
        exact ⟨rfl, .tail (by simp [Value.kind]) hoffset hlength htail⟩
  · rintro ⟨rfl, h⟩
    cases h with
    | word hw => exact congrArg (Option.map Value.word) (head?_eq_some_iff.mpr hw)
    | @tail _ offset length hkind hoffset hlength htail =>
        cases v with
        | word w => exact absurd rfl hkind
        | bytes b =>
            exact congrArg (Option.map Value.bytes)
              (bytes?_eq_some_iff.mpr ⟨offset, length, hoffset, hlength, htail⟩)
        | words ws =>
            exact congrArg (Option.map Value.words)
              (words?_eq_some_iff.mpr ⟨offset, length, hoffset, hlength, htail⟩)

theorem values?_eq_some_iff {kinds : List Kind} {vs : List Value} :
    values? data place kinds = some vs ↔
      vs.map Value.kind = kinds ∧ ∀ (i : Nat) v, vs[i]? = some v → Holds data (place + i) v := by
  induction kinds generalizing place vs with
  | nil =>
      rw [values?, Option.some.injEq, List.map_eq_nil_iff, eq_comm]
      exact ⟨fun h => ⟨h, by simp [h]⟩, And.left⟩
  | cons kind kinds ih =>
      simp only [values?, Option.bind_eq_bind, Option.bind_eq_some_iff, Option.pure_def,
        Option.some.injEq, value?_eq_some_iff, ih]
      constructor
      · rintro ⟨v, ⟨rfl, hv⟩, vs, ⟨rfl, hvs⟩, rfl⟩
        refine ⟨rfl, fun i u hu => ?_⟩
        cases i with
        | zero => exact Option.some.inj hu ▸ hv
        | succ i =>
            rw [← Nat.add_assoc, Nat.add_right_comm]
            exact hvs i u hu
      · rintro ⟨hkinds, hall⟩
        cases vs with
        | nil => cases hkinds
        | cons v vs =>
            obtain ⟨rfl, rfl⟩ := List.cons.inj hkinds
            refine ⟨v, ⟨rfl, hall 0 v rfl⟩, vs, ⟨rfl, fun i u hu => ?_⟩, rfl⟩
            rw [Nat.add_right_comm, Nat.add_assoc]
            exact hall (i + 1) u hu

end Abi

end ChainIngest
