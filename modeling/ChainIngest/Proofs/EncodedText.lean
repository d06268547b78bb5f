import ChainIngest.Text.Utf8
/-!
# Reading text that was written

The bytes of a text are well-formed: reading them takes one character at a time,
finds nothing to replace, and gives the text back.  The strict reading finds a text
in no other bytes: what it takes for a character are the bytes of this character.
-/

namespace ChainIngest.Text.Utf8

/-! ## Lead bytes -/

section Lead

variable {n : Nat}

theorem lead?_two (hlow : 0x80 ≤ n) (hhigh : n ≤ 0x7ff) :
    lead? (n / 64 % 32 + 0xc0) = some ⟨1, 0x80, 0xbf, n / 64⟩ := by
  have hbits : n / 64 % 32 = n / 64 := by omega
  unfold lead?
  rw [hbits, if_neg (by omega), if_neg (by omega), if_pos (by omega), Nat.add_sub_cancel]

/-- The range for the byte after the lead byte leaves out short forms and surrogates. -/
theorem lead?_three (hlow : 0x800 ≤ n) (hhigh : n ≤ 0xffff) (hvalid : n < 0xd800 ∨ 0xdfff < n) :
    ∃ low high, lead? (n / 4096 % 16 + 0xe0) = some ⟨2, low, high, n / 4096⟩ ∧
      low ≤ n / 64 % 64 + 0x80 ∧ n / 64 % 64 + 0x80 ≤ high := by
  have hbits : n / 4096 % 16 = n / 4096 := by omega
  unfold lead?
  rw [hbits, if_neg (by omega), if_neg (by omega), if_neg (by omega)]
  by_cases hfirst : n / 4096 = 0
  · exact ⟨0xa0, 0xbf, by simp [hfirst], by omega, by omega⟩
  by_cases hsurrogates : n / 4096 = 13
  · exact ⟨0x80, 0x9f, by simp [hsurrogates], by omega, by omega⟩
  refine ⟨0x80, 0xbf, ?_, by omega, by omega⟩
  rw [if_neg (by omega), if_neg (by omega), if_pos (by omega), Nat.add_sub_cancel]

/-- The range for the byte after the lead byte leaves out short forms and what is no character. -/
theorem lead?_four (hlow : 0x10000 ≤ n) (hhigh : n < 0x110000) :
    ∃ low high, lead? (n / 262144 % 8 + 0xf0) = some ⟨3, low, high, n / 262144⟩ ∧
      low ≤ n / 4096 % 64 + 0x80 ∧ n / 4096 % 64 + 0x80 ≤ high := by
  have hbits : n / 262144 % 8 = n / 262144 := by omega
  unfold lead?
  rw [hbits, if_neg (by omega), if_neg (by omega), if_neg (by omega), if_neg (by omega),
    if_neg (by omega), if_neg (by omega)]
  by_cases hfirst : n / 262144 = 0
  · exact ⟨0x90, 0xbf, by simp [hfirst], by omega, by omega⟩
  by_cases hlast : n / 262144 = 4
  · exact ⟨0x80, 0x8f, by simp [hlast], by omega, by omega⟩
  refine ⟨0x80, 0xbf, ?_, by omega, by omega⟩
  rw [if_neg (by omega), if_pos (by omega), Nat.add_sub_cancel]

end Lead

/-! ## Characters -/

theorem follow_zero {low high acc : Nat} {rest : Bytes} :
    follow 0 low high acc rest = (some acc, rest) := by
  rw [follow]

/-- A byte that carries the last six bits of a number adds them to the code point. -/
theorem follow_cons {count low high acc n : Nat} {rest : Bytes} (hlow : low ≤ n % 64 + 0x80)
    (hhigh : n % 64 + 0x80 ≤ high) :
    follow (count + 1) low high acc (UInt8.ofNat (n % 64 + 0x80) :: rest) =
      follow count 0x80 0xbf (acc * 64 + n % 64) rest := by
  have hbyte : (UInt8.ofNat (n % 64 + 0x80)).toNat = n % 64 + 0x80 :=
    UInt8.toNat_ofNat_of_lt' (show _ < 256 by omega)
  rw [follow, hbyte, if_pos ⟨hlow, hhigh⟩, Nat.add_sub_cancel]

theorem follow_tail {count acc n : Nat} {rest : Bytes} :
    follow (count + 1) 0x80 0xbf acc (UInt8.ofNat (n % 64 + 0x80) :: rest) =
      follow count 0x80 0xbf (acc * 64 + n % 64) rest :=
  follow_cons (by omega) (by omega)

/-- The bytes of a character are read as this character, and what follows is left. -/
theorem scan_utf8EncodeChar (c : Char) (rest : Bytes) :
    ∃ b tail, String.utf8EncodeChar c = b :: tail ∧ scan b (tail ++ rest) = (some c, rest) := by
  have hvalid : c.val.toNat < 0xd800 ∨ 0xdfff < c.val.toNat ∧ c.val.toNat < 0x110000 := c.valid
  have hback : Char.ofNat c.val.toNat = c := Char.ofNat_toNat c
  have hbyte {n : Nat} (h : n < 256) : (UInt8.ofNat n).toNat = n := UInt8.toNat_ofNat_of_lt' h
  unfold String.utf8EncodeChar
  generalize c.val.toNat = n at hvalid hback
  dsimp only
  split
  · refine ⟨_, _, rfl, ?_⟩
    rw [scan, hbyte (by omega), lead?, if_pos (by omega)]
    simp only [List.nil_append, follow_zero, Option.map_some, hback]
  split
  · refine ⟨_, _, rfl, ?_⟩
    have hpoint : n / 64 * 64 + n % 64 = n := by omega
    rw [scan, hbyte (by omega), lead?_two (by omega) (by omega)]
    simp only [List.cons_append, List.nil_append, follow_tail, follow_zero, hpoint,
      Option.map_some, hback]
  split
  · obtain ⟨low, high, hlead, hlow, hhigh⟩ := lead?_three (n := n) (by omega) (by omega) (by omega)
    refine ⟨_, _, rfl, ?_⟩
    have hpoint : (n / 4096 * 64 + n / 64 % 64) * 64 + n % 64 = n := by omega
    rw [scan, hbyte (by omega), hlead]
    simp only [List.cons_append, List.nil_append, follow_cons hlow hhigh, follow_tail, follow_zero,
      hpoint, Option.map_some, hback]
  · obtain ⟨low, high, hlead, hlow, hhigh⟩ := lead?_four (n := n) (by omega) (by omega)
    refine ⟨_, _, rfl, ?_⟩
    have hpoint : ((n / 262144 * 64 + n / 4096 % 64) * 64 + n / 64 % 64) * 64 + n % 64 = n := by
      omega
    rw [scan, hbyte (by omega), hlead]
    simp only [List.cons_append, List.nil_append, follow_cons hlow hhigh, follow_tail, follow_zero,
      hpoint, Option.map_some, hback]

/-! ## Texts -/

theorem pieces_flatMap (cs : List Char) :
    pieces (cs.flatMap String.utf8EncodeChar) = cs.map some := by
  induction cs with
  | nil => rw [List.flatMap_nil, pieces, List.map_nil]
  | cons c cs ih =>
      obtain ⟨b, tail, hbytes, hscan⟩ := scan_utf8EncodeChar c (cs.flatMap String.utf8EncodeChar)
      rw [List.flatMap_cons, hbytes, List.cons_append, pieces, hscan, ih, List.map_cons]

theorem encode_eq_flatMap (text : String) :
    encode text = text.toList.flatMap String.utf8EncodeChar := by
  conv => lhs; rw [← String.ofList_toList (s := text)]
  rw [encode, String.toUTF8_eq_toByteArray, String.toByteArray_ofList, List.utf8Encode,
    List.data_toByteArray]

theorem lossy_encode (text : String) : lossy (encode text) = text := by
  rw [lossy, encode_eq_flatMap, pieces_flatMap, List.map_map]
  exact (congrArg String.ofList (List.map_id _)).trans String.ofList_toList

/-! ## What is read as text -/

/-- What a lead byte announces, by the number of bytes that follow it.  The range for the first of
them leaves out short forms, surrogates and what is no character. -/
inductive Announces (n : Nat) : Lead → Prop where
  | one : n < 0x80 → Announces n ⟨0, 0, 0, n⟩
  | two : 0xc2 ≤ n → n < 0xe0 → Announces n ⟨1, 0x80, 0xbf, n - 0xc0⟩
  | three {low high : Nat} : 0xe0 ≤ n → n < 0xf0 → 0x80 ≤ low → high ≤ 0xbf →
      (n = 0xe0 → 0xa0 ≤ low) → (n = 0xed → high ≤ 0x9f) → Announces n ⟨2, low, high, n - 0xe0⟩
  | four {low high : Nat} : 0xf0 ≤ n → n < 0xf5 → 0x80 ≤ low → high ≤ 0xbf →
      (n = 0xf0 → 0x90 ≤ low) → (n = 0xf4 → high ≤ 0x8f) → Announces n ⟨3, low, high, n - 0xf0⟩

theorem announces_of_lead? {n : Nat} {plan : Lead} (h : lead? n = some plan) :
    Announces n plan := by
  unfold lead? at h
  split at h
  · next hone => exact Option.some.inj h ▸ .one hone
  split at h
  · cases h
  split at h
  · next htwo => exact Option.some.inj h ▸ .two (by omega) htwo
  split at h
  · next heq =>
    subst heq
    exact Option.some.inj h ▸
      .three (by omega) (by omega) (by omega) (by omega) (by omega) (by omega)
  split at h
  · next heq =>
    subst heq
    exact Option.some.inj h ▸
      .three (by omega) (by omega) (by omega) (by omega) (by omega) (by omega)
  split at h
  · exact Option.some.inj h ▸
      .three (by omega) (by omega) (by omega) (by omega) (by omega) (by omega)
  split at h
  · next heq =>
    subst heq
    exact Option.some.inj h ▸
      .four (by omega) (by omega) (by omega) (by omega) (by omega) (by omega)
  split at h
  · exact Option.some.inj h ▸
      .four (by omega) (by omega) (by omega) (by omega) (by omega) (by omega)
  split at h
  · next heq =>
    subst heq
    exact Option.some.inj h ▸
      .four (by omega) (by omega) (by omega) (by omega) (by omega) (by omega)
  · cases h

section Read

variable {b : UInt8} {rest left : Bytes}

theorem follow_eq_some {count low high acc point : Nat}
    (h : follow (count + 1) low high acc rest = (some point, left)) :
    ∃ x more, rest = x :: more ∧ low ≤ x.toNat ∧ x.toNat ≤ high ∧
      follow count 0x80 0xbf (acc * 64 + (x.toNat - 0x80)) more = (some point, left) := by
  cases rest with
  | nil => cases h
  | cons x more =>
      rw [follow] at h
      split at h
      · next hrange => exact ⟨x, more, rfl, hrange.1, hrange.2, h⟩
      · cases h

theorem follow_zero_eq_some {low high acc point : Nat}
    (h : follow 0 low high acc rest = (some point, left)) : acc = point ∧ rest = left := by
  rw [follow_zero] at h
  cases h
  exact ⟨rfl, rfl⟩

theorem scan_eq_some {c : Char} (h : scan b rest = (some c, left)) :
    ∃ plan point, Announces b.toNat plan ∧ Char.ofNat point = c ∧
      follow plan.tail plan.low plan.high plan.bits rest = (some point, left) := by
  unfold scan at h
  split at h
  · cases h
  · next plan hplan =>
    cases hfollow : follow plan.tail plan.low plan.high plan.bits rest with
    | mk found after =>
        rw [hfollow] at h
        obtain ⟨hfound, rfl⟩ := Prod.mk.inj h
        obtain ⟨point, rfl, hc⟩ := Option.map_eq_some_iff.mp hfound
        exact ⟨plan, point, announces_of_lead? hplan, hc, hfollow⟩

theorem ofNat_of_eq {n : Nat} (h : n = b.toNat) : UInt8.ofNat n = b := by
  rw [h, UInt8.ofNat_toNat]

theorem utf8EncodeChar_ofNat {n : Nat} (h : n.isValidChar) : String.utf8EncodeChar (Char.ofNat n) =
    if n ≤ 0x7f then [UInt8.ofNat n]
    else if n ≤ 0x7ff then [UInt8.ofNat (n / 64 % 32 + 0xc0), UInt8.ofNat (n % 64 + 0x80)]
    else if n ≤ 0xffff then
      [UInt8.ofNat (n / 4096 % 16 + 0xe0), UInt8.ofNat (n / 64 % 64 + 0x80),
        UInt8.ofNat (n % 64 + 0x80)]
    else
      [UInt8.ofNat (n / 262144 % 8 + 0xf0), UInt8.ofNat (n / 4096 % 64 + 0x80),
        UInt8.ofNat (n / 64 % 64 + 0x80), UInt8.ofNat (n % 64 + 0x80)] := by
  have hback : (Char.ofNat n).val.toNat = n := by
    rw [Char.ofNat, dif_pos h]
    rfl
  unfold String.utf8EncodeChar
  rw [hback]

theorem eq_of_scan {c : Char} (h : scan b rest = (some c, left)) :
    b :: rest = String.utf8EncodeChar c ++ left := by
  obtain ⟨plan, point, hplan, rfl, hfollow⟩ := scan_eq_some h
  cases hplan with
  | one hb =>
      obtain ⟨hpoint, rfl⟩ := follow_zero_eq_some hfollow
      dsimp only at hpoint
      rw [utf8EncodeChar_ofNat (.inl (by omega)), if_pos (by omega), ofNat_of_eq hpoint.symm]
      rfl
  | two hlow hhigh =>
      obtain ⟨x, more, rfl, hx, hx', hfollow⟩ := follow_eq_some hfollow
      obtain ⟨hpoint, rfl⟩ := follow_zero_eq_some hfollow
      dsimp only at hx hx' hpoint
      rw [utf8EncodeChar_ofNat (.inl (by omega)), if_neg (by omega), if_pos (by omega),
        ofNat_of_eq (b := b) (by omega), ofNat_of_eq (b := x) (by omega)]
      rfl
  | three hlow hhigh hfirst hfirst' hshort hsurrogates =>
      obtain ⟨x, _, rfl, hx, hx', hfollow⟩ := follow_eq_some hfollow
      obtain ⟨y, more, rfl, hy, hy', hfollow⟩ := follow_eq_some hfollow
      obtain ⟨hpoint, rfl⟩ := follow_zero_eq_some hfollow
      dsimp only at hx hx' hpoint
      rw [utf8EncodeChar_ofNat (show _ ∨ _ by omega), if_neg (by omega), if_neg (by omega),
        if_pos (by omega), ofNat_of_eq (b := b) (by omega), ofNat_of_eq (b := x) (by omega),
        ofNat_of_eq (b := y) (by omega)]
      rfl
  | four hlow hhigh hfirst hfirst' hshort hbeyond =>
      obtain ⟨x, _, rfl, hx, hx', hfollow⟩ := follow_eq_some hfollow
      obtain ⟨y, _, rfl, hy, hy', hfollow⟩ := follow_eq_some hfollow
      obtain ⟨z, more, rfl, hz, hz', hfollow⟩ := follow_eq_some hfollow
      obtain ⟨hpoint, rfl⟩ := follow_zero_eq_some hfollow
      dsimp only at hx hx' hpoint
      rw [utf8EncodeChar_ofNat (.inr (by omega)), if_neg (by omega), if_neg (by omega),
        if_neg (by omega), ofNat_of_eq (b := b) (by omega), ofNat_of_eq (b := x) (by omega),
        ofNat_of_eq (b := y) (by omega), ofNat_of_eq (b := z) (by omega)]
      rfl

end Read

theorem flatMap_of_pieces {bytes : Bytes} {cs : List Char} (h : pieces bytes = cs.map some) :
    bytes = cs.flatMap String.utf8EncodeChar := by
  induction cs generalizing bytes with
  | nil =>
      cases bytes with
      | nil => rfl
      | cons b rest =>
          rw [pieces] at h
          cases h
  | cons c cs ih =>
      cases bytes with
      | nil =>
          rw [pieces] at h
          cases h
      | cons b rest =>
          rw [pieces, List.map_cons] at h
          obtain ⟨hc, hcs⟩ := List.cons.inj h
          calc b :: rest = String.utf8EncodeChar c ++ (scan b rest).2 :=
                eq_of_scan (Prod.ext hc rfl)
            _ = String.utf8EncodeChar c ++ cs.flatMap String.utf8EncodeChar := by rw [← ih hcs]
            _ = (c :: cs).flatMap String.utf8EncodeChar := List.flatMap_cons.symm

theorem mapM_id_eq_some_iff {α : Type} {xs : List (Option α)} {ys : List α} :
    xs.mapM id = some ys ↔ xs = ys.map some := by
  induction xs generalizing ys with
  | nil => cases ys <;> simp
  | cons x xs ih =>
      simp only [List.mapM_cons, id, Option.bind_eq_bind, Option.bind_eq_some_iff, Option.pure_def,
        Option.some.injEq, ih]
      constructor
      · rintro ⟨y, rfl, rest, rfl, rfl⟩
        rfl
      · intro h
        cases ys with
        | nil => cases h
        | cons y ys =>
            obtain ⟨rfl, rfl⟩ := List.cons.inj h
            exact ⟨y, rfl, ys, rfl, rfl⟩

/-- Strict reading finds a text exactly in the bytes of this text. -/
theorem decode?_eq_some_iff {bytes : Bytes} {text : String} :
    decode? bytes = some text ↔ encode text = bytes := by
  rw [decode?, Option.map_eq_some_iff, encode_eq_flatMap]
  constructor
  · rintro ⟨cs, hcs, rfl⟩
    rw [String.toList_ofList]
    exact (flatMap_of_pieces (mapM_id_eq_some_iff.mp hcs)).symm
  · rintro rfl
    exact ⟨text.toList, mapM_id_eq_some_iff.mpr (pieces_flatMap _), String.ofList_toList⟩

theorem decode?_eq_none_iff {bytes : Bytes} :
    decode? bytes = none ↔ ∀ text, encode text ≠ bytes := by
  simp only [Option.eq_none_iff_forall_ne_some, ne_eq, decode?_eq_some_iff]

end ChainIngest.Text.Utf8
