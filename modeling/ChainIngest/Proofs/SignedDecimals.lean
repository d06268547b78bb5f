import ChainIngest.Postgres.Column
import ChainIngest.Proofs.EncodedText
/-!
# Signed decimals

A decimal is read as a magnitude of 256 bits that its sign is put to afterwards.
The magnitude is refused as soon as it does not fit, and further digits never make it
smaller; the sign lets the negative side reach one further.  So a decimal is read
exactly if a signed word has its value, however many digits it has.
-/

namespace ChainIngest

namespace Text

/-! ## Bytes of digits -/

theorem Utf8.utf8EncodeChar_of_isDigit {c : Char} (h : c.isDigit = true) :
    String.utf8EncodeChar c = [UInt8.ofNat c.toNat] := by
  have hrange : 48 ≤ c.toNat ∧ c.toNat ≤ 57 := Char.isDigit_iff_toNat.mp h
  unfold String.utf8EncodeChar
  rw [Char.toNat_val]
  exact if_pos (by omega)

namespace Decimal

section Byte

variable {c : Char} (h : c.isDigit = true)
include h

theorem toNat_of_isDigit : (UInt8.ofNat c.toNat).toNat = c.toNat ∧ 48 ≤ c.toNat ∧ c.toNat ≤ 57 := by
  have hrange : 48 ≤ c.toNat ∧ c.toNat ≤ 57 := Char.isDigit_iff_toNat.mp h
  exact ⟨UInt8.toNat_ofNat_of_lt' (show _ < 256 by omega), hrange⟩

theorem byte_ne {mark : UInt8} (hmark : mark.toNat < 48 ∨ 57 < mark.toNat) :
    UInt8.ofNat c.toNat ≠ mark := by
  rintro rfl
  have hrange := toNat_of_isDigit h
  omega

theorem extend_of_isDigit (n : Nat) : extend n (UInt8.ofNat c.toNat) =
    if 10 * n + (c.toNat - 48) < Word.bound then .ok (10 * n + (c.toNat - 48))
    else .error .range := by
  obtain ⟨hbyte, hrange⟩ := toNat_of_isDigit h
  rw [extend, if_neg (byte_ne h (by decide)), digit?, hbyte, if_pos hrange, Nat.mul_comm n 10]

end Byte

/-! ## Magnitudes -/

theorem le_ofDigitChars (digits : List Char) (n : Nat) : n ≤ Nat.ofDigitChars 10 digits n := by
  induction digits generalizing n with
  | nil => exact Nat.le_refl n
  | cons c digits ih =>
      rw [Nat.ofDigitChars_cons]
      have := ih (10 * n + (c.toNat - '0'.toNat))
      omega

theorem foldlM_extend {digits : List Char} (h : ∀ c ∈ digits, c.isDigit = true) {n : Nat}
    (hn : n < Word.bound) :
    (digits.flatMap String.utf8EncodeChar).foldlM extend n =
      if Nat.ofDigitChars 10 digits n < Word.bound then .ok (Nat.ofDigitChars 10 digits n)
      else .error .range := by
  induction digits generalizing n with
  | nil => exact (if_pos hn).symm
  | cons c digits ih =>
      have hc := h c List.mem_cons_self
      rw [List.flatMap_cons, Utf8.utf8EncodeChar_of_isDigit hc, List.singleton_append,
        List.foldlM_cons, extend_of_isDigit hc, Nat.ofDigitChars_cons]
      by_cases hfits : 10 * n + (c.toNat - 48) < Word.bound
      · rw [if_pos hfits]
        exact ih (fun d hd => h d (List.mem_cons_of_mem c hd)) hfits
      · have hle := le_ofDigitChars digits (10 * n + (c.toNat - '0'.toNat))
        have hzero : '0'.toNat = 48 := rfl
        rw [if_neg hfits, if_neg (by omega)]
        rfl

theorem magnitude_digits {digits : List Char} (h : ∀ c ∈ digits, c.isDigit = true) :
    magnitude (digits.flatMap String.utf8EncodeChar) =
      if Nat.ofDigitChars 10 digits 0 < Word.bound then .ok (Nat.ofDigitChars 10 digits 0)
      else .error .range :=
  foldlM_extend h (by decide)

/-! ## Signs -/

def wordOf (n : Int) : Except Fault Word :=
  if -2 ^ 255 ≤ n ∧ n < 2 ^ 255 then .ok (BitVec.ofInt 256 n) else .error .range

def signed (negative : Bool) (n : Nat) : Int := if negative then -n else n

theorem withSign_eq (negative : Bool) (n : Nat) :
    withSign negative n = wordOf (signed negative n) := by
  have hgreatest : greatest + 1 = 2 ^ 255 := rfl
  have hrange : n ≤ greatest + negative.toNat ↔
      -2 ^ 255 ≤ signed negative n ∧ signed negative n < 2 ^ 255 := by
    cases negative with
    | false => simp only [signed, Bool.toNat_false, Bool.false_eq_true, if_false]; omega
    | true => simp only [signed, Bool.toNat_true, if_true]; omega
  simp only [withSign, wordOf, hrange]
  rfl

theorem wordOf_eq_ok_iff {n : Int} {w : Word} : wordOf n = .ok w ↔ w.toInt = n := by
  unfold wordOf
  constructor
  · intro h
    split at h
    · next hrange =>
      cases h
      exact BitVec.toInt_ofInt_eq_self (by decide) hrange.1 hrange.2
    · cases h
  · rintro rfl
    rw [if_pos ⟨BitVec.le_toInt w, BitVec.toInt_lt⟩, BitVec.ofInt_toInt]

/-! ## Texts -/

section Digits

variable {digits : List Char} (h : ∀ c ∈ digits, c.isDigit = true)
include h

theorem magnitude_bind (negative : Bool) :
    (magnitude (digits.flatMap String.utf8EncodeChar)).bind (withSign negative) =
      wordOf (signed negative (Nat.ofDigitChars 10 digits 0)) := by
  rw [magnitude_digits h]
  split
  · exact withSign_eq negative _
  · next hlarge =>
    have hbound : Word.bound = 2 ^ 256 := rfl
    have hout : ¬ (-2 ^ 255 ≤ signed negative (Nat.ofDigitChars 10 digits 0) ∧
        signed negative (Nat.ofDigitChars 10 digits 0) < 2 ^ 255) := by
      unfold signed
      split <;> omega
    exact (if_neg hout).symm

theorem ofString_digits (hsome : digits ≠ []) :
    ofString (String.ofList digits) = wordOf (Nat.ofDigitChars 10 digits 0) := by
  have hvalue := magnitude_bind h false
  rw [ofString, Utf8.encode_eq_flatMap, String.toList_ofList]
  cases digits with
  | nil => exact absurd rfl hsome
  | cons c digits =>
      have hc := h c List.mem_cons_self
      rw [List.flatMap_cons, Utf8.utf8EncodeChar_of_isDigit hc, List.singleton_append] at hvalue ⊢
      rw [ofBytes, if_neg (byte_ne hc (by decide)), if_neg (byte_ne hc (by decide))]
      exact hvalue

theorem ofString_minus :
    ofString (String.ofList ('-' :: digits)) = wordOf (-Nat.ofDigitChars 10 digits 0) := by
  rw [ofString, Utf8.encode_eq_flatMap, String.toList_ofList]
  exact magnitude_bind h true

end Digits

theorem ofString_toString (n : Int) : ofString (toString n) = wordOf n := by
  have hdigits (m : Nat) : ∀ c ∈ Nat.toDigits 10 m, c.isDigit = true :=
    fun c hc => Nat.isDigit_of_mem_toDigits (by decide) (by decide) hc
  cases n with
  | ofNat m =>
      calc ofString (toString (Int.ofNat m)) = ofString (String.ofList (Nat.toDigits 10 m)) := rfl
        _ = wordOf (Nat.ofDigitChars 10 (Nat.toDigits 10 m) 0) :=
            ofString_digits (hdigits m) Nat.toDigits_ne_nil
        _ = wordOf m := by rw [Nat.ofDigitChars_ten_toDigits]
  | negSucc m =>
      have htext : toString (Int.negSucc m) = String.ofList ('-' :: Nat.toDigits 10 (m + 1)) := by
        rw [String.ofList_cons]
        rfl
      calc ofString (toString (Int.negSucc m))
          = ofString (String.ofList ('-' :: Nat.toDigits 10 (m + 1))) := by rw [htext]
        _ = wordOf (-Nat.ofDigitChars 10 (Nat.toDigits 10 (m + 1)) 0) :=
            ofString_minus (hdigits (m + 1))
        _ = wordOf (Int.negSucc m) := by rw [Nat.ofDigitChars_ten_toDigits]; rfl

end Decimal

end Text

namespace Postgres

open Text.Decimal

/-- The text of an integer is read exactly if a signed word has its value, and then as this word;
for all others, however long, the column is reported. -/
theorem signedColumn_toString (field : String) (n : Int) :
    (∀ w, signedColumn field (toString n) = .ok w ↔ w.toInt = n) ∧
    signedColumn field (toString n) =
      if -2 ^ 255 ≤ n ∧ n < 2 ^ 255 then .ok (BitVec.ofInt 256 n)
      else .error ⟨.serialization,
        field ++ " is not a 256-bit integer: number does not fit in the integer size"⟩ := by
  constructor
  · intro w
    rw [← wordOf_eq_ok_iff, signedColumn, ofString_toString]
    cases wordOf n <;> simp [damaged]
  · rw [signedColumn, ofString_toString, wordOf]
    by_cases hrange : -2 ^ 255 ≤ n ∧ n < 2 ^ 255
    · rw [if_pos hrange, if_pos hrange]
    · rw [if_neg hrange, if_neg hrange]
      show Except.error (StoreError.unreadable (field ++ " " ++
        ("is not a 256-bit integer: " ++ Fault.range.message))) = _
      rw [String.append_assoc]
      rfl

end Postgres

end ChainIngest
