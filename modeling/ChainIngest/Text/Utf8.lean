import ChainIngest.Bytes
/-!
# Reading UTF-8

Two readings of a byte string as text: the strict one refuses malformed input,
the lenient one puts U+FFFD in place of each maximal malformed piece.  Both walk
the same scanner, which takes one character or one malformed piece at a time.
-/

namespace ChainIngest.Text.Utf8

/-- The lead byte's plan: how many bytes follow, the range of the first of them, and the
lead byte's share of the code point. -/
structure Lead where
  tail : Nat
  low : Nat
  high : Nat
  /-- Bits of the code point carried by the lead byte. -/
  bits : Nat

/-- What a lead byte announces; `none` for a byte that starts no character. -/
def lead? (b : Nat) : Option Lead :=
  if b < 0x80 then some ⟨0, 0, 0, b⟩
  else if b < 0xc2 then none
  else if b < 0xe0 then some ⟨1, 0x80, 0xbf, b - 0xc0⟩
  else if b = 0xe0 then some ⟨2, 0xa0, 0xbf, 0⟩
  else if b = 0xed then some ⟨2, 0x80, 0x9f, 13⟩
  else if b < 0xf0 then some ⟨2, 0x80, 0xbf, b - 0xe0⟩
  else if b = 0xf0 then some ⟨3, 0x90, 0xbf, 0⟩
  else if b < 0xf4 then some ⟨3, 0x80, 0xbf, b - 0xf0⟩
  else if b = 0xf4 then some ⟨3, 0x80, 0x8f, 4⟩
  else none

/-- Reads the bytes after a lead byte: the whole code point if all are there, and what is left. -/
def follow : (count low high acc : Nat) → Bytes → Option Nat × Bytes
  | 0, _, _, acc, rest => (some acc, rest)
  | _ + 1, _, _, _, [] => (none, [])
  | count + 1, low, high, acc, b :: rest =>
    if low ≤ b.toNat ∧ b.toNat ≤ high then
      follow count 0x80 0xbf (acc * 64 + (b.toNat - 0x80)) rest
    else (none, b :: rest)

theorem length_follow_le (count low high acc : Nat) (b : Bytes) :
    (follow count low high acc b).2.length ≤ b.length := by
  induction b generalizing count low high acc with
  | nil => cases count <;> simp [follow]
  | cons x rest ih =>
    cases count with
    | zero => simp [follow]
    | succ count =>
      simp only [follow]
      split
      · exact Nat.le_trans (ih ..) (by simp)
      · simp

/-- One character, or `none` for a malformed piece, and what is left after it. -/
def scan (b : UInt8) (rest : Bytes) : Option Char × Bytes :=
  match lead? b.toNat with
  | none => (none, rest)
  | some plan =>
    let (point, left) := follow plan.tail plan.low plan.high plan.bits rest
    (point.map Char.ofNat, left)

theorem length_scan_le (b : UInt8) (rest : Bytes) : (scan b rest).2.length ≤ rest.length := by
  unfold scan
  split
  · simp
  · exact length_follow_le ..

def pieces : Bytes → List (Option Char)
  | [] => []
  | b :: rest => (scan b rest).1 :: pieces (scan b rest).2
termination_by b => b.length
decreasing_by
  have := length_scan_le b rest
  simp only [List.length_cons]
  omega

/-- The text of a byte string with U+FFFD for each malformed piece. -/
def lossy (b : Bytes) : String :=
  String.ofList ((pieces b).map fun piece => piece.getD (Char.ofNat 0xfffd))

def decode? (b : Bytes) : Option String :=
  ((pieces b).mapM id).map String.ofList

inductive Fault where
  | malformed (length index : Nat)
  | cutOff (index : Nat)
deriving DecidableEq, Inhabited

def Fault.message : Fault → String
  | malformed length index => s!"invalid utf-8 sequence of {length} bytes from index {index}"
  | cutOff index => s!"incomplete utf-8 byte sequence from index {index}"

/-- The first fault of a byte string, of which `index` bytes are already read. -/
def firstFault? (index : Nat) : Bytes → Option Fault
  | [] => none
  | b :: rest =>
    let size := rest.length + 1 - (scan b rest).2.length
    if (scan b rest).1.isSome then firstFault? (index + size) (scan b rest).2
    else if (lead? b.toNat).isSome && (scan b rest).2.isEmpty then some (.cutOff index)
    else some (.malformed size index)
termination_by b => b.length
decreasing_by
  have := length_scan_le b rest
  simp only [List.length_cons]
  omega

def decode (b : Bytes) : Except Fault String :=
  match firstFault? 0 b with
  | some fault => .error fault
  | none => .ok (lossy b)

def encode (text : String) : Bytes :=
  text.toUTF8.data.toList

end ChainIngest.Text.Utf8
