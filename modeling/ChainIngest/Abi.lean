import ChainIngest.Text.Utf8
import ChainIngest.Word
/-!
# Reading ABI data

Event data and revert payloads are rows of 32-byte head words.  A field of
variable size has in its head word the offset, from the start of the data, of a
length word that its content follows.  Reading is lenient: tails may lie
anywhere and overlap, padding is not looked at, and what follows the last field
is ignored.  It never reads beyond the data.
-/

namespace ChainIngest.Abi

def word? (data : Bytes) (offset : Nat) : Option Word :=
  let bytes := (data.drop offset).take 32
  if bytes.length = 32 then some (Word.ofBytes bytes) else none

def head? (data : Bytes) (field : Nat) : Option Word :=
  word? data (32 * field)

def slice? (data : Bytes) (offset count : Nat) : Option Bytes :=
  if offset + count ≤ data.length then some ((data.drop offset).take count) else none

/-- The offset that a head word gives and the length word found there. -/
def tail? (data : Bytes) (field : Nat) : Option (Nat × Nat) := do
  let offset ← head? data field
  let length ← word? data offset.toNat
  return (offset.toNat, length.toNat)

def bytes? (data : Bytes) (field : Nat) : Option Bytes := do
  let (offset, length) ← tail? data field
  slice? data (offset + 32) length

/-- The text of a field, with U+FFFD for what is not UTF-8. -/
def string? (data : Bytes) (field : Nat) : Option String :=
  (bytes? data field).map Text.Utf8.lossy

def wordsOf : (count : Nat) → Bytes → List Word
  | 0, _ => []
  | count + 1, data => Word.ofBytes (data.take 32) :: wordsOf count (data.drop 32)

def words? (data : Bytes) (field : Nat) : Option (List Word) := do
  let (offset, length) ← tail? data field
  let content ← slice? data (offset + 32) (32 * length)
  return wordsOf length content

@[simp] theorem length_wordsOf (count : Nat) (data : Bytes) :
    (wordsOf count data).length = count := by
  induction count generalizing data with
  | zero => rfl
  | succ count ih => simp [wordsOf, ih]

end ChainIngest.Abi
