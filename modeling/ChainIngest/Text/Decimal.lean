import ChainIngest.Text.Utf8
import ChainIngest.Word
/-!
# Signed decimals

Signed words as decimal text: an optional sign and digits, with underscores among
them to taste.  The digits are read as a magnitude of 256 bits, and the sign is
put to it afterwards.  The first thing wrong from the left is what is reported.
-/

namespace ChainIngest.Text.Decimal

inductive Fault where
  | digit (found : UInt8)
  | range
deriving DecidableEq, Inhabited

/-- The fault in words; a byte is shown as the character of its number. -/
def Fault.message : Fault → String
  | digit found => "invalid digit: " ++ String.ofList [Char.ofNat found.toNat]
  | range => "number does not fit in the integer size"

def digit? (b : UInt8) : Option Nat :=
  if 48 ≤ b.toNat ∧ b.toNat ≤ 57 then some (b.toNat - 48) else none

def extend (n : Nat) (b : UInt8) : Except Fault Nat :=
  if b = 95 then .ok n
  else
    match digit? b with
    | none => .error (.digit b)
    | some d => if n * 10 + d < Word.bound then .ok (n * 10 + d) else .error .range

/-- The magnitude that a text spells; no digits spell zero. -/
def magnitude (text : Bytes) : Except Fault Nat :=
  text.foldlM extend 0

def greatest : Nat := 2 ^ 255 - 1

/-- The word with a sign and a magnitude; the negative side reaches one further. -/
def withSign (negative : Bool) (n : Nat) : Except Fault Word :=
  if n ≤ greatest + negative.toNat then
    .ok (BitVec.ofInt 256 (if negative then -(n : Int) else n))
  else .error .range

def ofBytes : Bytes → Except Fault Word
  | [] => withSign false 0
  | b :: rest =>
    if b = 43 then (magnitude rest).bind (withSign false)
    else if b = 45 then (magnitude rest).bind (withSign true)
    else (magnitude (b :: rest)).bind (withSign false)

def ofString (text : String) : Except Fault Word := ofBytes (Utf8.encode text)

end ChainIngest.Text.Decimal
