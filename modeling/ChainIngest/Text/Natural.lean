import ChainIngest.Power
/-!
# Natural numbers in settings

Numbers as settings give them: decimal digits after an optional plus sign, with
nothing around them, and no larger than the setting can hold.
-/

namespace ChainIngest.Text.Natural

inductive Fault where
  | empty
  | digit
  | range
deriving DecidableEq, Inhabited

def Fault.message : Fault → String
  | empty => "cannot parse integer from empty string"
  | digit => "invalid digit found in string"
  | range => "number too large to fit in target type"

def extend (bits : Nat) (n : Nat) (c : Char) : Except Fault Nat :=
  if c.isDigit then
    let next := n * 10 + (c.toNat - 48)
    if next < 2 ^ bits then .ok next else .error .range
  else .error .digit

/-- The number that digits spell; there must be one. -/
def ofDigits (bits : Nat) : List Char → Except Fault Nat
  | [] => .error .digit
  | cs => cs.foldlM (extend bits) 0

def ofString (bits : Nat) (text : String) : Except Fault Nat :=
  match text.toList with
  | [] => .error .empty
  | '+' :: digits => ofDigits bits digits
  | digits => ofDigits bits digits

end ChainIngest.Text.Natural
