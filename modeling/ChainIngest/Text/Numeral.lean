/-!
# Numerals

Whole numbers in a base up to thirty-six, with underscores between the digits to
taste: the digits alone, or behind a mark that names the base.
-/

namespace ChainIngest.Text.Numeral

/-- The value of a digit: the decimal digits, then the letters of either case. -/
def digitValue? (c : Char) : Option Nat :=
  let n := c.toNat
  if 48 ≤ n ∧ n ≤ 57 then some (n - 48)
  else if 97 ≤ n ∧ n ≤ 122 then some (n - 87)
  else if 65 ≤ n ∧ n ≤ 90 then some (n - 55)
  else none

/-- A number with one more digit; an underscore adds nothing. -/
def extend? (base : Nat) (n : Nat) (c : Char) : Option Nat :=
  if c = '_' then some n
  else (digitValue? c).bind fun d => if d < base then some (n * base + d) else none

/-- The number that digits spell; no digits spell zero. -/
def ofDigits? (base : Nat) (cs : List Char) : Option Nat :=
  cs.foldlM (extend? base) 0

/-- The number behind a mark: `0x` for base sixteen, `0o` for eight, `0b` for two, in either
letter case, and no mark for ten. -/
def ofMarked? : List Char → Option Nat
  | '0' :: 'x' :: rest => ofDigits? 16 rest
  | '0' :: 'X' :: rest => ofDigits? 16 rest
  | '0' :: 'o' :: rest => ofDigits? 8 rest
  | '0' :: 'O' :: rest => ofDigits? 8 rest
  | '0' :: 'b' :: rest => ofDigits? 2 rest
  | '0' :: 'B' :: rest => ofDigits? 2 rest
  | cs => ofDigits? 10 cs

end ChainIngest.Text.Numeral
