import ChainIngest.Json.Basic
/-!
# Reading JSON

A strict reader: one value, blanks around tokens only, no raw control characters
in texts, no lone surrogates, no leading zeros.  Each step takes at least one
character, so a budget of one step a character is enough.
-/

namespace ChainIngest.Json

/-! ## Tokens -/

def isBlank (c : Char) : Bool := c = ' ' || c = '\n' || c = '\t' || c = '\x0d'

def skipBlanks (cs : List Char) : List Char := cs.dropWhile isBlank

def hex4? : List Char → Option (Nat × List Char)
  | a :: b :: c :: d :: rest => do
    let a ← Bytes.hexValue? a
    let b ← Bytes.hexValue? b
    let c ← Bytes.hexValue? c
    let d ← Bytes.hexValue? d
    return (((a * 16 + b) * 16 + c) * 16 + d, rest)
  | _ => none

/-- The character of an escape `\u`, two escapes making one character where they must. -/
def unicode? (cs : List Char) : Option (Char × List Char) := do
  let (unit, rest) ← hex4? cs
  if 0xd800 ≤ unit ∧ unit < 0xdc00 then
    match rest with
    | '\\' :: 'u' :: more => do
      let (low, rest) ← hex4? more
      if 0xdc00 ≤ low ∧ low < 0xe000 then
        return (Char.ofNat (0x10000 + (unit - 0xd800) * 0x400 + (low - 0xdc00)), rest)
      else none
    | _ => none
  else if 0xdc00 ≤ unit ∧ unit < 0xe000 then none
  else return (Char.ofNat unit, rest)

def escape? : List Char → Option (Char × List Char)
  | '"' :: rest => some ('"', rest)
  | '\\' :: rest => some ('\\', rest)
  | '/' :: rest => some ('/', rest)
  | 'b' :: rest => some ('\x08', rest)
  | 'f' :: rest => some ('\x0c', rest)
  | 'n' :: rest => some ('\n', rest)
  | 'r' :: rest => some ('\x0d', rest)
  | 't' :: rest => some ('\t', rest)
  | 'u' :: rest => unicode? rest
  | _ => none

/-- The text up to the closing quote; `found` holds what was read, last character first. -/
def stringBody : (budget : Nat) → (found : List Char) → List Char → Option (String × List Char)
  | 0, _, _ => none
  | _ + 1, _, [] => none
  | _ + 1, found, '"' :: rest => some (String.ofList found.reverse, rest)
  | budget + 1, found, '\\' :: rest => do
    let (c, rest) ← escape? rest
    stringBody budget (c :: found) rest
  | budget + 1, found, c :: rest =>
    if c.toNat < 0x20 then none else stringBody budget (c :: found) rest

def digits (cs : List Char) : List Char × List Char :=
  (cs.takeWhile Char.isDigit, cs.dropWhile Char.isDigit)

def digitsValue (ds : List Char) : Nat :=
  ds.foldl (fun n d => n * 10 + (d.toNat - 48)) 0

/-- The fraction at the front of a text; empty if there is none. -/
def fraction? (cs : List Char) : Option (List Char × List Char) :=
  match cs with
  | '.' :: rest =>
    let (ds, rest) := digits rest
    if ds.isEmpty then none else some ('.' :: ds, rest)
  | _ => some ([], cs)

def exponent? (cs : List Char) : Option (List Char × List Char) :=
  match cs with
  | e :: rest =>
    if e = 'e' ∨ e = 'E' then
      let (sign, rest) := match rest with
        | '+' :: more => (['+'], more)
        | '-' :: more => (['-'], more)
        | _ => ([], rest)
      let (ds, rest) := digits rest
      if ds.isEmpty then none else some (e :: sign ++ ds, rest)
    else some ([], cs)
  | [] => some ([], cs)

def number? (cs : List Char) : Option (Json × List Char) := do
  let (negative, rest) := match cs with
    | '-' :: more => (true, more)
    | _ => (false, cs)
  let (whole, rest) := digits rest
  if whole.isEmpty ∨ (whole.length > 1 ∧ whole.head? = some '0') then none
  else
    let (fraction, rest) ← fraction? rest
    let (exponent, rest) ← exponent? rest
    let value := digitsValue whole
    if fraction.isEmpty ∧ exponent.isEmpty ∧ ¬(negative ∧ value = 0) then
      return (.int (if negative then -(value : Int) else value), rest)
    else
      let sign := if negative then ['-'] else []
      return (.decimal (String.ofList (sign ++ whole ++ fraction ++ exponent)), rest)

/-! ## Values -/

mutual

def value? : (budget : Nat) → List Char → Option (Json × List Char)
  | 0, _ => none
  | budget + 1, cs =>
    match skipBlanks cs with
    | '"' :: rest => do
      let (s, rest) ← stringBody (budget + 1) [] rest
      return (.str s, rest)
    | '[' :: rest =>
      match skipBlanks rest with
      | ']' :: rest => some (.arr [], rest)
      | rest => itemsBody budget [] rest
    | '\x7b' :: rest =>
      match skipBlanks rest with
      | '\x7d' :: rest => some (.obj [], rest)
      | rest => membersBody budget [] rest
    | 'n' :: 'u' :: 'l' :: 'l' :: rest => some (.null, rest)
    | 't' :: 'r' :: 'u' :: 'e' :: rest => some (.bool true, rest)
    | 'f' :: 'a' :: 'l' :: 's' :: 'e' :: rest => some (.bool false, rest)
    | rest => number? rest

def itemsBody : (budget : Nat) → (found : List Json) → List Char → Option (Json × List Char)
  | 0, _, _ => none
  | budget + 1, found, cs => do
    let (item, rest) ← value? budget cs
    match skipBlanks rest with
    | ',' :: rest => itemsBody budget (item :: found) rest
    | ']' :: rest => return (.arr (item :: found).reverse, rest)
    | _ => none

def membersBody : (budget : Nat) → (found : List (String × Json)) → List Char →
    Option (Json × List Char)
  | 0, _, _ => none
  | budget + 1, found, cs => do
    match skipBlanks cs with
    | '"' :: rest => do
      let (name, rest) ← stringBody (budget + 1) [] rest
      match skipBlanks rest with
      | ':' :: rest => do
        let (item, rest) ← value? budget rest
        match skipBlanks rest with
        | ',' :: rest => membersBody budget ((name, item) :: found) rest
        | '\x7d' :: rest => return (.obj ((name, item) :: found).reverse, rest)
        | _ => none
      | _ => none
    | _ => none

end

def parse? (text : String) : Option Json := do
  let cs := text.toList
  let (v, rest) ← value? (2 * cs.length + 2) cs
  if (skipBlanks rest).isEmpty then return v else none

end ChainIngest.Json
