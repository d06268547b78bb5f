import ChainIngest.Url.Percent
import ChainIngest.Url.Punycode
/-!
# Hosts

The host of a URL is a name, an address of four bytes or an address of eight
pieces.  Outside the web's own schemes a name is taken as it is.
-/

namespace ChainIngest

inductive UrlError where
  | emptyHost
  | domainName
  | port
  | ipv4Address
  | ipv6Address
  | domainCharacter
  | relative
deriving DecidableEq, Inhabited

namespace UrlError

def message : UrlError → String
  | .emptyHost => "empty host"
  | .domainName => "invalid international domain name"
  | .port => "invalid port number"
  | .ipv4Address => "invalid IPv4 address"
  | .ipv6Address => "invalid IPv6 address"
  | .domainCharacter => "invalid domain character"
  | .relative => "relative URL without a base"

end UrlError

namespace Url

inductive Host where
  | name (text : String)
  /-- An address of four bytes, as a number. -/
  | ipv4 (address : Nat)
  | ipv6 (pieces : List Nat)
deriving DecidableEq, Inhabited

namespace Host

/-! ## Pieces of text -/

def splitAt (mark : Char) : List Char → List (List Char)
  | [] => [[]]
  | c :: rest =>
    if c = mark then [] :: splitAt mark rest
    else
      match splitAt mark rest with
      | first :: more => (c :: first) :: more
      | [] => [[c]]

def number? (base : Nat) (cs : List Char) : Option Nat :=
  cs.foldlM (fun n c => (Bytes.hexValue? c).bind fun d =>
    if d < base then some (n * base + d) else none) 0

/-! ## Addresses of four bytes -/

/-- A part of an address: decimal, octal after a zero, hexadecimal after `0x`. -/
def ipv4Part? : List Char → Option Nat
  | [] => none
  | '0' :: 'x' :: rest => number? 16 rest
  | '0' :: 'X' :: rest => number? 16 rest
  | '0' :: c :: rest => number? 8 (c :: rest)
  | cs => number? 10 cs

/-- Whether a name ends in a number, and so can only be an address. -/
def endsInNumber (name : List Char) : Bool :=
  let parts := (splitAt '.' name).reverse
  let last := match parts with
    | [] :: before :: _ => before
    | [] :: [] => []
    | part :: _ => part
    | [] => []
  (!last.isEmpty && last.all Char.isDigit) || (ipv4Part? last).isSome

/-- The address of up to four parts, the last of which fills the bytes that remain. -/
def ipv4? (name : List Char) : Option Nat := do
  let parts := splitAt '.' name
  let parts := if parts.getLast? = some [] then parts.dropLast else parts
  if parts.length > 4 then none
  else
    let numbers ← parts.mapM ipv4Part?
    let last ← numbers.getLast?
    let before := numbers.dropLast
    if last < 256 ^ (4 - before.length) ∧ before.all (· < 256) then
      return before.zipIdx.foldl (fun sum p => sum + p.1 * 256 ^ (3 - p.2)) last
    else none

def ipv4Text (address : Nat) : String :=
  String.intercalate "." ((Bytes.ofNatBE 4 address).map fun b => toString b.toNat)

/-! ## Addresses of eight pieces -/

def piece? (cs : List Char) : Option Nat :=
  if cs.isEmpty ∨ 4 < cs.length then none else number? 16 cs

def byte? (cs : List Char) : Option Nat :=
  if cs.isEmpty ∨ (cs.length > 1 ∧ cs.head? = some '0') then none
  else (number? 10 cs).filter (· < 256)

/-- The last group of an address: a piece, or four bytes in decimal that make two pieces. -/
def lastGroup? (cs : List Char) : Option (List Nat) :=
  if cs.contains '.' then do
    match ← (splitAt '.' cs).mapM byte? with
    | [a, b, c, d] => return [a * 256 + b, c * 256 + d]
    | _ => none
  else (piece? cs).map fun p => [p]

/-- Groups with colons between them; none at all are no groups. -/
def groups? (closing : Bool) (cs : List Char) : Option (List Nat) :=
  if cs.isEmpty then some []
  else do
    let parts := splitAt ':' cs
    let last ← parts.getLast?
    let before ← parts.dropLast.mapM piece?
    let tail ← if closing then lastGroup? last else (piece? last).map fun p => [p]
    return before ++ tail

def splitGap : List Char → Option (List Char × List Char)
  | ':' :: ':' :: rest => some ([], rest)
  | c :: rest => (splitGap rest).map fun p => (c :: p.1, p.2)
  | [] => none

/-- The address of eight pieces, a gap standing for those that are missing. -/
def ipv6? (cs : List Char) : Option (List Nat) := do
  match splitGap cs with
  | some (before, after) =>
    let left ← groups? false before
    let right ← groups? true after
    if left.length + right.length ≤ 7 then
      return left ++ List.replicate (8 - left.length - right.length) 0 ++ right
    else none
  | none => (groups? true cs).filter fun pieces => pieces.length = 8

def zeroRun (pieces : List Nat) : Nat := (pieces.takeWhile (· = 0)).length

/-- Where the first longest run of zeros starts and how long it is. -/
def longestRun : (start : Nat) → List Nat → Nat × Nat
  | start, [] => (start, 0)
  | start, p :: rest =>
    let here := zeroRun (p :: rest)
    let later := longestRun (start + 1) rest
    if here ≥ later.2 then (start, here) else later

def piecesText (pieces : List Nat) : String :=
  String.intercalate ":" (pieces.map fun p => String.ofList (Nat.toDigits 16 p))

/-- Eight pieces, the first longest run of at least two zeros left out. -/
def ipv6Text (pieces : List Nat) : String :=
  let (start, length) := longestRun 0 pieces
  if length < 2 then piecesText pieces
  else piecesText (pieces.take start) ++ "::" ++ piecesText (pieces.drop (start + length))

/-! ## Names -/

def forbidden (c : Char) : Bool :=
  ['\x00', '\t', '\n', '\x0d', ' ', '#', '/', ':', '<', '>', '?', '@', '[', '\\', ']', '^',
    '|'].contains c

def forbiddenInDomain (c : Char) : Bool :=
  forbidden c || c = '%' || c.toNat < 0x20 || (0x7f ≤ c.toNat && c.toNat ≤ 0x9f) ||
    c = Char.ofNat 0xfffd

/-- The characters that a character beyond ASCII stands for: wide forms for the narrow ones,
capitals of the common alphabets for small letters, some for nothing. -/
def foldWide (c : Char) : List Char :=
  let n := c.toNat
  if n = 0x3002 ∨ n = 0xff0e ∨ n = 0xff61 then ['.']
  else if 0xff01 ≤ n ∧ n ≤ 0xff5e then [(Char.ofNat (n - 0xfee0)).toLower]
  else if n = 0xad ∨ n = 0x200b ∨ n = 0x2060 ∨ n = 0xfeff then []
  else if (0xc0 ≤ n ∧ n ≤ 0xde ∧ n ≠ 0xd7) ∨ (0x391 ≤ n ∧ n ≤ 0x3a9) ∨ (0x410 ≤ n ∧ n ≤ 0x42f) then
    [Char.ofNat (n + 32)]
  else if 0x400 ≤ n ∧ n ≤ 0x40f then [Char.ofNat (n + 80)]
  else [c]

def isWide (c : Char) : Bool := 0x80 ≤ c.toNat

/-- A label of a name in ASCII.  One that is announced as such already has to stand for a label
with characters beyond ASCII that fold to themselves. -/
def asciiLabel? : List Char → Option (List Char)
  | 'x' :: 'n' :: '-' :: '-' :: rest =>
    (Punycode.decode? rest).bind fun label =>
      if label.any isWide ∧
          label.all fun c => !forbiddenInDomain c && (!isWide c || foldWide c = [c]) then
        some ('x' :: 'n' :: '-' :: '-' :: rest)
      else none
  | label =>
    some (if label.any isWide then ['x', 'n', '-', '-'] ++ Punycode.encode label else label)

def domain? (cs : List Char) : Except UrlError (List Char) :=
  match Text.Utf8.decode? (Percent.decode cs) with
  | none => .error .domainName
  | some text =>
    let folded := text.toList.flatMap fun c => if isWide c then foldWide c else [c.toLower]
    if folded.any forbiddenInDomain then .error .domainName
    else
      match (splitAt '.' folded).mapM asciiLabel? with
      | some labels => .ok (List.intercalate ['.'] labels)
      | none => .error .domainName

def bracketed? (cs : List Char) : Option (Except UrlError Host) :=
  match cs with
  | '[' :: rest =>
    some (match rest.getLast?, ipv6? rest.dropLast with
      | some ']', some pieces => .ok (.ipv6 pieces)
      | _, _ => .error .ipv6Address)
  | _ => none

def web (cs : List Char) : Except UrlError Host :=
  match bracketed? cs with
  | some r => r
  | none => do
    let name ← domain? cs
    if name.isEmpty then throw .emptyHost
    else if endsInNumber name then
      match ipv4? name with
      | some address => return .ipv4 address
      | none => throw .ipv4Address
    else return .name (String.ofList name)

def plain (cs : List Char) : Except UrlError Host :=
  match bracketed? cs with
  | some r => r
  | none =>
    if cs.any forbidden then .error .domainCharacter
    else .ok (.name (String.ofList (Percent.encode Percent.control cs)))

def text : Host → String
  | name t => t
  | ipv4 address => ipv4Text address
  | ipv6 pieces => "[" ++ ipv6Text pieces ++ "]"

end Host

end Url

end ChainIngest
