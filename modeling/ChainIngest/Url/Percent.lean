import ChainIngest.Text.Utf8
/-!
# Percent encoding

Characters that may not stand for themselves are spelled byte by byte, each byte
as a percent sign and two hexadecimal digits.
-/

namespace ChainIngest.Url.Percent

def upperDigit (n : Nat) : Char := (Bytes.hexDigit n).toUpper

def encodeByte (b : UInt8) : List Char :=
  ['%', upperDigit (b.toNat / 16), upperDigit (b.toNat % 16)]

def encodeChar (hidden : Char → Bool) (c : Char) : List Char :=
  if hidden c then (Text.Utf8.encode (String.ofList [c])).flatMap encodeByte else [c]

def encode (hidden : Char → Bool) (cs : List Char) : List Char :=
  cs.flatMap (encodeChar hidden)

/-- The bytes of a text; a percent sign that no two digits follow stands for itself. -/
def decode : List Char → Bytes
  | '%' :: hi :: lo :: rest =>
    match Bytes.hexValue? hi, Bytes.hexValue? lo with
    | some h, some l => UInt8.ofNat (16 * h + l) :: decode rest
    | _, _ => Text.Utf8.encode "%" ++ decode (hi :: lo :: rest)
  | c :: rest => Text.Utf8.encode (String.ofList [c]) ++ decode rest
  | [] => []

/-! ## The sets -/

/-- Control characters, and everything that is not ASCII. -/
def control (c : Char) : Bool := c.toNat < 0x20 || 0x7f ≤ c.toNat

def inFragment (c : Char) : Bool := control c || [' ', '"', '<', '>', '\x60'].contains c

def inPath (c : Char) : Bool := inFragment c || ['#', '?', '\x7b', '\x7d'].contains c

def inUserinfo (c : Char) : Bool :=
  inPath c || ['/', ':', ';', '=', '@', '[', '\\', ']', '^', '|'].contains c

def inQuery (c : Char) : Bool := control c || [' ', '"', '#', '<', '>'].contains c

def inSpecialQuery (c : Char) : Bool := inQuery c || c = '\''

end ChainIngest.Url.Percent
