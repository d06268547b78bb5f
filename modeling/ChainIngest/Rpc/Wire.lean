import ChainIngest.Json.Basic
import ChainIngest.Text.Numeral
import ChainIngest.Word
/-!
# Values on the wire

How a node writes numbers, byte strings and records in JSON.  Numbers are plain
or spelled out in a text, byte strings are hexadecimal texts or arrays of bytes,
and a record is an object by member names or an array by member positions.
-/

namespace ChainIngest.Rpc.Wire

/-! ## Numbers -/

/-- A number below a bound: a plain one of at most sixty-four bits, or a marked numeral. -/
def number? (bound : Nat) (j : Json) : Option Nat :=
  let n := match j with
    | .str s => Text.Numeral.ofMarked? s.toList
    | j => j.natural?
  n.filter fun n => n < bound

def quantity? (j : Json) : Option Nat := number? (2 ^ 64) j

def word? (j : Json) : Option Word := (number? Word.bound j).map (BitVec.ofNat 256)

/-- A 32-bit number, the greatest one standing for all that are greater. -/
def clampIndex (n : Nat) : UInt32 := UInt32.ofNat (min n (2 ^ 32 - 1))

/-! ## Byte strings -/

def byte? (j : Json) : Option UInt8 :=
  (j.natural?.filter fun n => n < 256).map UInt8.ofNat

/-- The part of a text after a leading `0x` in either letter case, or the whole text. -/
def dropMark : List Char → List Char
  | '0' :: 'x' :: rest => rest
  | '0' :: 'X' :: rest => rest
  | cs => cs

def bytes? : Json → Option Bytes
  | .str s => Bytes.ofHexChars? (dropMark s.toList)
  | .arr items => items.mapM byte?
  | _ => none

def bytesOf? (length : Nat) (j : Json) : Option Bytes :=
  (bytes? j).filter fun b => b.length = length

def hash? (j : Json) : Option Hash := (bytesOf? 32 j).map Hash.ofBytes

def address? (j : Json) : Option Address := (bytesOf? 20 j).map Address.ofBytes

def list? {α : Type} (item? : Json → Option α) (j : Json) : Option (List α) :=
  j.items?.bind fun items => items.mapM item?

/-! ## Records -/

structure Fields where
  /-- Members by name, no name twice. -/
  found : List (String × Json)
  /-- Whether they were given by position, where only the last may be left out, and only if
  they have a value by default. -/
  placed : Bool

namespace Fields

/-- Finds the named members: in an object by name, each at most once and among any others; in
an array by position. -/
def of? (names : List String) : Json → Option Fields
  | .obj ms =>
    let known := ms.filter fun m => names.contains m.1
    if (known.map Prod.fst).Nodup then some ⟨known, false⟩ else none
  | .arr items => if items.length ≤ names.length then some ⟨names.zip items, true⟩ else none
  | _ => none

def member? (f : Fields) (name : String) : Option Json :=
  (f.found.find? fun m => m.1 = name).map Prod.snd

def required {α : Type} (f : Fields) (name : String) (read? : Json → Option α) : Option α :=
  (f.member? name).bind read?

def optional {α : Type} (f : Fields) (name : String) (read? : Json → Option α) :
    Option (Option α) :=
  match f.member? name with
  | none => if f.placed then none else some none
  | some .null => some none
  | some j => (read? j).map some

/-- A member that may be absent, though not null. -/
def orElse {α : Type} (f : Fields) (name : String) (fallback : α) (read? : Json → Option α) :
    Option α :=
  match f.member? name with
  | none => some fallback
  | some j => read? j

end Fields

end ChainIngest.Rpc.Wire
