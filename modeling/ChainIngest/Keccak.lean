import ChainIngest.Word
/-!
# Keccak-256

The hash that names blocks, transactions, bytecodes and event signatures: a
sponge over 25 lanes of 64 bits that absorbs 136 bytes at a time and pads with
`0x01 … 0x80`.
-/

namespace ChainIngest.Keccak

/-- The sponge state: lane `x + 5 * y` stands in column `x` of row `y`. -/
abbrev Lanes := Vector UInt64 25

def rate : Nat := 136

def lane (s : Lanes) (x y : Nat) : UInt64 :=
  s.get ⟨x % 5 + 5 * (y % 5), by omega⟩

def tabulate (f : Nat → Nat → UInt64) : Lanes :=
  Vector.ofFn fun i => f (i.val % 5) (i.val / 5)

def rotate (w amount : UInt64) : UInt64 :=
  if amount = 0 then w else (w <<< amount) ||| (w >>> (64 - amount))

/-- Rotation amounts, indexed like lanes. -/
def offsets : Lanes :=
  #v[0, 1, 62, 28, 27, 36, 44, 6, 55, 20, 3, 10, 43, 25, 39, 41, 45, 15, 21, 8, 18, 2, 61, 56, 14]

def roundConstants : List UInt64 :=
  [0x0000000000000001, 0x0000000000008082, 0x800000000000808a, 0x8000000080008000,
   0x000000000000808b, 0x0000000080000001, 0x8000000080008081, 0x8000000000008009,
   0x000000000000008a, 0x0000000000000088, 0x0000000080008009, 0x000000008000000a,
   0x000000008000808b, 0x800000000000008b, 0x8000000000008089, 0x8000000000008003,
   0x8000000000008002, 0x8000000000000080, 0x000000000000800a, 0x800000008000000a,
   0x8000000080008081, 0x8000000000008080, 0x0000000080000001, 0x8000000080008008]

/-! ## The permutation -/

def columnParity (s : Lanes) (x : Nat) : UInt64 :=
  lane s x 0 ^^^ lane s x 1 ^^^ lane s x 2 ^^^ lane s x 3 ^^^ lane s x 4

/-- Every lane takes up the parities of its two neighbouring columns. -/
def mixColumns (s : Lanes) : Lanes :=
  let parity : Vector UInt64 5 := Vector.ofFn fun x => columnParity s x.val
  let change : Vector UInt64 5 := Vector.ofFn fun x =>
    parity.get ⟨(x.val + 4) % 5, by omega⟩ ^^^ rotate (parity.get ⟨(x.val + 1) % 5, by omega⟩) 1
  Vector.ofFn fun i => s.get i ^^^ change.get ⟨i.val % 5, by omega⟩

def scatter (s : Lanes) : Lanes :=
  tabulate fun x y => rotate (lane s (x + 3 * y) x) (lane offsets (x + 3 * y) x)

def mixRows (s : Lanes) : Lanes :=
  tabulate fun x y => lane s x y ^^^ (~~~lane s (x + 1) y &&& lane s (x + 2) y)

def round (s : Lanes) (constant : UInt64) : Lanes :=
  let mixed := mixRows (scatter (mixColumns s))
  mixed.set 0 (mixed.get 0 ^^^ constant)

def permute (s : Lanes) : Lanes :=
  roundConstants.foldl round s

/-! ## The sponge -/

/-- The message followed by its padding up to a multiple of the rate. -/
def pad (message : Bytes) : Bytes :=
  let gap := rate - message.length % rate
  if gap = 1 then message ++ [0x81]
  else message ++ 0x01 :: List.replicate (gap - 2) 0 ++ [0x80]

/-- The little-endian lanes of a byte string; a last partial lane counts its missing bytes as zero. -/
def lanesOf : Bytes → List UInt64
  | [] => []
  | b :: rest =>
    UInt64.ofNat (Bytes.toNatLE ((b :: rest).take 8)) :: lanesOf (rest.drop 7)
termination_by b => b.length

def absorbBlock (s : Lanes) (block : List UInt64) : Lanes :=
  permute (Vector.ofFn fun i => s.get i ^^^ block.getD i.val 0)

def absorb (s : Lanes) : List UInt64 → Lanes
  | [] => s
  | w :: rest => absorb (absorbBlock s ((w :: rest).take 17)) (rest.drop 16)
termination_by lanes => lanes.length

def digest (message : Bytes) : Bytes :=
  let final := absorb (Vector.replicate 25 0) (lanesOf (pad message))
  (final.toList.take 4).flatMap fun w => Bytes.ofNatLE 8 w.toNat

end ChainIngest.Keccak

namespace ChainIngest

def keccak256 (message : Bytes) : Hash :=
  Hash.ofBytes (Keccak.digest message)

def keccakText (text : String) : Hash :=
  keccak256 text.toUTF8.data.toList

end ChainIngest
