import ChainIngest.Bytes
/-!
# Words, addresses and hashes

The 256-bit word is the number type of the chain: unsigned amounts wrap or
saturate as each operation says, and a signed amount is the same word read in
two's complement.  Addresses and hashes are fixed-width byte strings, kept as
bit vectors so that their order is the order of their bytes.
-/

namespace ChainIngest

/-! ## Words -/

abbrev Word := BitVec 256

namespace Word

def bound : Nat := 2 ^ 256

/-- The word nearest to `n`: `n` itself, or the largest word when `n` does not fit. -/
def clamp (n : Nat) : Word :=
  BitVec.ofNat 256 (min n (bound - 1))

def satAdd (a b : Word) : Word := clamp (a.toNat + b.toNat)

def satMul (a b : Word) : Word := clamp (a.toNat * b.toNat)

def satSub (a b : Word) : Word := BitVec.ofNat 256 (a.toNat - b.toNat)

def ofBytes (b : Bytes) : Word := BitVec.ofNat 256 b.toNatBE

def toBytes (w : Word) : Bytes := Bytes.ofNatBE 32 w.toNat

/-- A number's hexadecimal digits without leading zeros; zero has one digit. -/
def hexDigits (n : Nat) : List Char := Nat.toDigits 16 n

/-- An unsigned word as text: `0x` and the shortest lower-case digits. -/
def hexText (w : Word) : String :=
  String.ofList ('0' :: 'x' :: hexDigits w.toNat)

def signedText (w : Word) : String :=
  toString w.toInt

theorem toNat_clamp (n : Nat) : (clamp n).toNat = min n (bound - 1) := by
  simp only [clamp, BitVec.toNat_ofNat, bound]
  omega

theorem toNat_satAdd (a b : Word) : (satAdd a b).toNat = min (a.toNat + b.toNat) (bound - 1) :=
  toNat_clamp _

theorem toNat_satMul (a b : Word) : (satMul a b).toNat = min (a.toNat * b.toNat) (bound - 1) :=
  toNat_clamp _

theorem toNat_satSub (a b : Word) : (satSub a b).toNat = a.toNat - b.toNat := by
  have := a.isLt
  simp only [satSub, BitVec.toNat_ofNat]
  omega

@[simp] theorem length_toBytes (w : Word) : w.toBytes.length = 32 := by
  simp [toBytes]

theorem ofBytes_toBytes (w : Word) : ofBytes w.toBytes = w := by
  apply BitVec.eq_of_toNat_eq
  have := w.isLt
  simp only [ofBytes, toBytes, Bytes.toNatBE_ofNatBE, BitVec.toNat_ofNat]
  omega

theorem toBytes_ofBytes {b : Bytes} (h : b.length = 32) : (ofBytes b).toBytes = b := by
  have hlt := Bytes.toNatBE_lt b
  have hback := Bytes.ofNatBE_toNatBE b
  rw [h] at hlt hback
  have hmod : b.toNatBE % 2 ^ 256 = b.toNatBE := by omega
  simp only [ofBytes, toBytes, BitVec.toNat_ofNat, hmod, hback]

end Word

/-! ## Hashes -/

structure Hash where
  /-- The hash as a number, first byte most significant. -/
  word : BitVec 256
deriving DecidableEq, Inhabited

namespace Hash

def zero : Hash := ⟨0⟩

def ofBytes (b : Bytes) : Hash := ⟨Word.ofBytes b⟩

def toBytes (h : Hash) : Bytes := Word.toBytes h.word

def text (h : Hash) : String := h.toBytes.toHex

instance : ToString Hash := ⟨text⟩

@[simp] theorem length_toBytes (h : Hash) : h.toBytes.length = 32 := Word.length_toBytes _

theorem ofBytes_toBytes (h : Hash) : ofBytes h.toBytes = h := by
  simp [ofBytes, toBytes, Word.ofBytes_toBytes]

theorem toBytes_ofBytes {b : Bytes} (h : b.length = 32) : (ofBytes b).toBytes = b :=
  Word.toBytes_ofBytes h

end Hash

/-! ## Addresses -/

structure Address where
  /-- The address as a number, first byte most significant. -/
  word : BitVec 160
deriving DecidableEq, Inhabited

namespace Address

def zero : Address := ⟨0⟩

def ofBytes (b : Bytes) : Address := ⟨BitVec.ofNat 160 b.toNatBE⟩

def toBytes (a : Address) : Bytes := Bytes.ofNatBE 20 a.word.toNat

def ofWord (w : Word) : Address := ⟨w.setWidth 160⟩

def text (a : Address) : String := a.toBytes.toHex

instance : ToString Address := ⟨text⟩

@[simp] theorem length_toBytes (a : Address) : a.toBytes.length = 20 := by
  simp [toBytes]

theorem ofBytes_toBytes (a : Address) : ofBytes a.toBytes = a := by
  have := a.word.isLt
  have hword : BitVec.ofNat 160 a.toBytes.toNatBE = a.word := by
    apply BitVec.eq_of_toNat_eq
    simp only [toBytes, Bytes.toNatBE_ofNatBE, BitVec.toNat_ofNat]
    omega
  simp [ofBytes, hword]

theorem toBytes_ofBytes {b : Bytes} (h : b.length = 20) : (ofBytes b).toBytes = b := by
  have hlt := Bytes.toNatBE_lt b
  have hback := Bytes.ofNatBE_toNatBE b
  rw [h] at hlt hback
  have hmod : b.toNatBE % 2 ^ 160 = b.toNatBE := by omega
  simp only [ofBytes, toBytes, BitVec.toNat_ofNat, hmod, hback]

end Address

end ChainIngest
