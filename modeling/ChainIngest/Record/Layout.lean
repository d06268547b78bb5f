import ChainIngest.Word
/-!
# Binary layouts

A layout writes values of a type as bytes and reads them back from the front of
a byte string, leaving the rest.  It is exact when reading succeeds on precisely
the strings that begin with a written value; composing exact layouts gives exact
layouts.  Numbers are little-endian, and whatever varies in length is preceded
by its length in eight bytes.
-/

namespace ChainIngest.Record

structure Layout (α : Type) where
  write : α → Bytes
  /-- A value at the front of a byte string, and what follows it. -/
  read : Bytes → Option (α × Bytes)

namespace Layout

/-- Reading undoes writing, and nothing else can be read. -/
structure Exact {α : Type} (l : Layout α) : Prop where
  /-- What was written is read back, whatever follows. -/
  read_write : ∀ a rest, l.read (l.write a ++ rest) = some (a, rest)
  eq_write : ∀ {b a rest}, l.read b = some (a, rest) → b = l.write a ++ rest

/-! ## Numbers -/

def split? (count : Nat) (b : Bytes) : Option (Bytes × Bytes) :=
  let front := b.take count
  if front.length = count then some (front, b.drop count) else none

theorem split?_append {count : Nat} {a : Bytes} (h : a.length = count) (rest : Bytes) :
    split? count (a ++ rest) = some (a, rest) := by
  subst h
  simp [split?]

theorem eq_append_of_split? {count : Nat} {b a rest : Bytes} (h : split? count b = some (a, rest)) :
    b = a ++ rest ∧ a.length = count := by
  simp only [split?] at h
  split at h
  · next hlen =>
    simp only [Option.some.injEq, Prod.mk.injEq] at h
    obtain ⟨rfl, rfl⟩ := h
    exact ⟨(List.take_append_drop ..).symm, hlen⟩
  · exact absurd h (by simp)

def uint16 : Layout UInt16 where
  write n := Bytes.ofNatLE 2 n.toNat
  read b := (split? 2 b).map fun (front, rest) => (UInt16.ofNat front.toNatLE, rest)

def uint32 : Layout UInt32 where
  write n := Bytes.ofNatLE 4 n.toNat
  read b := (split? 4 b).map fun (front, rest) => (UInt32.ofNat front.toNatLE, rest)

def count : Layout Nat where
  write n := Bytes.ofNatLE 8 n
  read b := (split? 8 b).map fun (front, rest) => (front.toNatLE, rest)

/-! ## Byte strings -/

def blob : Layout Bytes where
  write b := count.write b.length ++ b
  read b := do
    let (n, rest) ← count.read b
    split? n rest

/-- A value of exactly `width` bytes, after that length. -/
def fixed {α : Type} (width : Nat) (toBytes : α → Bytes) (ofBytes : Bytes → α) : Layout α where
  write a := blob.write (toBytes a)
  read b := do
    let (content, rest) ← blob.read b
    if content.length = width then return (ofBytes content, rest) else none

def hash : Layout Hash := fixed 32 Hash.toBytes Hash.ofBytes

def address : Layout Address := fixed 20 Address.toBytes Address.ofBytes

/-- A word, most significant byte first. -/
def word : Layout Word := fixed 32 Word.toBytes Word.ofBytes

/-! ## Choices and sequences -/

/-- One of finitely many values, as its place in their list. -/
def choice {α : Type} [BEq α] (all : List α) : Layout α where
  write a := uint32.write (UInt32.ofNat (all.idxOf a))
  read b := do
    let (place, rest) ← uint32.read b
    let a ← all[place.toNat]?
    return (a, rest)

def readMany {α : Type} (l : Layout α) : (n : Nat) → Bytes → Option (List α × Bytes)
  | 0, b => some ([], b)
  | n + 1, b => do
    let (a, rest) ← l.read b
    let (others, rest) ← readMany l n rest
    return (a :: others, rest)

def list {α : Type} (l : Layout α) : Layout (List α) where
  write as := count.write as.length ++ as.flatMap l.write
  read b := do
    let (n, rest) ← count.read b
    readMany l n rest

def pair {α β : Type} (first : Layout α) (second : Layout β) : Layout (α × β) where
  write ab := first.write ab.1 ++ second.write ab.2
  read b := do
    let (x, rest) ← first.read b
    let (y, rest) ← second.read rest
    return ((x, y), rest)

/-- The layout of a type whose values correspond to those of another. -/
def via {α β : Type} (l : Layout α) (toBase : β → α) (ofBase : α → β) : Layout β where
  write b := l.write (toBase b)
  read bytes := (l.read bytes).map fun (a, rest) => (ofBase a, rest)

end Layout

end ChainIngest.Record
