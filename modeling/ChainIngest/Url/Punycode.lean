/-!
# Punycode

A label with characters beyond ASCII as an ASCII label: the ASCII characters,
then, in variable-length numbers of base thirty-six, which other characters go
where, smallest character first.  Reading takes the numbers back to characters.
-/

namespace ChainIngest.Url.Punycode

/-- The digit of a value below thirty-six: the letters, then the decimal digits. -/
def digit (n : Nat) : Char := if n < 26 then Char.ofNat (97 + n) else Char.ofNat (22 + n)

def settle : (steps delta k : Nat) → Nat
  | 0, delta, k => k + 36 * delta / (delta + 38)
  | steps + 1, delta, k =>
    if delta > 455 then settle steps (delta / 35) (k + 36) else k + 36 * delta / (delta + 38)

def adapt (delta count : Nat) (first : Bool) : Nat :=
  let delta := if first then delta / 700 else delta / 2
  settle 32 (delta + delta / count) 0

def threshold (bias k : Nat) : Nat := if k ≤ bias then 1 else if bias + 26 ≤ k then 26 else k - bias

def deltaDigits (bias : Nat) : (steps q k : Nat) → List Char
  | 0, q, _ => [digit q]
  | steps + 1, q, k =>
    let t := threshold bias k
    if q < t then [digit q]
    else digit (t + (q - t) % (36 - t)) :: deltaDigits bias steps ((q - t) / (36 - t)) (k + 36)

structure State where
  next : Nat
  /-- What has piled up since the last delta. -/
  delta : Nat
  bias : Nat
  placed : Nat
  out : List Char

def place (point basic : Nat) (st : State) (c : Char) : State :=
  if c.toNat < point then { st with delta := st.delta + 1 }
  else if c.toNat = point then
    { st with
      out := st.out ++ deltaDigits st.bias 64 st.delta 36
      bias := adapt st.delta (st.placed + 1) (st.placed = basic)
      delta := 0
      placed := st.placed + 1 }
  else st

def placeAll (label : List Char) (basic : Nat) (st : State) (point : Nat) : State :=
  let st := { st with delta := st.delta + (point - st.next) * (st.placed + 1) }
  let st := label.foldl (place point basic) st
  { st with delta := st.delta + 1, next := point + 1 }

def encode (label : List Char) : List Char :=
  let ascii := label.filter fun c => c.toNat < 0x80
  let points := ((label.map Char.toNat).filter fun n => 0x80 ≤ n).mergeSort.eraseDups
  let start : State := ⟨0x80, 0, 72, ascii.length, []⟩
  let done := points.foldl (placeAll label ascii.length) start
  ascii ++ (if ascii.isEmpty then [] else ['-']) ++ done.out

/-! ## Reading -/

def value? (c : Char) : Option Nat :=
  if 'a' ≤ c ∧ c ≤ 'z' then some (c.toNat - 97)
  else if c.isDigit then some (c.toNat - 22)
  else none

structure Reader where
  point : Nat
  index : Nat
  bias : Nat
  delta : Nat
  weight : Nat
  position : Nat
  out : List Char

/-- Takes one digit into account; the last one of a delta puts a character in place. -/
def Reader.take (st : Reader) (c : Char) : Option Reader := do
  let d ← value? c
  let delta := st.delta + d * st.weight
  let t := threshold st.bias st.position
  if t ≤ d then
    return { st with
      delta := delta
      weight := st.weight * (36 - t)
      position := st.position + 36 }
  else
    let count := st.out.length + 1
    let target := st.index + delta
    let point := st.point + target / count
    let place := target % count
    if point.isValidChar then
      return {
        point := point
        index := place + 1
        bias := adapt delta count (st.index = 0)
        delta := 0
        weight := 1
        position := 36
        out := st.out.take place ++ Char.ofNat point :: st.out.drop place }
    else none

/-- The label that an ASCII label without its mark stands for, all in lower case. -/
def decode? (label : List Char) : Option (List Char) := do
  let digits := (label.reverse.takeWhile (· ≠ '-')).reverse
  let ascii := label.take (label.length - digits.length - 1)
  let digits := if ascii.isEmpty then label else digits
  if ascii.any fun c => 0x80 ≤ c.toNat then none
  else
    let done ← digits.foldlM Reader.take ⟨0x80, 0, 72, 0, 1, 36, ascii⟩
    if done.position = 36 then return done.out else none

end ChainIngest.Url.Punycode
