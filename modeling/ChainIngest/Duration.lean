import ChainIngest.Power
/-!
# Durations

A duration is a count of nanoseconds.  Scaling stops at the longest duration
that 64-bit seconds and a nanosecond fraction can hold.
-/

namespace ChainIngest

/-- A span of time in nanoseconds. -/
structure Duration where
  nanos : Nat
deriving DecidableEq, Inhabited

namespace Duration

def zero : Duration := ⟨0⟩

def ofMillis (n : Nat) : Duration := ⟨n * 1000000⟩

def ofSeconds (n : Nat) : Duration := ⟨n * 1000000000⟩

def millis (d : Duration) : Nat := d.nanos / 1000000

def longest : Duration := ⟨2 ^ 64 * 1000000000 - 1⟩

/-- A multiple of a span, at most the longest one. -/
def scale (d : Duration) (factor : Nat) : Duration :=
  ⟨min (d.nanos * factor) longest.nanos⟩

def shorter (a b : Duration) : Duration :=
  if b.nanos < a.nanos then b else a

def plus (a b : Duration) : Duration := ⟨a.nanos + b.nanos⟩

/-! ## Text -/

/-- The digits of `fraction`, a number below `10 ^ places`, after a decimal point and
without trailing zeros; nothing for zero. -/
def fractionText : (places fraction : Nat) → String
  | 0, _ => ""
  | places + 1, fraction =>
    if fraction = 0 then ""
    else if fraction % 10 = 0 then fractionText places (fraction / 10)
    else
      let digits := Nat.toDigits 10 fraction
      String.ofList ('.' :: List.replicate (places + 1 - digits.length) '0' ++ digits)

/-- A span in the largest of the units s, ms, µs and ns that it fills. -/
def text (d : Duration) : String :=
  let n := d.nanos
  if 1000000000 ≤ n then
    toString (n / 1000000000) ++ fractionText 9 (n % 1000000000) ++ "s"
  else if 1000000 ≤ n then
    toString (n / 1000000) ++ fractionText 6 (n % 1000000) ++ "ms"
  else if 1000 ≤ n then
    toString (n / 1000) ++ fractionText 3 (n % 1000) ++ "µs"
  else
    toString n ++ "ns"

instance : ToString Duration := ⟨text⟩

end Duration

end ChainIngest
