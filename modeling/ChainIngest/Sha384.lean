import ChainIngest.Bytes
/-!
# SHA-384

The hash function SHA-384 over byte strings: a message is padded to blocks of 128
bytes, and eighty rounds mix each block into eight 64-bit words, six of which are
the digest.  The constants are the fractions of roots of the first primes.
-/

namespace ChainIngest.Sha384

/-! ## Constants -/

/-- The largest number whose power with the exponent is at most `n`, one bit at a time from
bit `bits - 1` down. -/
def root (exponent n : Nat) (bits : Nat) : Nat :=
  (List.range bits).reverse.foldl
    (fun r b => if (r + 2 ^ b) ^ exponent ≤ n then r + 2 ^ b else r) 0

def isPrime (n : Nat) : Bool :=
  1 < n && (List.range n).all fun d => d < 2 || n % d ≠ 0

def primes : List Nat := (List.range 410).filter isPrime

def fraction (exponent n : Nat) : UInt64 :=
  UInt64.ofNat (root exponent (n * 2 ^ (64 * exponent)) 70)

/-- What the rounds add: the cube roots of the first eighty primes. -/
def roundConstants : List UInt64 := primes.map (fraction 3)

/-- The first state: the square roots of the ninth to the sixteenth prime. -/
def initial : List UInt64 := ((primes.drop 8).take 8).map (fraction 2)

/-! ## Rounds -/

def turn (w amount : UInt64) : UInt64 := (w >>> amount) ||| (w <<< (64 - amount))

def schedule (block : Array UInt64) : Array UInt64 :=
  (List.range 64).foldl (fun words t =>
    let early := words.getD (t + 1) 0
    let late := words.getD (t + 14) 0
    let mixEarly := turn early 1 ^^^ turn early 8 ^^^ (early >>> 7)
    let mixLate := turn late 19 ^^^ turn late 61 ^^^ (late >>> 6)
    words.push (words.getD t 0 + mixEarly + words.getD (t + 9) 0 + mixLate)) block

def round : List UInt64 → UInt64 × UInt64 → List UInt64
  | [a, b, c, d, e, f, g, h], (constant, word) =>
    let choice := (e &&& f) ^^^ ((~~~ e) &&& g)
    let majority := (a &&& b) ^^^ (a &&& c) ^^^ (b &&& c)
    let first := h + (turn e 14 ^^^ turn e 18 ^^^ turn e 41) + choice + constant + word
    let second := (turn a 28 ^^^ turn a 34 ^^^ turn a 39) + majority
    [first + second, a, b, c, d + first, e, f, g]
  | state, _ => state

def compress (state : List UInt64) (block : List UInt64) : List UInt64 :=
  let mixed := (roundConstants.zip (schedule block.toArray).toList).foldl round state
  state.zipWith (· + ·) mixed

/-! ## Messages -/

/-- The message, a mark, zeros up to a whole number of blocks, and the length in bits. -/
def pad (message : Bytes) : Bytes :=
  let zeros := (239 - message.length % 128) % 128
  message ++ 0x80 :: List.replicate zeros 0 ++ Bytes.ofNatBE 16 (8 * message.length)

def wordsOf : Bytes → List UInt64
  | b0 :: b1 :: b2 :: b3 :: b4 :: b5 :: b6 :: b7 :: rest =>
    UInt64.ofNat (Bytes.toNatBE [b0, b1, b2, b3, b4, b5, b6, b7]) :: wordsOf rest
  | _ => []

def absorb (state : List UInt64) : List UInt64 → List UInt64
  | [] => state
  | w :: rest => absorb (compress state ((w :: rest).take 16)) (rest.drop 15)
termination_by words => words.length

def digest (message : Bytes) : Bytes :=
  ((absorb initial (wordsOf (pad message))).take 6).flatMap fun w => Bytes.ofNatBE 8 w.toNat

end ChainIngest.Sha384
