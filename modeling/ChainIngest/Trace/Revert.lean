import ChainIngest.Abi
import ChainIngest.Trace.Basic
/-!
# Revert reasons

The return data of a failed execution often says why it failed: as an encoded
error text, as a numbered panic, or as bare text.  Where it says nothing, the
tracer's own message stands.
-/

namespace ChainIngest.Trace

def panicText (code : Nat) : String :=
  match code with
  | 0x00 => "generic/unspecified error"
  | 0x01 => "assertion failed"
  | 0x11 => "arithmetic underflow or overflow"
  | 0x12 => "division or modulo by zero"
  | 0x21 => "failed to convert value into enum type"
  | 0x22 => "storage byte array incorrectly encoded"
  | 0x31 => "called \x60.pop()\x60 on an empty array"
  | 0x32 => "array out-of-bounds access"
  | 0x41 => "memory allocation error"
  | 0x51 => "called an invalid internal function"
  | _ => "unknown code"

def panicCode (code : Nat) : String :=
  let digits := Word.hexDigits code
  String.ofList ('0' :: 'x' :: List.replicate (2 - digits.length) '0' ++ digits)

def errorText? : Bytes → Option String
  | 0x08 :: 0xc3 :: 0x79 :: 0xa0 :: body => do
    let text ← Abi.string? body 0
    return "revert: " ++ (if text.isEmpty then "<empty>" else text)
  | _ => none

def panic? : Bytes → Option String
  | 0x4e :: 0x48 :: 0x7b :: 0x71 :: body => do
    let code ← Abi.head? body 0
    return "panic: " ++ panicText code.toNat ++ " (" ++ panicCode code.toNat ++ ")"
  | _ => none

/-- The reason that return data gives: an error text, a panic, or the data itself as text. -/
def reason? (output : Bytes) : Option String :=
  errorText? output <|> panic? output <|> Text.Utf8.decode? output

/-- Why the transaction failed: what a failed root's return data says, else the tracer's
message; none if the root did not fail. -/
def revertReason? (t : CallTrace) : Option String := do
  let root ← t.root?
  let message ← root.error
  match reason? root.output with
  | some text => return if text.isEmpty then message else text
  | none => return message

end ChainIngest.Trace
