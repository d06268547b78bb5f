import ChainIngest.Json.Parser
/-!
# Envelopes

The object around a node's answer: a result, kept as the very text that stands
there, or an error with its code and message.
-/

namespace ChainIngest.Rpc

inductive Payload where
  /-- A result, by its text. -/
  | result (text : String)
  | refusal (code : Int) (message : String)
deriving DecidableEq, Inhabited

namespace Envelope

/-- The members of an object with the texts of their values, in order; `found` holds those
read, last first.  What follows the object is returned with them. -/
def members? : (budget : Nat) → (found : List (String × String)) → List Char →
    Option (List (String × String) × List Char)
  | 0, _, _ => none
  | budget + 1, found, cs =>
    match Json.skipBlanks cs with
    | '"' :: rest => do
      let (name, rest) ← Json.stringBody (rest.length + 1) [] rest
      match Json.skipBlanks rest with
      | ':' :: rest => do
        let start := Json.skipBlanks rest
        let (_, rest) ← Json.value? (2 * start.length + 2) start
        let text := String.ofList (start.take (start.length - rest.length))
        match Json.skipBlanks rest with
        | ',' :: rest => members? budget ((name, text) :: found) rest
        | '\x7d' :: rest => return (((name, text) :: found).reverse, rest)
        | _ => none
      | _ => none
    | _ => none

def object? (body : String) : Option (List (String × String)) :=
  match Json.skipBlanks body.toList with
  | '\x7b' :: rest => do
    let (ms, rest) ← members? (rest.length + 1) [] rest
    if (Json.skipBlanks rest).isEmpty then return ms else none
  | _ => none

def member? (ms : List (String × String)) (name : String) : Option String :=
  (ms.find? fun m => m.1 = name).map Prod.snd

def refusal? (text : String) : Option Payload := do
  let error ← Json.parse? text
  match error.field? "code", error.field? "message" with
  | some (.int code), some (.str message) => return .refusal code message
  | _, _ => none

/-- The payload of a body; a result and an error exclude each other. -/
def payload? (body : String) : Option Payload := do
  let ms ← object? body
  match member? ms "result", member? ms "error" with
  | some text, none => return .result text
  | none, some text => refusal? text
  | _, _ => none

end Envelope

end ChainIngest.Rpc
