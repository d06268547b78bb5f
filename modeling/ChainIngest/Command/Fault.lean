import ChainIngest.Json.Report
import ChainIngest.Text.Quoted
/-!
# Faults of the program

What the program says when it fails: what it was doing, and below that the causes
from the outermost to the innermost.
-/

namespace ChainIngest

/-! ## Causes -/

/-- The errors that an error wraps, the outermost first, each in its own words. -/
def IngestError.causes : IngestError → List String
  | .fatal _ _ cause => cause.message :: cause.causes
  | e => e.source.toList

/-! ## Errors as values -/

def StoreError.describe (e : StoreError) : String :=
  e.fault.label ++ "(" ++ Text.Quoted.encode e.detail ++ ")"

def NodeError.describe : NodeError → String
  | .timeout operation after =>
    "Timeout \x7b operation: " ++ Text.Quoted.encode operation ++ s!", after: {after} " ++ "\x7d"
  | .unavailable detail => "Unavailable(" ++ Text.Quoted.encode detail ++ ")"
  | .notFound detail => "NotFound(" ++ Text.Quoted.encode detail ++ ")"
  | .invalidResponse detail => "InvalidResponse(" ++ Text.Quoted.encode detail ++ ")"

def RecordError.describe : RecordError → String
  | .empty => "Empty"
  | .unexpectedTag found expected name =>
    s!"UnexpectedTag \x7b expected: {expected.toNat}, found: {found.toNat}, name: " ++
      Text.Quoted.encode name ++ " \x7d"
  | .malformed => "Malformed"

def IngestError.describe : IngestError → String
  | .malformedTrace txHash reason =>
    s!"Extraction(MalformedTrace \x7b tx_hash: {txHash}, reason: " ++ Text.Quoted.encode reason ++
      " \x7d)"
  | .store e => "Storage(" ++ e.describe ++ ")"
  | .node e => "Node(" ++ e.describe ++ ")"
  | .record e => "Codec(" ++ e.describe ++ ")"
  | .conservation block expected actual =>
    s!"ConservationViolated \x7b number: {block.number}, hash: {block.hash}, expected: " ++
      Word.signedText expected ++ ", actual: " ++ Word.signedText actual ++ " \x7d"
  | .reorgTooDeep block depth limit =>
    s!"ReorgTooDeep \x7b number: {block.number}, hash: {block.hash}, depth: {depth}, " ++
      s!"max: {limit} \x7d"
  | .fatal block attempts cause =>
    s!"Fatal \x7b number: {block.number}, hash: {block.hash}, attempts: {attempts}, source: " ++
      cause.describe ++ " \x7d"
  | .chainMismatch connected expected =>
    s!"ChainMismatch \x7b connected: {connected}, expected: {expected} \x7d"
  | .config detail => "ConfigError(" ++ Text.Quoted.encode detail ++ ")"
  | .shutdown => "ShutdownRequested"
  | .internal detail => "Internal(" ++ Text.Quoted.encode detail ++ ")"

namespace Command

/-! ## Faults -/

structure Fault where
  message : String
  /-- What made it fail, the outermost cause first. -/
  causes : List String
deriving DecidableEq, Inhabited

namespace Fault

def plain (message : String) : Fault := ⟨message, []⟩

def ofStore (doing : String) (e : StoreError) : Fault := ⟨doing, [e.message]⟩

def ofNode (doing : String) (e : NodeError) : Fault := ⟨doing, [e.message]⟩

def ofIngest (e : IngestError) : Fault := ⟨e.message, e.causes⟩

/-- A cause after its number, or after as many blanks; further lines are set below the first. -/
def item (opening : String) (text : String) : String :=
  let indent := "\n".pushn ' ' opening.length
  opening ++ indent.intercalate (text.splitOn "\n")

def listing : List String → List String
  | [] => []
  | [cause] => [item "    " cause]
  | causes => causes.zipIdx.map fun c =>
    let number := toString c.2
    item ("".pushn ' ' (5 - number.length) ++ number ++ ": ") c.1

def text (f : Fault) : String :=
  match listing f.causes with
  | [] => f.message
  | items => f.message ++ "\n\nCaused by:\n" ++ "\n".intercalate items

end Fault

end Command

end ChainIngest
