import ChainIngest.Balance.Schedule
import ChainIngest.Capability.Detect
import ChainIngest.Json.Basic
import ChainIngest.Trace.Basic
/-!
# Fixtures

Sample data is written in JSON with abbreviations: an address or a hash may be
given by one byte that fills it, a byte string by a piece and a count, a number
as a number or as text, and what is left out has a plain default.
-/

namespace ChainIngest.Scripted.Fixture

/-! ## Reading -/

abbrev Read (α : Type) := Except String α

def refuse {α : Type} (what : String) : Read α := .error what

def require {α : Type} (what : String) : Option α → Read α
  | some a => .ok a
  | none => .error what

/-- The value of a member; null if it is missing. -/
def member (j : Json) (name : String) : Json := (j.field? name).getD .null

def optional {α : Type} (f : Json → Read α) (j : Json) : Read (Option α) :=
  match j with
  | .null => .ok none
  | _ => some <$> f j

def orDefault {α : Type} (fallback : α) (f : Json → Read α) (j : Json) : Read α :=
  match j with
  | .null => .ok fallback
  | _ => f j

/-! ## Scalars -/

def readStr (j : Json) : Read String := require "string" j.string?

def readArr (j : Json) : Read (List Json) := orDefault [] (fun j => require "array" j.items?) j

def listOf {α : Type} (f : Json → Read α) (j : Json) : Read (List α) := do
  (← readArr j).mapM f

def readNat (j : Json) : Read Nat := orDefault 0 (fun j => require "integer" j.natural?) j

def readInt (j : Json) : Read Int :=
  match j with
  | .null => .ok 0
  | .int n => .ok n
  | _ => refuse "integer"

def readBool (fallback : Bool) (j : Json) : Read Bool :=
  orDefault fallback (fun j => require "bool" j.bool?) j

def readU32 (j : Json) : Read UInt32 := UInt32.ofNat <$> readNat j

def hex (s : String) : Read Bytes := require ("hex " ++ s) (Bytes.ofHex? s.toList)

/-- One byte repeated to a width, or as many bytes as the width. -/
def widen (width : Nat) (b : Bytes) : Read Bytes :=
  match b with
  | [x] => .ok (List.replicate width x)
  | _ => if b.length = width then .ok b else refuse "width"

def readAddress (j : Json) : Read Address := do
  return Address.ofBytes (← widen 20 (← hex (← readStr j)))

def readParty (j : Json) : Read Address := orDefault .zero readAddress j

def readHash (j : Json) : Read Hash :=
  match j with
  | .null => .ok .zero
  | _ => do return Hash.ofBytes (← widen 32 (← hex (← readStr j)))

/-- A number as decimal text, or as hexadecimal text after `0x`. -/
def natText (s : String) : Read Nat :=
  match s.toList with
  | '0' :: 'x' :: ds =>
    ds.foldlM (fun n d => do return n * 16 + (← require "hex digit" (Bytes.hexValue? d))) 0
  | ds =>
    ds.foldlM (fun n d => if d.isDigit then .ok (n * 10 + (d.toNat - 48)) else refuse "digit") 0

def readWord (j : Json) : Read Word :=
  match j with
  | .str s => BitVec.ofNat 256 <$> natText s
  | _ => BitVec.ofNat 256 <$> readNat j

def readSigned (j : Json) : Read Word :=
  match j with
  | .str s =>
    match s.toList with
    | '-' :: ds => do return BitVec.ofInt 256 (-((← natText (String.ofList ds)) : Int))
    | _ => BitVec.ofNat 256 <$> natText s
  | _ => BitVec.ofInt 256 <$> readInt j

/-- A piece of a byte string: its digits, or digits and how often they are repeated. -/
def readPiece (j : Json) : Read Bytes :=
  match j with
  | .null => .ok []
  | .str s => hex s
  | .obj _ => do
    let piece ← hex (← readStr (member j "hex"))
    return (List.replicate (← orDefault 1 readNat (member j "times")) piece).flatten
  | _ => refuse "bytes"

def readBytes (j : Json) : Read Bytes :=
  match j with
  | .arr pieces => List.flatten <$> pieces.mapM readPiece
  | _ => readPiece j

/-! ## Sets, schedules and code -/

def readCapability (j : Json) : Read Capability := do
  require "capability" (Capability.ofName? (← readStr j))

def readCapabilities (j : Json) : Read Capabilities :=
  match j with
  | .null => .ok .empty
  | .int n => .ok (.ofBits (UInt16.ofNat n.toNat))
  | _ => Capabilities.ofList <$> listOf readCapability j

def readEra (j : Json) : Read Balance.Era := do
  match ← readArr j with
  | [start, reward] => return ⟨← readNat start, ← readWord reward⟩
  | _ => refuse "era"

def readSchedule (j : Json) : Read Balance.Schedule :=
  match j with
  | .null => .ok .mainnet
  | .str "mainnet" => .ok .mainnet
  | .str "none" => .ok .none
  | .obj _ => Balance.Schedule.constant <$> readWord (member j "constant")
  | _ => Balance.Schedule.ofEras <$> listOf readEra j

def readSelector (j : Json) : Read Capability.Selector := do
  return Capability.selectorOf (← hex (← readStr j))

def readCode (j : Json) : Read Bytes :=
  match member j "selectors" with
  | .null => readBytes (member j "code")
  | selectors => do
    return Capability.dispatcher (← listOf readSelector selectors) ++
      (← readBytes (member j "append"))

/-! ## Blocks -/

def readBlockId (j : Json) : Read BlockId := do
  return ⟨← readNat (member j "number"), ← readHash (member j "hash")⟩

def readOmmer (j : Json) : Read Ommer := do
  return ⟨← readHash (member j "hash"), ← readNat (member j "number"), ← readParty (member j "miner")⟩

def readTx (j : Json) : Read Transaction := do
  return {
    hash := ← readHash (member j "hash")
    blockHash := ← readHash (member j "block_hash")
    index := ← readNat (member j "index")
    sender := ← readParty (member j "from")
    recipient := ← optional readAddress (member j "to")
    value := ← readWord (member j "value")
    nonce := ← readNat (member j "nonce")
    gasPrice := ← readWord (member j "gas_price")
    gasLimit := ← readNat (member j "gas_limit")
    input := ← readBytes (member j "input")
    signature := ⟨← readNat (member j "v"), ← readWord (member j "r"), ← readWord (member j "s")⟩ }

def readBlock (j : Json) : Read Block := do
  return {
    number := ← readNat (member j "number")
    hash := ← readHash (member j "hash")
    parentHash := ← readHash (member j "parent_hash")
    timestamp := ← readInt (member j "timestamp")
    miner := ← readParty (member j "miner")
    gasUsed := ← readNat (member j "gas_used")
    gasLimit := ← readNat (member j "gas_limit")
    baseFee := ← optional readWord (member j "base_fee")
    ommers := ← listOf readOmmer (member j "ommers")
    transactions := ← listOf readTx (member j "transactions") }

def readLog (j : Json) : Read Log := do
  return ⟨← readParty (member j "address"), ← listOf readHash (member j "topics"),
    ← readBytes (member j "data"), ← readU32 (member j "log_index")⟩

/-- A receipt, successful by default, with a default for its gas. -/
def readReceipt (gas : Nat) (j : Json) : Read Receipt := do
  return {
    txHash := ← readHash (member j "hash")
    success := ← readBool true (member j "success")
    gasUsed := ← orDefault gas readNat (member j "gas_used")
    cumulativeGasUsed := ← readNat (member j "cumulative_gas_used")
    effectiveGasPrice := ← optional readWord (member j "effective_gas_price")
    contractAddress := ← optional readAddress (member j "contract_address")
    revertReason := ← optional readStr (member j "revert_reason")
    logs := ← listOf readLog (member j "logs") }

/-! ## Traces -/

def readFrame (j : Json) : Read Frame := do
  let kind ← require "call kind" (CallKind.ofName? (← orDefault "CALL" readStr (member j "kind")))
  let base := Frame.plain kind (← readParty (member j "from"))
    (← optional readAddress (member j "to")) (← readWord (member j "value"))
  return { base with
    gas := ← readNat (member j "gas")
    gasUsed := ← readNat (member j "gas_used")
    input := ← readBytes (member j "input")
    output := ← readBytes (member j "output")
    error := ← optional readStr (member j "error")
    children := (← listOf readNat (member j "children")).toArray }

structure Growth where
  trace : CallTrace
  last : Nat
  /-- Parents that did not exist, last first. -/
  rejected : List Nat

/-- Appends a frame below a parent, by default below the one appended last; further copies go
each below the one before. -/
def Growth.push (g : Growth) (parent : Option Nat) (f : Frame) : (copies : Nat) → Growth
  | 0 => g
  | copies + 1 =>
    if g.trace.isEmpty then push { g with trace := .ofRoot f, last := 0 } none f copies
    else
      let parent := parent.getD g.last
      let size := g.trace.size
      if parent < size then
        push { g with trace := g.trace.pushChild parent f, last := size } none f copies
      else push { g with rejected := parent :: g.rejected } none f copies

/-- A trace and the parents that did not exist.  Where any frame gives its children, the frames
are taken as they are; else each is appended below its parent. -/
def readFrames (j : Json) : Read (CallTrace × List Nat) := do
  let items ← readArr j
  if items.any fun f => (f.field? "children").isSome then
    return (⟨(← items.mapM readFrame).toArray⟩, [])
  else
    let grown ← items.foldlM (fun (g : Growth) item => do
      return g.push (← optional readNat (member item "parent")) (← readFrame item)
        (← orDefault 1 readNat (member item "repeat"))) ⟨.empty, 0, []⟩
    return (grown.trace, grown.rejected.reverse)

end ChainIngest.Scripted.Fixture
