import ChainIngest.Postgres.Migration
import ChainIngest.Postgres.Purge
import ChainIngest.Postgres.Store
import ChainIngest.Scripted.Fixture
/-!
# A scripted database server

A server that answers each query by prepared rows and refuses the statements that
its rules name.  Of what it is told it keeps nothing but the list of scripts that
were run on it, and a log of the statements.
-/

namespace ChainIngest.Scripted

open Fixture
open Postgres (Failure Migration Reply Row Statement Value)

/-! ## Rows -/

inductive ColumnKind where
  | int
  | text
  | bool
  | bytes
  | time
deriving DecidableEq, Inhabited

def ColumnKind.read (k : ColumnKind) (j : Json) : Read Value :=
  match j with
  | .null => .ok .null
  | _ =>
    match k with
    | int => Value.int <$> readInt j
    | text => Value.text <$> readStr j
    | bool => Value.bool <$> readBool false j
    | bytes => Value.bytes <$> readBytes j
    | time => Value.timestamp <$> readInt j

structure Question where
  name : String
  lines : List String
  columns : List ColumnKind

def questions : List Question :=
  [⟨"blocks", [(Postgres.selectBlock 0).line], [.int, .bytes]⟩,
   ⟨"import_queue", [(Postgres.selectEntry 0).line],
     [.int, .bytes, .text, .int, .bool, .text, .time]⟩,
   ⟨"indexer_cursor", [(Postgres.selectCursor 0).line, Postgres.selectAnyCursor.line],
     [.int, .int, .bytes, .time]⟩,
   ⟨"contracts", [(Postgres.selectCapabilities .zero).line], [.int]⟩,
   ⟨"block_traces", [(Postgres.selectArchive .zero).line], [.bytes]⟩,
   ⟨"canonical_balances", [Postgres.selectBalances.line], [.bytes, .text]⟩,
   ⟨"counts", [Postgres.selectCounts.line], [.int, .int, .int]⟩,
   ⟨"dirty", [Migration.selectUnfinished.line], [.int]⟩,
   ⟨"migrations", [Migration.selectApplied.line], [.int, .bytes]⟩]

abbrev Answers := List (String × List Row)

def readRow (columns : List ColumnKind) (j : Json) : Read Row := do
  (columns.zip (← readArr j)).mapM fun c => c.1.read c.2

def readAnswers (j : Json) : Read Answers := do
  let given := questions.filter fun q => (j.field? q.name).isSome
  given.mapM fun q => do return (q.name, ← listOf (readRow q.columns) (member j q.name))

/-! ## Rules -/

structure Rule where
  opening : String
  /-- Statements that begin so and are still let through. -/
  spared : Nat
  code : String
  message : String
deriving DecidableEq, Inhabited

/-- A rule; by default it refuses the first statement that it names. -/
def readRule (j : Json) : Read Rule := do
  let nth ← orDefault 1 readNat (member j "nth")
  return ⟨← readStr (member j "sql"), nth - 1, ← orDefault "" readStr (member j "code"),
    ← orDefault "" readStr (member j "message")⟩

/-- What the rules say of a statement, and the rules after it: a rule is used up once it has
refused a statement. -/
def consult (text : String) : List Rule → Option Failure × List Rule
  | [] => (none, [])
  | r :: rest =>
    if text.startsWith r.opening then
      match r.spared with
      | 0 => (some (.refused r.code r.message), rest)
      | spared + 1 =>
        let (found, rest) := consult text rest
        (found, { r with spared := spared } :: rest)
    else
      let (found, rest) := consult text rest
      (found, r :: rest)

/-! ## The server -/

structure Heard where
  statement : Statement
  refused : Bool
deriving Inhabited

structure Server where
  database : String
  answers : Answers
  affected : Nat
  rules : List Rule
  /-- Scripts that were run, as rows. -/
  applied : List Row
  /-- Scripts entered in a transaction that is not committed. -/
  entered : List Row
  /-- The statements so far, last first. -/
  heard : List Heard

namespace Server

def new (database : String) : Server := ⟨database, [], 0, [], [], [], []⟩

def rowsFor (line : String) (s : Server) : List Row :=
  match questions.find? fun q => q.lines.contains line with
  | none => if line = Migration.selectDatabase.line then [[.text s.database]] else []
  | some q =>
    match s.answers.find? fun a => a.1 = q.name with
    | some given => given.2
    | none => if q.name = "migrations" then s.applied else []

def insertAppliedLine : String := (Migration.insertApplied default).line

def keep (statement : Statement) (s : Server) : Server :=
  if statement.text = insertAppliedLine then
    match statement.params with
    | [version, _, checksum] => { s with entered := s.entered ++ [[version, checksum]] }
    | _ => s
  else if statement.text = "COMMIT" then { s with applied := s.applied ++ s.entered, entered := [] }
  else if statement.text = "BEGIN" then { s with entered := [] }
  else s

def answer (statement : Statement) (s : Server) : Except Failure Reply × Server :=
  let told : Statement := { statement with text := statement.line }
  let (refusal, rules) := consult told.text s.rules
  let s := { s with rules := rules, heard := ⟨told, refusal.isSome⟩ :: s.heard }
  match refusal with
  | some f => (.error f, s)
  | none => (.ok ⟨s.rowsFor told.text, s.affected⟩, s.keep told)

def prepare (answers : Answers) (affected : Nat) (rules : List Rule) (s : Server) : Server :=
  { s with answers := answers, affected := affected, rules := rules, heard := [] }

/-- The log in order, without the bookkeeping of migrations that went well. -/
def log (s : Server) : List Heard :=
  s.heard.reverse.filter fun h => h.refused || !Migration.bookkeeping.contains h.statement.text

def converse {α : Type} (talk : Postgres.Talk α) (s : Server) : α × Server := talk.hold answer s

end Server

/-! ## The log as JSON -/

/-- A parameter; points in time from `clock` on are taken for the present. -/
def valueToJson (clock : Int) : Value → Json
  | .null => .null
  | .bool b => .bool b
  | .int n => .int n
  | .text s => .str s
  | .bytes b => Bytes.toJson b
  | .bytesList bs => Json.list Bytes.toJson bs
  | .timestamp t => if clock ≤ t then .str "now" else Json.timestamp t
  | .document j => j

def scriptTexts : List String := Migration.all.map fun m => Text.squeeze m.script

def Heard.toJson (clock : Int) (h : Heard) : Json :=
  let text := h.statement.text
  let shown := if scriptTexts.contains text then s!"script of {text.length} characters" else text
  .arr (.str shown ::
    (if h.refused then [.str "failed"] else h.statement.params.map (valueToJson clock)))

end ChainIngest.Scripted
