import ChainIngest.Dialogue
import ChainIngest.Error
import ChainIngest.Json.Basic
import ChainIngest.Text.Blank
/-!
# Statements

The store in a database is reached by statements with numbered parameters.  A
statement is answered by rows and a count, or it fails; a task of the store is a
dialogue of statements that ends in a value or in an error of the store.
-/

namespace ChainIngest.Postgres

/-! ## Values -/

/-- A parameter of a statement, or one column of a row. -/
inductive Value where
  | null
  | bool (b : Bool)
  | int (n : Int)
  /-- A text; words travel as decimal text. -/
  | text (s : String)
  | bytes (b : Bytes)
  | bytesList (bs : List Bytes)
  | timestamp (t : Int)
  | document (j : Json)
deriving Inhabited

namespace Value

def opt {α : Type} (f : α → Value) : Option α → Value
  | some a => f a
  | none => null

/-- A number of sixty-four bits, read in two's complement: columns are signed. -/
def ofNat64 (n : Nat) : Value := int (BitVec.ofNat 64 n).toInt

def ofNat32 (n : Nat) : Value := int (BitVec.ofNat 32 n).toInt

def ofWord (w : Word) : Value := text (toString w.toNat)

def ofSigned (w : Word) : Value := text (Word.signedText w)

def ofHash (h : Hash) : Value := bytes h.toBytes

def ofAddress (a : Address) : Value := bytes a.toBytes

end Value

structure Statement where
  /-- The text; `$1` stands for the first parameter. -/
  text : String
  params : List Value
deriving Inhabited

/-- The text in one line.  Blanks mean nothing in it. -/
def Statement.line (s : Statement) : String := Text.squeeze s.text

abbrev Row := List Value

structure Reply where
  rows : List Row
  affected : Nat
deriving Inhabited

/-! ## Failures -/

inductive Failure where
  | refused (code message : String)
  /-- It gave no row where there must be one. -/
  | noRow
  | missing (column : String)
  | busy
  | closed
  | garbled (detail : String)
deriving DecidableEq, Inhabited

namespace Failure

def message : Failure → String
  | refused _ message => "error returned from database: " ++ message
  | noRow => "no rows returned by a query that expected to return at least one row"
  | missing column =>
    "error occurred while decoding column " ++ column ++
      ": unexpected null; try decoding as an `Option`"
  | busy => "pool timed out while waiting for an open connection"
  | closed => "attempted to acquire a connection on a closed pool"
  | garbled detail => "encountered unexpected or invalid data: " ++ detail

/-- The server's codes for a transaction that lost against another one: it could not be
serialized, or it was chosen to end a deadlock. -/
def conflictCodes : List String := ["40001", "40P01"]

/-- The failure of a write as an error of the store.  A lost race is a conflict, which a
fresh attempt can resolve. -/
def ofWrite : Failure → StoreError
  | refused code message =>
    if conflictCodes.contains code then ⟨.conflict, message⟩
    else ⟨.query, (refused code message).message⟩
  | f => ⟨.query, f.message⟩

def ofRead (f : Failure) : StoreError := ⟨.query, f.message⟩

def ofTransaction (f : Failure) : StoreError := ⟨.transaction, f.message⟩

/-- The failure to commit written rows as an error of the store: a conflict stays one. -/
def ofCommit (f : Failure) : StoreError :=
  match f.ofWrite with
  | ⟨.query, detail⟩ => ⟨.transaction, detail⟩
  | e => e

end Failure

/-! ## Tasks -/

abbrev Talk := Dialogue Statement fun _ => Except Failure Reply

abbrev Task (α : Type) := ExceptT StoreError Talk α

def execute (blame : Failure → StoreError) (s : Statement) : Task Reply :=
  ExceptT.mk do return (← Dialogue.request s).mapError blame

def command (blame : Failure → StoreError) (text : String) : Task Reply := execute blame ⟨text, []⟩

def executeAll (blame : Failure → StoreError) (statements : List Statement) : Task Unit :=
  statements.forM fun s => discard (execute blame s)

def fetchFirst (s : Statement) : Task (Option Row) := do
  return (← execute Failure.ofRead s).rows.head?

def fetchAll (s : Statement) : Task (List Row) := do
  return (← execute Failure.ofRead s).rows

def Task.ofExcept {α : Type} (r : Except StoreError α) : Task α := ExceptT.mk (pure r)

end ChainIngest.Postgres
