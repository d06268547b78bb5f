import ChainIngest.Postgres.Statement
import ChainIngest.Record.Codec
import ChainIngest.Text.Decimal
/-!
# Columns

Columns of a row as the values they stand for.  Byte strings must have the width
of what they name; a block's name that is all zero is taken for damage.
-/

namespace ChainIngest.Postgres

/-! ## Bytes and numbers -/

def damaged {α : Type} (field what : String) : Except StoreError α :=
  .error (.unreadable (field ++ " " ++ what))

def fixedWidth (width : Nat) (field : String) (b : Bytes) : Except StoreError Bytes :=
  if b.length = width then .ok b
  else damaged field s!"has invalid length: expected {width}, got {b.length}"

def hashColumn (field : String) (b : Bytes) : Except StoreError Hash :=
  (fixedWidth 32 field b).map Hash.ofBytes

def blockHashColumn (field : String) (b : Bytes) : Except StoreError Hash := do
  let hash ← hashColumn field b
  if hash = .zero then damaged field "is all zeros, which indicates data corruption"
  else return hash

def addressColumn (field : String) (b : Bytes) : Except StoreError Address :=
  (fixedWidth 20 field b).map Address.ofBytes

def signedColumn (field text : String) : Except StoreError Word :=
  match Text.Decimal.ofString text with
  | .ok w => .ok w
  | .error fault => damaged field ("is not a 256-bit integer: " ++ fault.message)

/-- An unsigned number of sixty-four bits from the signed one that is stored. -/
def nat64Column (n : Int) : Nat := (BitVec.ofInt 64 n).toNat

def nat32Column (n : Int) : Nat := (BitVec.ofInt 32 n).toNat

/-! ## Rows -/

/-- The failure of a row that does not have the columns of its query. -/
def misshapen {α : Type} : Except StoreError α :=
  .error (Failure.ofRead (.garbled "unexpected columns"))

/-- Refuses a row with a null in a column that is named; a column without a name may be null. -/
def present : List (Option String) → Row → Except StoreError Unit
  | some column :: _, .null :: _ => .error (Failure.ofRead (.missing column))
  | _ :: columns, _ :: row => present columns row
  | _, _ => .ok ()

def optionalText? : Value → Option (Option String)
  | .null => some none
  | .text s => some (some s)
  | _ => none

def quoted (column : String) : Option String := some ("\"" ++ column ++ "\"")

def blockIdOfRow (row : Row) : Except StoreError BlockId := do
  present [quoted "number", quoted "hash"] row
  match row with
  | [.int number, .bytes hash] =>
    return ⟨nat64Column number, ← blockHashColumn "blocks.hash" hash⟩
  | _ => misshapen

def entryOfRow (row : Row) : Except StoreError ImportEntry := do
  present [quoted "number", quoted "hash", quoted "status", quoted "attempts", quoted "canonical",
    none, quoted "updated_at"] row
  match row with
  | [.int number, .bytes hash, .text status, .int attempts, .bool canonical, lastError,
      .timestamp updatedAt] =>
    match ImportStatus.ofName? status, optionalText? lastError with
    | none, _ => damaged "import_queue.status" ("has unknown value " ++ status)
    | some status, some lastError =>
      return {
        number := nat64Column number
        hash := ← blockHashColumn "import_queue.hash" hash
        status := status
        attempts := nat32Column attempts
        canonical := canonical
        lastError := lastError
        updatedAt := updatedAt }
    | some _, none => misshapen
  | _ => misshapen

def cursorOfRow (row : Row) : Except StoreError Cursor := do
  present [quoted "chain_id", quoted "last_block", quoted "last_hash", quoted "updated_at"] row
  match row with
  | [.int chainId, .int lastBlock, .bytes lastHash, .timestamp updatedAt] =>
    return ⟨nat64Column chainId, nat64Column lastBlock,
      ← blockHashColumn "indexer_cursor.last_hash" lastHash, updatedAt⟩
  | _ => misshapen

/-- A capability set; bits without a meaning are dropped. -/
def capabilitiesOfRow (row : Row) : Except StoreError Capabilities := do
  present [some "0"] row
  match row with
  | [.int bits] => return .ofBits (UInt16.ofNat (BitVec.ofInt 16 bits).toNat)
  | _ => misshapen

def archiveOfRow (row : Row) : Except StoreError Record.Archive := do
  present [some "0"] row
  match row with
  | [.bytes record] => (Record.archiveFormat.decode record).mapError fun e => .unreadable e.message
  | _ => misshapen

def balanceColumns (row : Row) : Except StoreError (Bytes × String) := do
  present [some "0", some "1"] row
  match row with
  | [.bytes account, .text balance] => return (account, balance)
  | _ => misshapen

def balanceOfColumns (columns : Bytes × String) : Except StoreError (Address × Word) := do
  return (← addressColumn "canonical_balances.account" columns.1,
    ← signedColumn "canonical_balances.balance" columns.2)

end ChainIngest.Postgres
