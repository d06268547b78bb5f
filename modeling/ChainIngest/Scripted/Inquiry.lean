import ChainIngest.Json.Report
import ChainIngest.Scripted.Cast
import ChainIngest.Store.Basic
/-!
# Questions about a store

What a script may ask about everything that a store keeps.
-/

namespace ChainIngest.Scripted

open Fixture

def inquire? (cast : Cast) (store : Store) (j : Json) : Read (Option Json) := do
  let number := readNat (member j "number")
  let address := readAddress (member j "address")
  let tx := cast.readTxHash (member j "tx")
  let block := cast.readBlockHash (member j "block")
  match ← readStr (member j "do") with
  | "import_status" => return some (Json.opt ImportEntry.toJson (store.importStatus? (← number)))
  | "canonical_block" => return some (Json.opt BlockId.toJson (store.canonicalBlock? (← number)))
  | "cursor" =>
    return some (Json.opt Cursor.toJson (store.cursor? (← readNat (member j "chain_id"))))
  | "any_cursor" => return some (Json.opt Cursor.toJson store.anyCursor?)
  | "capabilities" =>
    return some (Json.opt Capabilities.toJson (store.capabilities? (← address)))
  | "balances" => return some (Balance.toJson store.canonicalBalances)
  | "is_canonical" => return some (Json.opt Json.bool (store.isCanonical? (← block)))
  | "block_count" => return some (Json.nat store.blockCount)
  | "delta_count" => return some (Json.nat store.deltaCount)
  | "canonical_chain" => return some (Json.list BlockId.toJson store.canonicalChain)
  | "transaction_block" => return some (Json.opt Hash.toJson (store.transactions.get? (← tx)))
  | "receipt" => return some (Json.opt Receipt.toJson (store.receipts.get? (← tx)))
  | "account" => return some (Json.opt Account.toJson (store.accounts.get? (← address)))
  | "contract" => return some (Json.opt StoredContract.toJson (store.contracts.get? (← address)))
  | "internal_transactions" =>
    return some (Json.list InternalTransaction.toJson store.internal.rows)
  | "token_transfers" => return some (Json.list TokenTransfer.toJson store.transfers.rows)
  | "contract_events" => return some (Json.list ContractEvent.toJson store.events.rows)
  | "trace_archive" =>
    return some (match store.archive? (← block) with
      | none => .null
      | some archive => StoreError.orJson Record.Archive.toJson archive)
  | _ => return none

end ChainIngest.Scripted
