import ChainIngest.Importer.Program
import ChainIngest.Store.Write
/-!
# Importing into memory

The in-memory store carries out what an importer asks of a store.  It never fails.
-/

namespace ChainIngest.Store

open Importer (StoreTask)

def perform (task : StoreTask) (now : Int) (s : Store) : task.Answer × Store :=
  match task with
  | .commit rows => ((), s.commit rows)
  | .importStatus number => (s.importStatus? number, s)
  | .recordStatus entry => ((), s.recordStatus entry)
  | .markReorg ancestor chainId => (s.orphanCount ancestor, s.markReorg ancestor chainId now)
  | .canonicalBlock number => (s.canonicalBlock? number, s)
  | .cursor chainId => (s.cursor? chainId, s)
  | .anyCursor => (s.anyCursor?, s)
  | .capabilities contract => (s.capabilities? contract, s)

end ChainIngest.Store
