import ChainIngest.Importer.Program
/-!
# Import rows on their way

A block's import row moves along the permitted steps only, and every move is
written to the store.
-/

namespace ChainIngest.Importer

def illegalMove (entry : ImportEntry) (next : ImportStatus) : IngestError :=
  .internal s!"illegal import transition {entry.status.name} -> {next.name} for block {entry.number}"

/-- The row after a step: a new attempt is counted when the block gets in progress, and an
error text stays until another one comes. -/
def advance (entry : ImportEntry) (next : ImportStatus) (error : Option String) (now : Int) :
    Except IngestError ImportEntry :=
  if entry.status.canBecome next then
    .ok { entry with
      status := next
      attempts := if next = .inProgress then entry.attempts + 1 else entry.attempts
      lastError := error <|> entry.lastError
      updatedAt := now }
  else .error (illegalMove entry next)

def move (entry : ImportEntry) (next : ImportStatus) (error : Option String) :
    Step ImportEntry := do
  let now ← Step.request .now
  let entry ← Step.ofExcept (advance entry next error now)
  Step.store (.recordStatus entry)
  return entry

end ChainIngest.Importer
