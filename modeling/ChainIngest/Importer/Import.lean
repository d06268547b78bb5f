import ChainIngest.Importer.Normalize
/-!
# Import steps

One step commits the block above the head, or finds that the node has replaced
the head's branch and goes back to the common ancestor, or finds nothing new.
Before its first step an importer checks that node, settings and store speak of
one chain, and takes its head from the store's cursor.
-/

namespace ChainIngest.Importer

/-! ## Entering -/

def verifyChain (c : Config) : Step Unit := do
  let connected ← callNode c .chainId
  if connected ≠ c.chainId then throw (.chainMismatch connected c.chainId)
  match ← Step.store .anyCursor with
  | some cursor =>
    if cursor.chainId ≠ c.chainId then throw (.chainMismatch c.chainId cursor.chainId)
  | none => return ()

/-- Takes the head from the store's cursor, if there is one.  The canonical block of that height
is looked up, but the cursor is trusted over it. -/
def restoreHead (c : Config) : Step Unit := do
  match ← Step.store (.cursor c.chainId) with
  | none => return ()
  | some cursor =>
    let _ ← Step.store (.canonicalBlock cursor.lastBlock)
    Step.request (.setHead (some cursor.head))

def enter (c : Config) : Step Unit := do
  verifyChain c
  restoreHead c

/-! ## One block -/

inductive Outcome where
  | idle
  | committed (block : BlockId)
  | skipped (block : BlockId)
  /-- A branch was replaced; the head went back. -/
  | reorged (ancestor : BlockId) (depth : Nat)
deriving DecidableEq, Inhabited

def commitBlock (c : Config) (block : Block) (entry : ImportEntry) : Step Unit := do
  let rows ← normalize c block entry
  Step.store (.commit rows)

/-- Tries to import a block whose row is pending; `left` further attempts are permitted.  A
failure that cannot go away, or the last permitted one, is fatal. -/
def attemptBlock (c : Config) (block : Block) : (left : Nat) → ImportEntry → Step Outcome
  | left, pending => do
    let entry ← move pending .inProgress none
    match ← (commitBlock c block entry).attempt with
    | .ok () =>
      Step.request (.count .blocksCommitted 1)
      return .committed block.id
    | .error e =>
      let entry ← move entry .failed (some e.message)
      match left with
      | 0 => throw (.fatal block.id entry.attempts e)
      | left + 1 =>
        if e.isTransient then
          Step.request (.count .blockRetries 1)
          Step.request (.sleep (c.backoff entry.attempts))
          let entry ← move entry .pending none
          attemptBlock c block left entry
        else throw (.fatal block.id entry.attempts e)

/-- Imports one block, unless the store has it as a committed canonical one. -/
def processBlock (c : Config) (block : Block) : Step Outcome := do
  let existing ← Step.store (.importStatus block.number)
  if existing.any fun e => e.hash = block.hash && e.canonical && e.status = .committed then
    return .skipped block.id
  Step.request (.count .blockDuration 1)
  let now ← Step.request .now
  let entry := ImportEntry.pending block.id now
  Step.store (.recordStatus entry)
  attemptBlock c block (c.maxAttempts - 1) entry

/-! ## Reorgs -/

/-- The highest block of the node's branch that the store has as canonical, or the block below
everything stored.  The search begins at a block of that branch, given by its number and hash,
and goes down parent by parent. -/
def findAncestor (c : Config) (head : BlockId) : (number : Nat) → (hash : Hash) → Step BlockId
  | number, hash => do
    let candidate : BlockId := ⟨number, hash⟩
    let depth := head.number - number
    let tooDeep (depth : Nat) : IngestError := .reorgTooDeep head depth c.maxReorgDepth
    let stored ← Step.store (.canonicalBlock number)
    if stored.all fun s => s.hash = hash then
      if c.maxReorgDepth < depth then throw (tooDeep depth) else return candidate
    else if c.maxReorgDepth < depth + 1 then throw (tooDeep (depth + 1))
    else
      match number with
      | 0 => throw (tooDeep (depth + 1))
      | number + 1 =>
        let block ← callNode c (.block (.hash hash))
        findAncestor c head number block.parentHash

/-- Goes back to the common ancestor of the stored branch and the node's. -/
def handleReorg (c : Config) (head candidate : BlockId) : Step Outcome := do
  let ancestor ← findAncestor c head candidate.number candidate.hash
  let depth := head.number - ancestor.number
  let _ ← Step.store (.markReorg ancestor c.chainId)
  Step.request (.setHead (some ancestor))
  Step.request (.count .reorgsDetected 1)
  Step.request (.count .blocksOrphaned depth)
  return .reorged ancestor depth

/-! ## The step -/

/-- What to do when the node has no block above the head: wait, unless it has replaced the
head's branch.  A node that is merely behind on the same branch is waited for. -/
def checkHead (c : Config) (head : BlockId) (latest : Nat) : Step Outcome := do
  let number := min head.number latest
  let tip ← callNode c (.block (.number number))
  if number < head.number then
    let stored ← Step.store (.canonicalBlock number)
    if stored.all fun s => s.hash = tip.hash then return .idle
    else handleReorg c head tip.id
  else if tip.hash = head.hash then return .idle
  else handleReorg c head tip.id

def importBlock (c : Config) (head : Option BlockId) (block : Block) : Step Outcome := do
  match head.filter fun h => block.parentHash ≠ h.hash with
  | some h => handleReorg c h ⟨h.number, block.parentHash⟩
  | none =>
    let outcome ← processBlock c block
    Step.request (.setHead (some block.id))
    return outcome

def importNext (c : Config) : Step Outcome := do
  let head ← Step.request .head
  let next := match head with
    | some h => h.number + 1
    | none => c.startBlock
  let latest ← callNode c .latestBlockNumber
  if latest < next then
    match head with
    | none => return .idle
    | some h => checkHead c h latest
  else
    let block ← callNode c (.block (.number next))
    importBlock c head block

end ChainIngest.Importer
