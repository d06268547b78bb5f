import ChainIngest.Importer.Memory
import ChainIngest.Scripted.Node
/-!
# A scripted store

The in-memory store behind an importer, with failures on request: commits can be
refused as conflicts, and each task can be told to fail in its next calls.
-/

namespace ChainIngest.Scripted

open Importer (StoreTask Surroundings)

structure Writer where
  store : Store
  failingCommits : Nat
  /-- Fates of the next tasks, by operation; none lets a task pass. -/
  faults : PerOperation (List (Option StoreError))

namespace Writer

def new : Writer := ⟨.empty, 0, []⟩

def failCommits (w : Writer) (count : Nat) : Writer := { w with failingCommits := count }

def setFaults (w : Writer) (operation : String) (faults : List (Option StoreError)) : Writer :=
  { w with faults := w.faults.set operation faults }

def perform (task : StoreTask) (now : Int) (w : Writer) :
    Except StoreError task.Answer × Writer :=
  match task, w.failingCommits with
  | .commit rows, left + 1 =>
    (.error ⟨.conflict, s!"injected conflict on block {rows.block.number}"⟩,
      { w with failingCommits := left })
  | task, _ =>
    let (answer, store) := w.store.perform task now
    (.ok answer, { w with store := store })

def performScripted (task : StoreTask) (now : Int) (w : Writer) :
    Except StoreError task.Answer × Writer :=
  match w.faults.get task.operation [] with
  | [] => w.perform task now
  | fate :: rest =>
    let w := { w with faults := w.faults.set task.operation rest }
    match fate with
    | some e => (.error e, w)
    | none => w.perform task now

end Writer

/-! ## Node and store together -/

structure Stage where
  node : Node
  writer : Writer

def Stage.surroundings : Surroundings Stage where
  node call stage :=
    let (reaction, node) := stage.node.react call
    (reaction, { stage with node := node })
  store task now stage :=
    let (reply, writer) := stage.writer.performScripted task now
    (reply, { stage with writer := writer })

end ChainIngest.Scripted
