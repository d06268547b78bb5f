import ChainIngest.Importer.Run
import ChainIngest.Json.Report
import ChainIngest.Scripted.Fixture
import ChainIngest.Scripted.Node
/-!
# Settings of scripts

Fixtures for the settings of an importer, for the failures that a script puts in
its way, and for the moments at which it is told to stop.
-/

namespace ChainIngest.Scripted.Fixture

def readMillis (j : Json) : Read Duration := Duration.ofMillis <$> readNat j

def readConfig (base : Importer.Config) (j : Json) : Read Importer.Config := do
  return {
    chainId := ← orDefault base.chainId readNat (member j "chain_id")
    startBlock := ← orDefault base.startBlock readNat (member j "start_block")
    maxReorgDepth := ← orDefault base.maxReorgDepth readNat (member j "max_reorg_depth")
    maxAttempts := ← orDefault base.maxAttempts readNat (member j "max_attempts")
    nodeRetries := ← orDefault base.nodeRetries readNat (member j "node_retries")
    retryDelay := ← orDefault base.retryDelay readMillis (member j "retry_delay_ms")
    maxRetryDelay := ← orDefault base.maxRetryDelay readMillis (member j "max_retry_delay_ms")
    nodeTimeout := ← orDefault base.nodeTimeout readMillis (member j "node_timeout_ms")
    fetchConcurrency := ← orDefault base.fetchConcurrency readNat (member j "fetch_concurrency")
    pollInterval := ← orDefault base.pollInterval readMillis (member j "poll_interval_ms")
    cacheCapacity := ← orDefault base.cacheCapacity readNat (member j "capability_cache_size")
    schedule := ← orDefault base.schedule readSchedule (member j "schedule") }

def readCallFault (operation : String) (j : Json) : Read CallFault := do
  let text := "fault " ++ operation
  match ← readStr j with
  | "pass" => return .pass
  | "unavailable" => return .fail (.unavailable text)
  | "not_found" => return .fail (.notFound text)
  | "invalid" => return .fail (.invalidResponse text)
  | "hang" => return .hang
  | _ => refuse "fault"

def readTaskFault (operation : String) (j : Json) : Read (Option StoreError) := do
  match ← readStr j with
  | "pass" => return none
  | kind =>
    return some ⟨← require "store fault" (StoreFault.ofLabel? kind), "fault " ++ operation⟩

def readSignal (j : Json) : Read Importer.Signal := do
  match ← readArr j with
  | [millis, stop] => return ⟨← readMillis millis, ← readBool true stop⟩
  | _ => refuse "signal"

end ChainIngest.Scripted.Fixture
