/-!
# Metrics

Counters of what ingestion does.  A counter exists from the first time it is
counted, even by zero; the duration histogram is kept as its number of samples.
-/

namespace ChainIngest

inductive Metric where
  | blocksCommitted
  | blockDuration
  | reorgsDetected
  | blocksOrphaned
  | blockRetries
  | nodeRetries (operation : String)
  | cacheHits
  | cacheMisses
  | ingestionHalts
deriving DecidableEq, Inhabited

namespace Metric

def name : Metric → String
  | .blocksCommitted => "blocks_committed_total"
  | .blockDuration => "block_processing_duration_seconds"
  | .reorgsDetected => "reorgs_detected_total"
  | .blocksOrphaned => "blocks_orphaned_total"
  | .blockRetries => "block_retries_total"
  | .nodeRetries operation => "node_retries_total\x7boperation=" ++ operation ++ "\x7d"
  | .cacheHits => "capability_cache_hits_total"
  | .cacheMisses => "capability_cache_misses_total"
  | .ingestionHalts => "ingestion_halts_total"

end Metric

structure MetricDescription where
  kind : String
  name : String
  text : String

def metricDescriptions : List MetricDescription :=
  [⟨"counter", "blocks_committed_total", "Total number of blocks committed to the store"⟩,
   ⟨"histogram", "block_processing_duration_seconds",
     "Time taken to normalize and commit a block in seconds"⟩,
   ⟨"counter", "reorgs_detected_total", "Total number of chain reorganizations detected"⟩,
   ⟨"counter", "blocks_orphaned_total",
     "Total number of stored blocks marked as ommers by a reorg"⟩,
   ⟨"counter", "block_retries_total",
     "Total number of block import attempts that failed and were retried"⟩,
   ⟨"counter", "node_retries_total",
     "Total number of transient node call failures that were retried"⟩,
   ⟨"counter", "capability_cache_hits_total",
     "Capability detections answered from the bytecode cache"⟩,
   ⟨"counter", "capability_cache_misses_total", "Capability detections that scanned bytecode"⟩,
   ⟨"counter", "ingestion_halts_total", "Number of times ingestion halted on a fatal condition"⟩]

/-- Counts so far, in the order in which they first appeared. -/
structure Metrics where
  counts : List (Metric × Nat)
deriving DecidableEq, Inhabited

namespace Metrics

def none : Metrics := ⟨[]⟩

def addTo : List (Metric × Nat) → Metric → Nat → List (Metric × Nat)
  | [], m, amount => [(m, amount)]
  | (k, n) :: rest, m, amount =>
    if k = m then (k, n + amount) :: rest else (k, n) :: addTo rest m amount

def add (c : Metrics) (m : Metric) (amount : Nat) : Metrics := ⟨addTo c.counts m amount⟩

def get? (c : Metrics) (m : Metric) : Option Nat :=
  (c.counts.find? fun e => e.1 = m).map Prod.snd

def addLookup (c : Metrics) (hit : Bool) : Metrics :=
  c.add (if hit then .cacheHits else .cacheMisses) 1

end Metrics

end ChainIngest
