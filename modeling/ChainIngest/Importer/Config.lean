import ChainIngest.Balance.Schedule
import ChainIngest.Capability.Cache
import ChainIngest.Duration
/-!
# Import settings

What an importer is told before it starts, and how long it waits between
attempts: the first delay doubled once an attempt, never beyond a ceiling.
-/

namespace ChainIngest.Importer

structure Config where
  chainId : Nat
  startBlock : Nat
  maxReorgDepth : Nat
  maxAttempts : Nat
  nodeRetries : Nat
  retryDelay : Duration
  maxRetryDelay : Duration
  nodeTimeout : Duration
  fetchConcurrency : Nat
  /-- Wait before asking again once caught up. -/
  pollInterval : Duration
  cacheCapacity : Nat
  schedule : Balance.Schedule
deriving DecidableEq, Inhabited

namespace Config

def standard : Config where
  chainId := 1
  startBlock := 0
  maxReorgDepth := 64
  maxAttempts := 5
  nodeRetries := 3
  retryDelay := .ofMillis 500
  maxRetryDelay := .ofSeconds 30
  nodeTimeout := .ofSeconds 30
  fetchConcurrency := 8
  pollInterval := .ofSeconds 2
  cacheCapacity := Capability.Cache.defaultCapacity
  schedule := .mainnet

def maxFactor : Nat := 2 ^ 32 - 1

/-- Two to a power, at most the largest factor.  Powers beyond the width of the factor are
not computed. -/
def growth (doublings : Nat) : Nat :=
  if doublings < 32 then 2 ^ doublings else maxFactor

/-- The delay before retry number `attempt`, counted from one. -/
def backoff (c : Config) (attempt : Nat) : Duration :=
  (c.retryDelay.scale (growth (attempt - 1))).shorter c.maxRetryDelay

end Config

end ChainIngest.Importer
