import ChainIngest.Rows
/-!
# Rewards

A schedule gives the base reward of each era by the era's first block.  A
block's miner earns the base reward and a thirty-second of it for each ommer;
an ommer's miner earns the base reward less an eighth for each block of
distance.  Products wrap at the word size.
-/

namespace ChainIngest.Balance

/-! ## Schedules -/

structure Era where
  start : Nat
  reward : Word
deriving DecidableEq, Inhabited

/-- Eras in the order of their first blocks. -/
structure Schedule where
  /-- The eras, earliest first; among equal first blocks the last one listed counts. -/
  eras : List Era
deriving DecidableEq, Inhabited

namespace Schedule

def ofEras (eras : List Era) : Schedule :=
  ⟨eras.mergeSort fun a b => a.start ≤ b.start⟩

def ether : Nat := 10 ^ 18

def mainnet : Schedule :=
  ofEras [⟨0, BitVec.ofNat 256 (5 * ether)⟩, ⟨4370000, BitVec.ofNat 256 (3 * ether)⟩,
    ⟨7280000, BitVec.ofNat 256 (2 * ether)⟩, ⟨15537394, 0⟩]

def constant (reward : Word) : Schedule := ofEras [⟨0, reward⟩]

def none : Schedule := ofEras []

/-- The base reward of a height: that of the last era begun, or zero before the first. -/
def blockReward (s : Schedule) (number : Nat) : Word :=
  match s.eras.reverse.find? fun era => era.start ≤ number with
  | some era => era.reward
  | .none => 0

def mainnetChainId : Nat := 1

/-- The schedule of a chain: a fixed reward where one is given, the main network's eras on
the main network, and no rewards elsewhere. -/
def ofChain (chainId : Nat) (fixed : Option Word) : Schedule :=
  match fixed with
  | some reward => constant reward
  | .none => if chainId = mainnetChainId then mainnet else none

end Schedule

/-! ## Rewards of a block -/

def minerReward (base : Word) (ommers : Nat) : Word :=
  base + base * BitVec.ofNat 256 ommers / 32

def ommerReward (base : Word) (distance : Nat) : Word :=
  Word.satSub base (base * BitVec.ofNat 256 distance / 8)

def ommerReward? (block : Block) (base : Word) (ommer : Ommer) : Option Reward :=
  if ommer.number ≤ block.number then
    let amount := ommerReward base (block.number - ommer.number)
    if amount = 0 then .none
    else some ⟨block.hash, ommer.hash, ommer.miner, amount, .ommer⟩
  else .none

/-- The rewards of a block: its own, then one for each rewarded ommer.  The first block of a
chain and blocks without a base reward pay none. -/
def rewards (block : Block) (schedule : Schedule) : List Reward :=
  let base := schedule.blockReward block.number
  if block.number = 0 ∨ base = 0 then []
  else
    ⟨block.hash, block.hash, block.miner, minerReward base block.ommers.length, .block⟩ ::
      block.ommers.filterMap (ommerReward? block base)

end ChainIngest.Balance
