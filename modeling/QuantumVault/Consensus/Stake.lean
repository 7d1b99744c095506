import QuantumVault.Consensus.LeaderSchedule

/-!
# Stake snapshots and reward shares

The stake distribution of an epoch, taken from the registered pools and the delegations to them, and the split of a pool's reward between its operator and its delegators. Products are taken in 128 bits, here on natural numbers with the bound written out.
-/

namespace QuantumVault

open Result

inductive StakeError where
  | poolAlreadyRegistered (pool : PoolId)
  | poolNotFound (pool : PoolId)
  | zeroDelegation
  | invalidMargin (num den : UInt32)
  | overflow
deriving DecidableEq

def StakePool.validate (pool : StakePool) : Except StakeError Unit :=
  require (¬ (pool.marginDen = 0 ∨ pool.marginNum > pool.marginDen)) (.invalidMargin pool.marginNum pool.marginDen)

structure Delegation where
  delegatorId : Hash256
  poolId : PoolId
  amount : Amount
deriving DecidableEq

namespace StakeDistribution

/-- Add to the stake under a key, or start it. The sum is clamped to the word. -/
def addStake (stakes : Std.ExtTreeMap PoolId UInt64) (entry : PoolId × UInt64) : Std.ExtTreeMap PoolId UInt64 :=
  match stakes[entry.1]? with
  | some s => stakes.insert entry.1 (Word.saturatingAdd s entry.2)
  | none => stakes.insert entry.1 entry.2

/-- One entry of a raw listing. The total, unlike the stake of a pool, must not overflow. -/
def newStep (acc : Std.ExtTreeMap PoolId UInt64 × UInt64) (entry : PoolId × Amount) :
    Except StakeError (Std.ExtTreeMap PoolId UInt64 × UInt64) :=
  if entry.2 = 0 then return acc
  else do
    let total ← okOr (Word.checkedAdd acc.2 entry.2) .overflow
    return (addStake acc.1 entry, total)

def new (epoch : Epoch) (entries : List (PoolId × Amount)) : Except StakeError StakeDistribution := do
  let (poolStakes, total) ← entries.foldlM newStep (∅, 0)
  return ⟨epoch, poolStakes, total⟩

/-- The pledges of the active pools, and the delegations to them. Other delegations are skipped. -/
def snapshot (epoch : Epoch) (pools : List StakePool) (delegations : List Delegation) :
    Except StakeError StakeDistribution :=
  let activePools := pools.filter StakePool.active
  let stakes := activePools.foldl (fun stakes pool => addStake stakes (pool.id, pool.pledge)) ∅
  let activeIds := activePools.map StakePool.id
  let stakes := delegations.foldl
    (fun stakes d => if d.poolId ∈ activeIds then addStake stakes (d.poolId, d.amount) else stakes) stakes
  new epoch stakes.toList

end StakeDistribution

/-! ### Rewards -/

inductive RewardError where
  | overflow
  | poolNotFound (pool : PoolId)
deriving DecidableEq

structure RewardShare where
  recipient : Hash256
  amount : Amount
deriving DecidableEq

/-- A part of an amount, by a product in 128 bits and a division. -/
def proportion (amount num den : Nat) : UInt64 :=
  if amount * num > maxU128 ∨ den = 0 then 0 else UInt64.ofNat (min (amount * num / den) (2 ^ 64 - 1))

/-- The share of one delegator, on top of what has been handed out. -/
def payShare (delegatorPool totalDelegated : UInt64) (acc : UInt64 × List RewardShare) (stake : Hash256 × Amount) :
    UInt64 × List RewardShare :=
  let share := proportion delegatorPool.toNat stake.2.toNat totalDelegated.toNat
  (Word.saturatingAdd acc.1 share, acc.2 ++ [⟨stake.1, share⟩])

/-- The operator's reward and the shares of the delegators. Rounding dust goes to the operator. -/
def distributeReward (totalReward : Amount) (pool : StakePool) (delegatorStakes : List (Hash256 × Amount)) :
    Except RewardError (Amount × List RewardShare) :=
  if totalReward = 0 then return (0, [])
  else do
    let cost := min pool.fixedCost totalReward
    let afterCost := Word.saturatingSub totalReward cost
    let marginShare := if pool.marginDen > 0 then proportion afterCost.toNat pool.marginNum.toNat pool.marginDen.toNat else 0
    let operatorTotal := Word.saturatingAdd cost marginShare
    let delegatorPool := Word.saturatingSub afterCost marginShare
    let totalDelegated := delegatorStakes.foldl (fun acc stake => Word.saturatingAdd acc stake.2) 0
    let (distributed, shares) :=
      if totalDelegated > 0 ∧ delegatorPool > 0 then
        delegatorStakes.foldl (payShare delegatorPool totalDelegated) (0, [])
      else (0, [])
    let dust := Word.saturatingSub delegatorPool distributed
    return (Word.saturatingAdd operatorTotal dust, shares)

end QuantumVault
