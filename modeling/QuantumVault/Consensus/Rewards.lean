import QuantumVault.Core.Params

/-!
# Block rewards

The halving schedule, the cumulative emission up to a height, and the reward a block may claim: the subsidy, reduced where it would take emission past the total supply, plus the fees.
-/

namespace QuantumVault

def blockSubsidy (height : Height) (monetary : MonetaryParams) : Amount :=
  let halvings := height / monetary.halvingIntervalBlocks
  if halvings ≥ 64 then 0 else monetary.initialBlockReward >>> halvings

/-- The emission loop: whole halving periods are added until the reward or the blocks run out. The reward loses one bit a round, so that it is zero after 64 of them. -/
def emissionLoop (interval : UInt64) : (rounds : Nat) → (total reward remaining : UInt64) → UInt64
  | 0, total, _, _ => total
  | rounds + 1, total, reward, remaining =>
      if reward = 0 then total
      else
        let blocksAtThisRate := min remaining interval
        let total := Word.saturatingAdd total (Word.saturatingMul blocksAtThisRate reward)
        let remaining := Word.saturatingSub remaining blocksAtThisRate
        if remaining = 0 then total else emissionLoop interval rounds total (reward >>> 1) remaining

def cumulativeEmission (height : Height) (monetary : MonetaryParams) : Amount :=
  let total := emissionLoop monetary.halvingIntervalBlocks 65 0 monetary.initialBlockReward
    (Word.saturatingAdd height 1)
  min total monetary.totalSupply

def cappedSubsidy (height : Height) (monetary : MonetaryParams) : Amount :=
  let rawSubsidy := blockSubsidy height monetary
  let prevEmission := if height = 0 then 0 else cumulativeEmission (Word.saturatingSub height 1) monetary
  let room := Word.saturatingSub monetary.totalSupply prevEmission
  min rawSubsidy room

def totalBlockReward (height : Height) (fees : Amount) (monetary : MonetaryParams) : Amount :=
  Word.saturatingAdd (cappedSubsidy height monetary) fees

/-- The rounds granted to the emission loop are enough: any larger number gives the same total. -/
theorem emissionLoop_rounds {interval : UInt64} {rounds : Nat} {total reward remaining : UInt64}
    (hreward : reward.toNat < 2 ^ rounds) (extra : Nat) :
    emissionLoop interval (rounds + 1 + extra) total reward remaining =
      emissionLoop interval (rounds + 1) total reward remaining := by
  induction rounds generalizing total reward remaining with
  | zero =>
      have hzero : reward = 0 := UInt64.toNat_inj.mp (by simpa using hreward)
      rw [Nat.zero_add, Nat.add_comm, emissionLoop, emissionLoop, if_pos hzero, if_pos hzero]
  | succ rounds ih =>
      rw [show rounds + 1 + 1 + extra = (rounds + 1 + extra) + 1 by omega]
      rw [emissionLoop, emissionLoop]
      have hshift : (reward >>> 1).toNat < 2 ^ rounds := by
        rw [UInt64.toNat_shiftRight]
        simp only [UInt64.toNat_one, Nat.reduceMod, Nat.shiftRight_succ, Nat.shiftRight_zero]
        rw [pow_succ] at hreward
        omega
      simp only [ih hshift]

end QuantumVault
