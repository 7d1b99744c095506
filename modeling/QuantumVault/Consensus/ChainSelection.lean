import QuantumVault.Consensus.ChainState
import QuantumVault.Lib.Wide

/-!
# Choosing between whole chains, and header sync

Two jobs a node has while it catches up with the network. It compares its own chain with a complete candidate: by length while its own chain has at most `k` blocks after the fork point, and by the number of blocks in the `s` slots after the fork point otherwise. And it asks a peer for the headers it is missing, naming blocks of its own chain at growing gaps so that the peer finds one they share.

Chains are listed from genesis to tip.
-/

namespace QuantumVault

inductive ChainPreference where
  | keepLocal
  | adoptCandidate
deriving DecidableEq

/-! ### Chain selection -/

def commonPrefixLen (localChain candidate : List ChainEntry) : Nat :=
  ((localChain.zip candidate).takeWhile fun pair => pair.1.hash = pair.2.hash).length

/-- Number of blocks after the fork point whose slot is past the fork slot and not past the end of the window. -/
def densityInWindow (chain : List ChainEntry) (common : Nat) (forkSlot windowEnd : UInt64) : UInt64 :=
  Word.saturatingOfNat ((chain.drop common).filter fun e => forkSlot < e.slot ∧ e.slot ≤ windowEnd).length

def longerChain (localChain candidate : List ChainEntry) : ChainPreference :=
  match compare candidate.length localChain.length with
  | .gt => .adoptCandidate
  | .lt => .keepLocal
  | .eq =>
      match candidate.getLast?, localChain.getLast? with
      | some c, some l => if Hash256.lt c.hash l.hash then .adoptCandidate else .keepLocal
      | _, _ => .keepLocal

def blocksAfter (chain : List ChainEntry) (common : Nat) : UInt64 :=
  Word.saturatingOfNat (chain.length - common)

/-- Whether a node that holds the first chain takes the second one. -/
def maxvalidBg (localChain candidate : List ChainEntry) (k s : UInt64) : ChainPreference :=
  let common := commonPrefixLen localChain candidate
  if common = 0 then .keepLocal
  else
    match localChain[common - 1]? with
    | none => .keepLocal
    | some fork =>
        if blocksAfter localChain common ≤ k then longerChain localChain candidate
        else
          let windowEnd := Word.saturatingAdd fork.slot s
          let localDensity := densityInWindow localChain common fork.slot windowEnd
          let candDensity := densityInWindow candidate common fork.slot windowEnd
          if candDensity > localDensity then .adoptCandidate else .keepLocal

/-! ### Header sync -/

structure LocatorState where
  locator : List BlockHash
  idx : Nat
  step : UInt64

/-- One round of the locator loop: name the block at the current position and, unless that is genesis, move down. The gap is one until ten blocks are named and doubles from there on. -/
def locatorStep (chain : List ChainEntry) (st : LocatorState) : LocatorState ⊕ List BlockHash :=
  let locator := match chain[st.idx]? with
    | some e => st.locator ++ [e.hash]
    | none => st.locator
  if st.idx = 0 then .inr locator
  else
    let stride := if locator.length < 10 then 1 else st.step
    let step := if 10 ≤ locator.length then Word.saturatingMul st.step 2 else st.step
    .inl ⟨locator, st.idx - stride.toNat, step⟩

/-- The hashes a node sends to find the fork point, from its tip towards genesis. There is no answer when the loop does not end within one round for each block. -/
def buildLocator (chain : List ChainEntry) : Option (List BlockHash) :=
  if chain.isEmpty then some []
  else Loop.run (locatorStep chain) chain.length ⟨[], chain.length - 1, 1⟩

/-- The loop that collects the answer. The zero hash stands for no stop at all. -/
def selectHeadersLoop (stop : BlockHash) (max : Nat) : List BlockHash → List ChainEntry → List BlockHash
  | out, [] => out
  | out, e :: rest =>
      if max ≤ out.length then out
      else if stop ≠ .zero ∧ e.hash = stop then out ++ [e.hash]
      else selectHeadersLoop stop max (out ++ [e.hash]) rest

/-- Where the answer starts: after the first locator hash the chain has. -/
def locatorStart (chain : List ChainEntry) (locator : List BlockHash) : Nat :=
  match locator.findSome? fun h => chain.findIdx? fun e => e.hash = h with
  | some pos => pos + 1
  | none => 0

def selectHeadersForLocator (chain : List ChainEntry) (locator : List BlockHash) (stop : BlockHash) (max : Nat) :
    List BlockHash :=
  selectHeadersLoop stop max [] (chain.drop (locatorStart chain locator))

end QuantumVault
