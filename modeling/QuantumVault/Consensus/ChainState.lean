import QuantumVault.Core.Params
import QuantumVault.Lib.Loop

/-!
# Fork choice and finality

The header chain: all known entries, the best tip, and the finalized point that sits `k` blocks below it. The rule is the longest chain by height, ties going to the lower hash, and only blocks that descend from the finalized block are taken. Nothing here checks that a block's height is one more than its parent's.

Operations that change the state in place return the new state next to their result, also when they fail.
-/

namespace QuantumVault

structure ChainEntry where
  hash : BlockHash
  parentHash : BlockHash
  height : Height
  slot : Slot
  producerKeyHash : Hash256
deriving DecidableEq

/-- Key of the equivocation index. -/
structure SlotProducer where
  slot : Slot
  producer : Hash256
deriving DecidableEq

namespace SlotProducer

instance : Ord SlotProducer := ⟨compareLex (compareOn SlotProducer.slot) (compareOn SlotProducer.producer)⟩

instance : Std.TransOrd SlotProducer :=
  inferInstanceAs (Std.TransCmp (compareLex (compareOn SlotProducer.slot) (compareOn SlotProducer.producer)))

instance : Std.LawfulEqOrd SlotProducer where
  eq_of_compare {a b} h := by
    obtain ⟨hslot, hproducer⟩ := compareLex_eq_eq.mp h
    cases a
    cases b
    cases Std.LawfulEqOrd.eq_of_compare hslot
    cases Std.LawfulEqOrd.eq_of_compare hproducer
    rfl

end SlotProducer

/-- Evidence that a producer made two blocks for one slot. -/
structure EquivocationProof where
  slot : Slot
  producerKeyHash : Hash256
  first : BlockHash
  second : BlockHash
deriving DecidableEq

inductive ChainError where
  | unknownParent (parent : BlockHash)
  | duplicateBlock (hash : BlockHash)
  | conflictsWithFinalized (finalHeight blockHeight : UInt64)
deriving DecidableEq

/-- The chain state. The tip is always a known entry, which is what makes looking it up total. -/
structure ChainState where
  entries : Std.ExtTreeMap BlockHash ChainEntry
  tipHash : BlockHash
  tip_mem : tipHash ∈ entries
  kFinality : UInt64
  finalHash : BlockHash
  finalHeight : Height
  slotProducers : Std.ExtTreeMap SlotProducer BlockHash
  equivocations : Std.ExtTreeMap SlotProducer EquivocationProof

namespace ChainState

/-- A chain state that knows nothing but its genesis entry, which is final from the start. -/
def new (genesis : ChainEntry) (params : ConsensusParams) : ChainState where
  entries := (∅ : Std.ExtTreeMap BlockHash ChainEntry).insert genesis.hash genesis
  tipHash := genesis.hash
  tip_mem := Std.ExtTreeMap.mem_insert_self
  kFinality := params.kFinality
  finalHash := genesis.hash
  finalHeight := genesis.height
  slotProducers := ∅
  equivocations := ∅

/-- The placeholder entry a node starts from: every hash in it is zero and its parent link points to itself. -/
def genesisEntry : ChainEntry := ⟨.zero, .zero, 0, 0, .zero⟩

def genesis (params : ConsensusParams) : ChainState := new genesisEntry params

def tip (s : ChainState) : ChainEntry := s.entries.get s.tipHash s.tip_mem

def tipHeight (s : ChainState) : Height := s.tip.height

def tipSlot (s : ChainState) : Slot := s.tip.slot

def get (s : ChainState) (hash : BlockHash) : Option ChainEntry := s.entries[hash]?

/-! ### Walking back along parent links -/

/-- One round of the ancestor walk: stop with an answer, or go on at the parent. -/
def ancestorStep (entries : Std.ExtTreeMap BlockHash ChainEntry) (ancestor : BlockHash) (targetHeight : Height)
    (current : BlockHash) : BlockHash ⊕ Bool :=
  if current = ancestor then .inr true
  else
    match entries[current]? with
    | none => .inr false
    | some e =>
        if e.height ≤ targetHeight then .inr false
        else if current = e.parentHash then .inr false
        else .inl e.parentHash

/-- Whether one block is the other or on the chain behind it. There is no answer when the walk does not end, which a cycle of parent links makes possible. -/
def isAncestor (s : ChainState) (ancestor descendant : BlockHash) : Option Bool :=
  match s.entries[ancestor]? with
  | none => some false
  | some e => Loop.run (ancestorStep s.entries ancestor e.height) (s.entries.size + 1) descendant

def isFinal (s : ChainState) (hash : BlockHash) : Option Bool := s.isAncestor hash s.finalHash

/-- One round of the walk to the new finalized block. -/
def finalityStep (entries : Std.ExtTreeMap BlockHash ChainEntry) (target : Height) (current : BlockHash) :
    BlockHash ⊕ Option (BlockHash × Height) :=
  match entries[current]? with
  | none => .inr none
  | some e =>
      if e.height = target then .inr (some (current, e.height))
      else if e.height < target ∨ current = e.parentHash then .inr none
      else .inl e.parentHash

def findFinal (s : ChainState) (target : Height) : Option (Option (BlockHash × Height)) :=
  Loop.run (finalityStep s.entries target) (s.entries.size + 1) s.tipHash

/-- Move the finalized point to `k` blocks below the tip, never backwards. -/
def advanceFinality (s : ChainState) : ChainState :=
  match Word.checkedSub s.tipHeight s.kFinality with
  | none => s
  | some target =>
      if target ≤ s.finalHeight then s
      else
        match s.findFinal target with
        | some (some (hash, height)) => { s with finalHash := hash, finalHeight := height }
        | _ => s

/-! ### Adding a block -/

def insertEntry (s : ChainState) (entry : ChainEntry) : ChainState :=
  { s with
    entries := s.entries.insert entry.hash entry
    tip_mem := Std.ExtTreeMap.mem_insert.mpr (Or.inr s.tip_mem) }

/-- Index the block by slot and producer, and keep evidence of the first conflict. -/
def recordEquivocation (s : ChainState) (slot : Slot) (producer : Hash256) (hash : BlockHash) : ChainState :=
  let key : SlotProducer := ⟨slot, producer⟩
  match s.slotProducers[key]? with
  | some first =>
      if first ≠ hash then
        { s with equivocations := s.equivocations.insertIfNew key ⟨slot, producer, first, hash⟩ }
      else s
  | none => { s with slotProducers := s.slotProducers.insert key hash }

/-- The fork-choice comparison of a new block with the current tip. -/
def becomesTip (s : ChainState) (entry : ChainEntry) : Bool :=
  match compare entry.height s.tipHeight with
  | .gt => true
  | .eq => Hash256.lt entry.hash s.tipHash
  | .lt => false

theorem recordEquivocation_entries (s : ChainState) (slot : Slot) (producer : Hash256) (hash : BlockHash) :
    (s.recordEquivocation slot producer hash).entries = s.entries := by
  simp only [recordEquivocation]
  split
  · split <;> rfl
  · rfl

def withTip (s : ChainState) (hash : BlockHash) (hmem : hash ∈ s.entries) : ChainState :=
  { s with tipHash := hash, tip_mem := hmem }

/-- Add a block and say whether it became the tip. A block with the all-zero hash is exempt from the parent check and from the finality check. -/
def addBlock (s : ChainState) (entry : ChainEntry) : Except ChainError Bool × ChainState :=
  if entry.parentHash ∉ s.entries ∧ entry.hash ≠ .zero then (.error (.unknownParent entry.parentHash), s)
  else if entry.hash ∈ s.entries then (.error (.duplicateBlock entry.hash), s)
  else if entry.hash ≠ .zero ∧ s.isAncestor s.finalHash entry.parentHash ≠ some true then
    (.error (.conflictsWithFinalized s.finalHeight entry.height), s)
  else
    let s' := (s.insertEntry entry).recordEquivocation entry.slot entry.producerKeyHash entry.hash
    have hmem : entry.hash ∈ s'.entries := by
      rw [recordEquivocation_entries]
      exact Std.ExtTreeMap.mem_insert_self
    if s'.becomesTip entry then (.ok true, (s'.withTip entry.hash hmem).advanceFinality)
    else (.ok false, s')

end ChainState

end QuantumVault
