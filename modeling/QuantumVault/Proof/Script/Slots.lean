import QuantumVault.Script.Interpreter

/-!
# Scripts that do not read the slot

One opcode reads the slot a script runs in. A script without it runs the same way in every slot.
-/

namespace QuantumVault

open Result

variable [Crypto]

/-- The same run in another slot. -/
def Context.atSlot (ctx : Context) (slot : Slot) : Context := { ctx with currentSlot := slot }

/-- The script does not decode, or none of its instructions reads the slot. -/
def SlotFree (script : Bytes) : Prop :=
  match decodeScript script with
  | .ok instrs => ∀ instr ∈ instrs, instr.op ≠ .slotNumber
  | .error _ => True

omit [Crypto] in
theorem SlotFree.of_decode {script : Bytes} {instrs : List Instruction} (h : SlotFree script)
    (hdecode : decodeScript script = .ok instrs) : ∀ instr ∈ instrs, instr.op ≠ .slotNumber := by
  rwa [SlotFree, hdecode] at h

instance (script : Bytes) : Decidable (SlotFree script) :=
  match hdecode : decodeScript script with
  | .ok instrs => decidable_of_iff (∀ instr ∈ instrs, instr.op ≠ .slotNumber) (by rw [SlotFree, hdecode])
  | .error _ => .isTrue (by rw [SlotFree, hdecode]; trivial)

variable {ctx : Context} {slot : Slot} {instr : Instruction}

private theorem evalOp_atSlot (h : instr.op ≠ .slotNumber) (stack : Stack) :
    evalOp (ctx.atSlot slot) instr stack = evalOp ctx instr stack := by
  unfold evalOp
  split
  all_goals first | rfl | contradiction

private theorem step_atSlot (h : instr.op ≠ .slotNumber) (m : Machine) :
    Machine.step (ctx.atSlot slot) m instr = Machine.step ctx m instr := by
  unfold Machine.step
  simp only [evalOp_atSlot h]

private theorem executeInstructions_atSlot {instrs : List Instruction} (h : ∀ instr ∈ instrs, instr.op ≠ .slotNumber)
    (ctx : Context) (slot : Slot) (gas : GasMeter) :
    executeInstructions instrs (ctx.atSlot slot) gas = executeInstructions instrs ctx gas := by
  rw [executeInstructions, executeInstructions, foldlM_congr fun instr hinstr m => step_atSlot (h instr hinstr) m]

/-- **The verdict on a spend whose scripts do not read the slot is the same in every slot.** -/
theorem validateScript_slot {lock witness : Bytes} (h : SlotFree (witness ++ lock)) (tx : Transaction)
    (resolved : List TxOutput) (slot slot' : Slot) :
    validateScript lock witness tx resolved slot' = validateScript lock witness tx resolved slot := by
  unfold validateScript validateScriptWithGas execute
  cases hdecode : decodeScript (witness ++ lock) with
  | error e => rfl
  | ok instrs =>
      exact executeInstructions_atSlot (h.of_decode hdecode) (.new tx resolved slot lock) slot' _

end QuantumVault
