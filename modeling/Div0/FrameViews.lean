import Div0.OpEffects

/-!
Views of a frame. Much of what is said about a frame does not depend on its stack, its gas
or the EVM around it. A relation that sees none of them is kept by every handler that keeps
it where it sets the program counter, the bitmap of jump destinations or the memory.
-/

namespace Div0.FrameViews

open Effects EvmContext Node WorldState Frame Opcodes FrameOps StateOps CallOps Interpreter
open OpPrograms OpEffects

/-- A relation that does not see the EVM, and of the frame neither the stack, nor the gas,
nor the place for the output of a child. -/
class FrameView (R : Active → Active → Prop) : Prop extends IsPreorder Active R where
  evm : ∀ (s : Active) (evm : Evm), R s { s with evm := evm }
  stack : ∀ (s : Active) (stack : EvmStack), R s { s with frame := { s.frame with stack := stack } }
  gas : ∀ (s : Active) (gas : UInt64), R s { s with frame := { s.frame with gas := gas } }
  output : ∀ (s : Active) (offset : UInt64) (size : UInt32),
    R s { s with frame := { s.frame with outputOffset := offset, outputSize := size } }

section Primitives

variable {R : Active → Active → Prop} [hview : FrameView R]

instance (stack : EvmStack) : Every (Kept R) (setStack stack) :=
  ⟨keeps_modify fun s => hview.stack s stack⟩

instance (f : World → World) : Every (Kept R) (updateState f) :=
  ⟨keeps_modify fun s => hview.evm s _⟩

instance (refund : UInt64) : Every (Kept R) (setGasRefund refund) :=
  ⟨keeps_modify fun s => hview.evm s _⟩

instance (logs : List EvmLog) (capacity : ℕ) : Every (Kept R) (setLogs logs capacity) :=
  ⟨keeps_modify fun s => hview.evm s _⟩

instance (child : CallFrame) (r : CallRegions) : Every (Kept R) (switchTo child r) :=
  ⟨keeps_modify fun s =>
    trans_of R (hview.evm s _) (hview.output { s with evm := _ } r.retOffset r.retSize.toUInt32)⟩

instance (cost : UInt64) : Every (Kept R) (charge cost) := by
  refine ⟨⟨fun s => ?_⟩⟩
  by_cases henough : cost ≤ s.frame.gas
  · rw [after_of_ok (charge_ok henough)]
    exact hview.gas s _
  · rw [after_of_error (charge_error henough)]
    exact refl_of R s

end Primitives

section Handlers

set_option synthInstance.maxSize 1024

variable {R : Active → Active → Prop} [FrameView R] {host : Host}
  [∀ offset size, Every (Kept R) (expandMemory host offset size)]

def isStoreOp : Opcode → Bool
  | .mstore | .mstore8 | .calldatacopy | .codecopy | .returndatacopy | .extcodecopy => true
  | _ => false

/-- The opcodes that write to the memory, where a write is not seen. -/
theorem handler_store_view [∀ offset bytes, Every (Kept R) (storeMemory offset bytes)]
    (cost : Opcode → UInt64) (schedule : GasSchedule) {opcode : Opcode}
    (hstore : isStoreOp opcode = true) : Keeps R (handler host cost schedule opcode) := by
  cases opcode <;> simp only [isStoreOp, Bool.false_eq_true] at hstore <;>
    simp only [handler, opMstore, opMstore8, opReturndatacopy, opExtcodecopy] <;> infer_instance

variable [∀ r, Every (Kept R) (expandCallMemory host r)]

def isPushOp : Opcode → Bool
  | .push _ => true
  | _ => false

theorem handler_view {cost : Opcode → UInt64} {schedule : GasSchedule} {opcode : Opcode}
    (hjump : isJumpOp opcode = false) (hpush : isPushOp opcode = false)
    (hstore : isStoreOp opcode = false) : Keeps R (handler host cost schedule opcode) := by
  cases hplain : isPlainOp opcode with
  | true => exact (handler_plain (P := Kept R) host cost schedule hplain).holds
  | false =>
    cases opcode
    case jump | jumpi => cases hjump
    case push => cases hpush
    case mstore | mstore8 | calldatacopy | codecopy | returndatacopy | extcodecopy => cases hstore
    case dup | swap | log | mload | keccak256 | return_ | revert | sstore | call | callcode
        | delegatecall | staticcall =>
      simp only [handler, opDup, opSwap, opMload, opKeccak256]
      infer_instance
    all_goals cases hplain

end Handlers

end Div0.FrameViews
