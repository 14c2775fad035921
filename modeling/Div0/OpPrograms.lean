import Div0.Interpreter

/-!
The handlers as programs built from primitives. Whatever passes on to composed programs has
to be shown for the primitives alone; that the handlers are composed of them, and of which,
is followed once, here.
-/

namespace Div0.OpPrograms

open BigEndian Effects EvmContext Node Uint256 WorldState Frame Opcodes FrameOps StateOps CallOps
open Interpreter

variable {host : Host}

set_option synthInstance.maxSize 1024

/-- A property that programs have which look at the state or report an error. -/
class Reads (P : ∀ ⦃α : Type⦄, Op α → Prop) : Prop extends Closed P where
  get : P (get : Op Active)
  fail : ∀ {α : Type} (error : EvmStatus), P (fail error : Op α)

/-- A property that a program keeps which leaves a memory or a pool. -/
class Strays (P : ∀ ⦃α : Type⦄, Op α → Prop) : Prop where
  stray : ∀ {α : Type} {access : Access}, access ≠ .stack → P (throw (.undefined access) : Op α)

section Reading

variable {P : ∀ ⦃α : Type⦄, Op α → Prop} [hP : Reads P] {α : Type}

instance : Every P (get : Op Active) := ⟨hP.get⟩

instance (error : EvmStatus) : Every P (fail error : Op α) := ⟨hP.fail error⟩

instance (c : Bool) (error : EvmStatus) : Every P (require c error) := by
  unfold require
  infer_instance

instance : Every P getFrame := by
  unfold getFrame
  infer_instance

instance : Every P getEvm := by
  unfold getEvm
  infer_instance

instance (error : EvmStatus) : Every P (requireState error) := by
  unfold requireState
  refine every_then fun evm => ?_
  split <;> infer_instance

instance (n : ℕ) : Every P (hasItems n) := by
  unfold hasItems
  infer_instance

instance (value : Word) : Every P (toU64 value) := by
  unfold toU64
  infer_instance

instance (op : Op Unit) [Every P op] : Every P (next op) := by
  unfold next
  infer_instance

instance (op : Op Bool) [Every P op] : Every P (nextCall op) := by
  unfold nextCall
  infer_instance

instance [∀ bitmap, Every P (setJumpdestBitmap bitmap)] : Every P (getJumpdestBitmap host) := by
  unfold getJumpdestBitmap
  refine every_then fun frame => ?_
  split
  · infer_instance
  · refine every_then fun frame => ?_
    split <;> infer_instance

instance [∀ pc, Every P (setPc pc)] (bitmap : Bytes) (dest : Word) :
    Every P (jumpTo bitmap dest) := by
  unfold jumpTo
  infer_instance

instance [∀ logs capacity, Every P (setLogs logs capacity)] (log : EvmLog) :
    Every P (evmLogVecPush host log) := by
  unfold evmLogVecPush
  infer_instance

instance [∀ f, Every P (updateState f)] (transfers : Bool) (setup : CallSetup) :
    Every P (sendValue host transfers setup) := by
  unfold sendValue
  infer_instance

section Straying

variable [hstrays : Strays P]

instance : Every P (throw (.undefined .pool) : Op α) := ⟨hstrays.stray (by simp)⟩

instance (o : Option α) : Every P (defined .memory o) := by
  cases o with
  | none => exact ⟨hstrays.stray (by simp)⟩
  | some a => exact inferInstanceAs (Every P (pure a : Op α))

instance (offset len : UInt64) : Every P (loadMemory offset len) := by
  unfold loadMemory
  infer_instance

instance (offset size : UInt64) : Every P (logData host offset size) := by
  unfold logData
  infer_instance

instance (r : CallRegions) : Every P (callInput r) := by
  unfold callInput
  infer_instance

instance [∀ mem, Every P (setMemory mem)] (offset : UInt64) (bytes : Bytes) :
    Every P (storeMemory offset bytes) := by
  unfold storeMemory
  infer_instance

end Straying

section Memory

variable [∀ mem, Every P (setMemory mem)] [∀ α : Type, Every P (throw .diverges : Op α)]

instance (offset size : UInt64) : Every P (expandMemory host offset size) := by
  unfold expandMemory
  refine every_then fun frame => ?_
  split <;> infer_instance

instance (r : CallRegions) : Every P (expandCallMemory host r) := by
  unfold expandCallMemory
  refine every_then fun frame => ?_
  dsimp only
  split
  · split <;> infer_instance
  · infer_instance

end Memory

end Reading

section Charging

variable {P : ∀ ⦃α : Type⦄, Op α → Prop} [Reads P] [∀ cost, Every P (charge cost)]

instance (overhead : UInt64) (requested : Word) (transfersValue : Bool) :
    Every P (divideGas overhead requested transfersValue) := by
  unfold divideGas
  infer_instance

instance [∀ addr, Every P (updateState fun ws => (wsWarmAddress host ws addr).2)] (ws : World)
    (target : Address) (requested : Word) (r : CallRegions) (transfersValue isNewAccount : Bool) :
    Every P (calculateCallGas host ws target requested r transfersValue isNewAccount) := by
  unfold calculateCallGas
  refine every_then fun _ => every_then fun frame => ?_
  split <;> infer_instance

instance [∀ addr, Every P (updateState fun ws => (wsWarmAddress host ws addr).2)]
    [∀ r, Every P (expandCallMemory host r)] (chargesNewAccount : Bool) (ws : World)
    (args : CallStackArgs) (regions : CallRegions) :
    Every P (setUpCall host chargesNewAccount ws args regions) := by
  unfold setUpCall
  infer_instance

instance [∀ refund, Every P (setGasRefund refund)]
    [∀ addr slot value, Every P (updateState fun ws => wsSetStorage host ws addr slot value)]
    (schedule : GasSchedule) (isCold : Bool) (address : Address)
    (slot current original newValue : Word) :
    Every P (writeStorage host schedule isCold address slot current original newValue) := by
  unfold writeStorage
  infer_instance

variable [∀ offset size, Every P (expandMemory host offset size)]

instance (destOffset : Word) (size cost : UInt64) :
    Every P (chargeCopy host destOffset size cost) := by
  unfold chargeCopy
  infer_instance

instance (offset : Word) (width cost : UInt64) :
    Every P (accessMemory host offset width cost) := by
  unfold accessMemory
  infer_instance

instance (offset size cost : UInt64) : Every P (chargeKeccak256 host offset size cost) := by
  unfold chargeKeccak256
  infer_instance

instance (topicCount : ℕ) (offset size : UInt64) :
    Every P (chargeLog host topicCount offset size) := by
  unfold chargeLog
  infer_instance

end Charging

/-- A property that programs have which use the stack. -/
class Stacks (P : ∀ ⦃α : Type⦄, Op α → Prop) : Prop extends Reads P where
  pop : P pop
  push : ∀ value, P (push value)
  ensureSpace : ∀ n, P (ensureSpace n)

section Stack

variable {P : ∀ ⦃α : Type⦄, Op α → Prop} [hP : Stacks P]

instance : Every P pop := ⟨hP.pop⟩

instance (value : Word) : Every P (push value) := ⟨hP.push value⟩

instance (n : ℕ) : Every P (ensureSpace n) := ⟨hP.ensureSpace n⟩

instance (n : ℕ) : Every P (popAll n) := by
  induction n with
  | zero => exact inferInstanceAs (Every P (pure _ : Op (List Word)))
  | succ n ih =>
    unfold popAll
    infer_instance

instance : Every P giveUp := by
  unfold giveUp
  infer_instance

instance : Every P popCallArgs := by
  unfold popCallArgs
  infer_instance

instance : Every P popCallArgsNoValue := by
  unfold popCallArgsNoValue
  infer_instance

instance [Strays P] [∀ child r, Every P (switchTo child r)] (setup : CallSetup)
    (params : ChildFrameParams) :
    Every P (enterChild setup params) := by
  unfold enterChild
  infer_instance

instance [∀ setup params, Every P (enterChild setup params)] (transfers : Bool)
    (params : ParamsOf) (setup : CallSetup) [Every P (sendValue host transfers setup)] :
    Every P (startCall host transfers params setup) := by
  unfold startCall
  infer_instance

instance (prep : World → Op (Option CallSetup)) [∀ ws, Every P (prep ws)] (transfers : Bool)
    (params : ParamsOf) [∀ setup, Every P (startCall host transfers params setup)] :
    Every P (callWith host prep transfers params) := by
  unfold callWith
  refine every_then fun ws => every_then fun made => ?_
  split <;> infer_instance

variable (cost : UInt64) [Every P (charge cost)]

instance (f : Word → Word → Word) : Every P (binaryOp f cost) := by
  unfold binaryOp
  infer_instance

instance (f : Word → Word) : Every P (unaryOp f cost) := by
  unfold unaryOp
  infer_instance

instance (f : Word → Word → Word → Word) : Every P (ternaryOp f cost) := by
  unfold ternaryOp
  infer_instance

instance (value : Active → Word) : Every P (pushOp value cost) := by
  unfold pushOp
  infer_instance

instance (f : Active → Word → Word) : Every P (lookupOp f cost) := by
  unfold lookupOp
  infer_instance

end Stack

section Handlers

variable {P : ∀ ⦃α : Type⦄, Op α → Prop} [Stacks P] [∀ cost, Every P (charge cost)]

instance [∀ r, Every P (expandCallMemory host r)]
    [∀ addr, Every P (updateState fun ws => (wsWarmAddress host ws addr).2)] (items : ℕ)
    (popArgs : Op CallStackArgs) [Every P popArgs] (chargesNewAccount : Bool) (ws : World) :
    Every P (prepare host items popArgs chargesNewAccount ws) := by
  unfold prepare
  refine every_then fun _ => every_then fun frame => ?_
  split
  · infer_instance
  · refine every_then fun args => ?_
    split <;> infer_instance

instance [∀ offset size, Every P (expandMemory host offset size)] : Every P (returnRange host) := by
  unfold returnRange
  infer_instance

instance [∀ offset size, Every P (expandMemory host offset size)]
    [∀ offset bytes, Every P (storeMemory offset bytes)] (source : CallFrame → Bytes)
    (cost : UInt64) : Every P (copyOp host source cost) := by
  unfold copyOp
  infer_instance

instance [Strays P] [∀ offset size, Every P (expandMemory host offset size)]
    [∀ logs capacity, Every P (setLogs logs capacity)] (topicCount : ℕ) :
    Every P (opLogN host topicCount) := by
  unfold opLogN
  infer_instance

instance [∀ refund, Every P (setGasRefund refund)]
    [∀ addr slot value, Every P (updateState fun ws => wsSetStorage host ws addr slot value)]
    [∀ addr slot, Every P (updateState fun ws => (wsWarmSlot host ws addr slot).2)]
    (schedule : GasSchedule) : Every P (opSstore host schedule) := by
  unfold opSstore
  infer_instance

variable [∀ o : Option Word, Every P (defined .stack o)]

instance : Every P chargeExp := by
  unfold chargeExp
  infer_instance

variable [∀ addr, Every P (updateState fun ws => (wsWarmAddress host ws addr).2)]

instance (f : World → Address → Word) : Every P (accountOp host f) := by
  unfold accountOp
  infer_instance

def isPlainOp : Opcode → Bool
  | .push _ | .dup _ | .swap _ | .jump | .jumpi | .mload | .mstore | .mstore8 | .calldatacopy
  | .codecopy | .returndatacopy | .extcodecopy | .keccak256 | .log _ | .return_ | .revert
  | .sstore | .call | .callcode | .delegatecall | .staticcall => false
  | _ => true

variable (host) in
theorem handler_plain
    [∀ addr slot, Every P (updateState fun ws => (wsWarmSlot host ws addr slot).2)]
    (cost : Opcode → UInt64) (schedule : GasSchedule) {opcode : Opcode}
    (h : isPlainOp opcode = true) : Every P (handler host cost schedule opcode) := by
  cases opcode <;> simp only [isPlainOp, Bool.false_eq_true] at h
  all_goals
    simp only [handler, opAdd, opExp, opPush0, opPop, opSload, opSelfbalance]
    infer_instance

end Handlers

end Div0.OpPrograms
