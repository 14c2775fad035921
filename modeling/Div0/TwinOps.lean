import Div0.Capacities

/-!
Every opcode does the same in two states that differ in capacities alone. The handlers have
it from the primitives by instance search; what they read from the state is neither the
room of the stack nor the size of a buffer.
-/

namespace Div0.TwinOps

open BigEndian Node Uint256 WorldState Frame Opcodes FrameOps StateOps CallOps Interpreter TwoRuns
open Capacities

variable {host : Host}

section Handlers

set_option synthInstance.maxSize 1024

instance (f : Word → Word → Word) (cost : UInt64) : Twinned (binaryOp f cost) := by
  unfold binaryOp
  infer_instance

instance (f : Word → Word) (cost : UInt64) : Twinned (unaryOp f cost) := by
  unfold unaryOp
  infer_instance

instance (f : Word → Word → Word → Word) (cost : UInt64) : Twinned (ternaryOp f cost) := by
  unfold ternaryOp
  infer_instance

/-- A value that depends neither on the stack nor on capacities. -/
class Plain {τ : Type} (value : Active → τ) : Prop where
  plain : ∀ evm frame stack logs data,
    value ⟨{ evm with logsCapacity := logs, returnDataCapacity := data },
      { frame with stack := stack }⟩ = value ⟨evm, frame⟩

instance plain_of_same {τ : Type} (value : Active → τ)
    [h : ∀ evm frame stack logs data, Same
      (value ⟨{ evm with logsCapacity := logs, returnDataCapacity := data },
        { frame with stack := stack }⟩) (value ⟨evm, frame⟩)] : Plain value :=
  ⟨fun evm frame stack logs data => (h evm frame stack logs data).eq⟩

/-- A program that depends on such a value. -/
theorem follows_plain {α τ : Type} (value : Active → τ) [h : Plain value] (f : τ → Op α)
    [hf : ∀ a, Twinned (f a)] :
    Twinned (get >>= fun s => f (value s)) := by
  have hsame : ∀ evm frame stack logs data, Same
      (f (value ⟨{ evm with logsCapacity := logs, returnDataCapacity := data },
        { frame with stack := stack }⟩)) (f (value ⟨evm, frame⟩)) :=
    fun evm frame stack logs data => ⟨congrArg f (h.plain evm frame stack logs data)⟩
  infer_instance

instance (value : Active → Word) [Plain value] (cost : UInt64) : Twinned (pushOp value cost) := by
  have hpush := follows_plain value push
  unfold pushOp
  infer_instance

instance (f : Active → Word → Word) [∀ index, Plain fun s => f s index] (cost : UInt64) :
    Twinned (lookupOp f cost) := by
  have hpush := fun index => follows_plain (fun s => f s index) push
  unfold lookupOp
  infer_instance

instance (f : World → Address → Word) : Twinned (accountOp host f) := by
  unfold accountOp
  infer_instance

instance : Twinned (getJumpdestBitmap host) := by
  unfold getJumpdestBitmap
  refine @follows_getFrame _ _ (fun frame => ?_) inferInstance
  split
  · infer_instance
  · refine @follows_getFrame _ _ (fun frame => ?_) inferInstance
    split <;> infer_instance

instance (bitmap : Bytes) (dest : Word) : Twinned (jumpTo bitmap dest) := by
  unfold jumpTo
  infer_instance

instance (schedule : GasSchedule) (isCold : Bool) (address : Address)
    (slot current original newValue : Word) : Twinned
      (writeStorage host schedule isCold address slot current original newValue) := by
  unfold writeStorage
  infer_instance

instance (destOffset : Word) (size cost : UInt64) :
    Twinned (chargeCopy host destOffset size cost) := by
  unfold chargeCopy
  infer_instance

instance (offset : Word) (width cost : UInt64) : Twinned (accessMemory host offset width cost) := by
  unfold accessMemory
  infer_instance

instance (offset size cost : UInt64) : Twinned (chargeKeccak256 host offset size cost) := by
  unfold chargeKeccak256
  infer_instance

instance (topicCount : ℕ) (offset size : UInt64) :
    Twinned (chargeLog host topicCount offset size) := by
  unfold chargeLog
  infer_instance

instance (source : CallFrame → Bytes)
    [hsource : ∀ frame stack, Same (source { frame with stack := stack }) (source frame)]
    (cost : UInt64) : Twinned (copyOp host source cost) := by
  have hstore : ∀ (dest size : UInt64) (srcOffset : Word), Twinned
      (getFrame >>= fun frame => storeMemory dest (zeroPadded (source frame) srcOffset size)) := by
    intro dest size srcOffset
    have hsame : ∀ frame stack, Same
        (storeMemory dest (zeroPadded (source { frame with stack := stack }) srcOffset size))
        (storeMemory dest (zeroPadded (source frame) srcOffset size)) :=
      fun frame stack => ⟨by rw [(hsource frame stack).eq]⟩
    infer_instance
  unfold copyOp
  infer_instance

instance (offset size : UInt64) : Twinned (logData host offset size) := by
  unfold logData
  infer_instance

instance : Twinned (returnRange host) := by
  unfold returnRange
  infer_instance

end Handlers

section Calls

instance (overhead : UInt64) (requested : Word) (transfersValue : Bool) :
    Twinned (divideGas overhead requested transfersValue) := by
  unfold divideGas
  infer_instance

instance (ws : World) (target : Address) (requested : Word) (r : CallRegions)
    (transfersValue isNewAccount : Bool) : Twinned
      (calculateCallGas host ws target requested r transfersValue isNewAccount) := by
  unfold calculateCallGas
  refine follows_then fun _ => @follows_getFrame _ _ (fun frame => ?_) inferInstance
  split <;> infer_instance

instance (r : CallRegions) : Twinned (expandCallMemory host r) := by
  unfold expandCallMemory
  refine @follows_getFrame _ _ (fun frame => ?_) inferInstance
  dsimp only
  split
  · split <;> infer_instance
  · infer_instance

instance (chargesNewAccount : Bool) (ws : World) (args : CallStackArgs) (regions : CallRegions) :
    Twinned (setUpCall host chargesNewAccount ws args regions) := by
  unfold setUpCall
  infer_instance

instance : Twinned popCallArgs := by
  unfold popCallArgs
  infer_instance

instance : Twinned popCallArgsNoValue := by
  unfold popCallArgsNoValue
  infer_instance

instance (items : ℕ) (popArgs : Op CallStackArgs) (chargesNewAccount : Bool) (ws : World)
    [Twinned popArgs] :
    Twinned (prepare host items popArgs chargesNewAccount ws) := by
  unfold prepare
  refine follows_then fun _ => @follows_getFrame _ _ (fun frame => ?_) inferInstance
  split
  · infer_instance
  · refine follows_then fun args => ?_
    split <;> infer_instance

instance (transfers : Bool) (setup : CallSetup) : Twinned (sendValue host transfers setup) := by
  unfold sendValue
  infer_instance

instance : Twinned giveUp := by
  unfold giveUp
  infer_instance

instance (r : CallRegions) : Twinned (callInput r) := by
  unfold callInput
  infer_instance

instance (setup : CallSetup) (params : ChildFrameParams) : Twinned (enterChild setup params) := by
  have hsame : ∀ (code input : Bytes) (frame : CallFrame) (stack : EvmStack), Same
      (switchTo (childFrame { frame with stack := stack } setup code input params) setup.regions
        >>= fun _ => pure true : Op Bool)
      (switchTo (childFrame frame setup code input params) setup.regions >>= fun _ => pure true) :=
    fun _ _ _ _ => ⟨rfl⟩
  unfold enterChild
  infer_instance

instance (transfers : Bool) (params : ParamsOf)
    [hparams : ∀ frame stack setup, Same (params { frame with stack := stack } setup)
      (params frame setup)] (setup : CallSetup) :
    Twinned (startCall host transfers params setup) := by
  have hsame : ∀ frame stack, Same (enterChild setup (params { frame with stack := stack } setup))
      (enterChild setup (params frame setup)) :=
    fun frame stack => ⟨by rw [(hparams frame stack setup).eq]⟩
  unfold startCall
  infer_instance

instance (prep : World → Op (Option CallSetup)) [∀ ws, Twinned (prep ws)]
    (transfers : Bool) (params : ParamsOf)
    [∀ frame stack setup, Same (params { frame with stack := stack } setup) (params frame setup)] :
    Twinned (callWith host prep transfers params) := by
  unfold callWith
  refine follows_then fun ws => follows_then fun made => ?_
  split <;> infer_instance

end Calls

section Dispatch

set_option synthInstance.maxSize 1024

variable [OnArena host]

instance (op : Op Unit) [Twinned op] : Twinned (next op) := by
  unfold next
  infer_instance

instance (op : Op Bool) [Twinned op] : Twinned (nextCall op) := by
  unfold nextCall
  infer_instance

instance (depth : ℕ) (cost : UInt64) : Twinned (opDup depth cost) := by
  have hspace : Twinned (getFrame >>= fun frame =>
      require (evmStackHasSpace frame.stack 1) .stackOverflow >>= fun _ =>
        charge cost >>= fun _ => getFrame >>= fun frame =>
          defined .stack (evmStackDup frame.stack depth) >>= fun stack => setStack stack) := by
    refine follows_items (fun frame stack hitems => ?_) fun frame => inferInstance
    simp only [evmStackHasSpace, hitems]
  unfold opDup
  infer_instance

variable (host) in
theorem handler_follows (cost : Opcode → UInt64) (schedule : GasSchedule) (opcode : Opcode) :
    Twinned (handler host cost schedule opcode) := by
  cases opcode <;>
    simp only [handler, opAdd, opExp, opPush0, opPushN, opPop, opSwap, opMload, opMstore, opMstore8,
      opKeccak256, opReturndatacopy, opJump, opJumpi, opSload, opSstore, opExtcodecopy,
      opSelfbalance, opLogN] <;>
    infer_instance

instance : Twinned (dispatch host) := by
  unfold dispatch
  refine @follows_get _ _ (fun s => ?_) inferInstance
  have hhandler := fun code => handler_follows host (gasTable s.evm.fork)
    (gasSchedule s.evm.fork) (dispatchTable code)
  split <;> infer_instance

end Dispatch

end Div0.TwinOps
