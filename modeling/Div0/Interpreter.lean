import Div0.CallOps

/-!
The interpreter: one dispatch of the current frame, and what the main loop does with the
result of a frame. `execute_frame` and `evm_execute_env` are one machine here: a step is
one dispatch, followed by the switch of frames when the dispatch ended the frame. A run
that leaves the defined behaviour of C, or hangs in a memory expansion, is stuck.
-/

namespace Div0.Interpreter

open Effects EvmContext Memory Node Uint256 Frame Opcodes FrameOps StateOps CallOps

/-- `frame_result_t`. No handler creates a contract, so `FRAME_CREATE` is left out. -/
inductive FrameResult where
  | stop
  | return_ (offset size : UInt64)
  | revert (offset size : UInt64)
  | call
  | error (status : EvmStatus)

def next (op : Op Unit) : Op (Option FrameResult) := do
  op
  return none

/-- A call opcode: the frame is left only when there is a child to run. -/
def nextCall (op : Op Bool) : Op (Option FrameResult) := do
  if ← op then return some .call else return none

def handler (host : Host) (cost : Opcode → UInt64) (schedule : GasSchedule) :
    Opcode → Op (Option FrameResult)
  | .stop => return some .stop
  | .add => next opAdd
  | .mul => next (opMul (cost .mul))
  | .sub => next (opSub (cost .sub))
  | .div => next (opDiv (cost .div))
  | .sdiv => next (opSdiv (cost .sdiv))
  | .mod => next (opMod (cost .mod))
  | .smod => next (opSmod (cost .smod))
  | .addmod => next (opAddmod (cost .addmod))
  | .mulmod => next (opMulmod (cost .mulmod))
  | .exp => next opExp
  | .signextend => next (opSignextend (cost .signextend))
  | .lt => next (opLt (cost .lt))
  | .gt => next (opGt (cost .gt))
  | .slt => next (opSlt (cost .slt))
  | .sgt => next (opSgt (cost .sgt))
  | .eq => next (opEq (cost .eq))
  | .iszero => next (opIszero (cost .iszero))
  | .and => next (opAnd (cost .and))
  | .or => next (opOr (cost .or))
  | .xor => next (opXor (cost .xor))
  | .not => next (opNot (cost .not))
  | .byte => next (opByte (cost .byte))
  | .shl => next (opShl (cost .shl))
  | .shr => next (opShr (cost .shr))
  | .sar => next (opSar (cost .sar))
  | .keccak256 => next (opKeccak256 host (cost .keccak256))
  | .address => next (opAddress (cost .address))
  | .balance => next (opBalance host)
  | .origin => next (opOrigin (cost .origin))
  | .caller => next (opCaller (cost .caller))
  | .callvalue => next (opCallvalue (cost .callvalue))
  | .calldataload => next (opCalldataload (cost .calldataload))
  | .calldatasize => next (opCalldatasize (cost .calldatasize))
  | .calldatacopy => next (opCalldatacopy host (cost .calldatacopy))
  | .codesize => next (opCodesize (cost .codesize))
  | .codecopy => next (opCodecopy host (cost .codecopy))
  | .gasprice => next (opGasprice (cost .gasprice))
  | .extcodesize => next (opExtcodesize host)
  | .extcodecopy => next (opExtcodecopy host)
  | .returndatasize => next (opReturndatasize (cost .returndatasize))
  | .returndatacopy => next (opReturndatacopy host (cost .returndatacopy))
  | .extcodehash => next (opExtcodehash host)
  | .blockhash => next (opBlockhash (cost .blockhash))
  | .coinbase => next (opCoinbase (cost .coinbase))
  | .timestamp => next (opTimestamp (cost .timestamp))
  | .number => next (opNumber (cost .number))
  | .prevrandao => next (opPrevrandao (cost .prevrandao))
  | .gaslimit => next (opGaslimit (cost .gaslimit))
  | .chainid => next (opChainid (cost .chainid))
  | .selfbalance => next (opSelfbalance host (cost .selfbalance))
  | .basefee => next (opBasefee (cost .basefee))
  | .blobhash => next (opBlobhash (cost .blobhash))
  | .blobbasefee => next (opBlobbasefee (cost .blobbasefee))
  | .pop => next (opPop (cost .pop))
  | .mload => next (opMload host (cost .mload))
  | .mstore => next (opMstore host (cost .mstore))
  | .mstore8 => next (opMstore8 host (cost .mstore8))
  | .sload => next (opSload host schedule)
  | .sstore => next (opSstore host schedule)
  | .jump => next (opJump host (cost .jump))
  | .jumpi => next (opJumpi host (cost .jumpi))
  | .pc => next (opPc (cost .pc))
  | .msize => next (opMsize (cost .msize))
  | .gas => next (opGas (cost .gas))
  | .jumpdest => next (opJumpdest (cost .jumpdest))
  | .push0 => next (opPush0 (cost .push0))
  | .push n => next (opPushN n (cost (.push n)))
  | .dup n => next (opDup n (cost (.dup n)))
  | .swap n => next (opSwap n (cost (.swap n)))
  | .log n => next (opLogN host n)
  | .call => nextCall (opCall host)
  | .callcode => nextCall (opCallcode host)
  | .delegatecall => nextCall (opDelegatecall host)
  | .staticcall => nextCall (opStaticcall host)
  | .return_ => do
    let range ← returnRange host
    return some (.return_ range.1 range.2)
  | .revert => do
    let range ← returnRange host
    return some (.revert range.1 range.2)
  | .invalid => fail .invalidOpcode

/-- `DISPATCH`: the end of the code stops the frame. -/
def dispatch (host : Host) : Op (Option FrameResult) := do
  let s ← get
  match s.frame.code[s.frame.pc]? with
  | none => return some .stop
  | some code =>
    setPc (s.frame.pc + 1)
    handler host (gasTable s.evm.fork) (gasSchedule s.evm.fork) (dispatchTable code)

/-- The loop of `copy_return_data` that doubles the capacity from 256 on. A size is below
2^64, so 57 rounds are enough. -/
def returnCapacity (size : ℕ) : ℕ → ℕ → ℕ
  | 0, _ => size
  | rounds + 1, capacity =>
    if capacity < size then
      if 2 ^ 63 ≤ capacity then size else returnCapacity size rounds (capacity * 2)
    else capacity

/-- `copy_return_data`; `none` where it would read outside the memory or write to a null
buffer. -/
def copyReturnData (host : Host) (evm : Evm) (mem : EvmMemory) (offset size : UInt64) :
    Option Evm :=
  if size = 0 then some { evm with returnData := [] }
  else
    match evmMemoryLoad mem offset size with
    | none => none
    | some bytes =>
      if size.toNat ≤ evm.returnDataCapacity then some { evm with returnData := bytes }
      else
        let capacity := returnCapacity size.toNat 57 256
        if host.alloc capacity then
          some { evm with returnData := bytes, returnDataCapacity := capacity }
        else none

/-- The running machine: the current frame, the saved parents with the last one first, and
the gas the execution started with. -/
structure Machine where
  active : Active
  parents : List CallFrame
  initialGas : UInt64

abbrev Outcome := EvmExecutionResult × Evm

def failed (m : Machine) (error : EvmStatus) : EvmExecutionResult :=
  ⟨.error, error, m.initialGas, 0, [], []⟩

/-- The parent with the child's data in its memory; `none` for a write outside it. -/
def storeOutput (evm : Evm) (parent : CallFrame) : Option CallFrame :=
  let copied := evm.returnData.take parent.outputSize.toNat
  if copied.length = 0 then some parent
  else match evmMemoryStore parent.memory parent.outputOffset copied with
    | none => none
    | some mem => some { parent with memory := mem }

/-- The end of a child: its frame and memory go back to the pools, and the parent goes on
with the result on its stack. -/
def resume (m : Machine) (evm : Evm) (parent : CallFrame) (parents : List CallFrame)
    (result : Word) : Next Machine Outcome :=
  match evmStackPush parent.stack result with
  | none => .stuck
  | some stack =>
    .running { m with
      active := {
        evm := { evm with
          framePoolDepth := evm.framePoolDepth - 1
          memoryPoolDepth := evm.memoryPoolDepth - 1 }
        frame := { parent with stack := stack } }
      parents := parents }

/-- A child that stopped, returned or reverted: its data and its unused gas go to the
parent. -/
def finishChild (host : Host) (m : Machine) (offset size : UInt64) (result : Word) :
    Next Machine Outcome :=
  match m.parents with
  | [] => .stuck
  | parent :: parents =>
    match copyReturnData host m.active.evm m.active.frame.memory offset size with
    | none => .stuck
    | some evm =>
      match storeOutput evm parent with
      | none => .stuck
      | some parent =>
        resume m evm { parent with gas := parent.gas + m.active.frame.gas } parents result

def succeed (m : Machine) (evm : Evm) : Next Machine Outcome :=
  .finished (⟨.stop, .ok, m.initialGas - m.active.frame.gas, evm.gasRefund, evm.returnData,
    evm.logs⟩, evm)

/-- What the main loop of `evm_execute_env` does with the result of a frame. After STOP the
root frame reports the return buffer as it is. -/
def settle (host : Host) (m : Machine) : FrameResult → Next Machine Outcome
  | .stop =>
    if m.active.frame.depth = 0 then succeed m m.active.evm
    else finishChild host m 0 0 (uint256FromU64 1)
  | .return_ offset size =>
    if m.active.frame.depth = 0 then
      match copyReturnData host m.active.evm m.active.frame.memory offset size with
      | none => .stuck
      | some evm => succeed m evm
    else finishChild host m offset size (uint256FromU64 1)
  | .revert offset size =>
    if m.active.frame.depth = 0 then
      match copyReturnData host m.active.evm m.active.frame.memory offset size with
      | none => .stuck
      | some evm =>
        .finished (⟨.error, .ok, m.initialGas - m.active.frame.gas, 0, evm.returnData, []⟩, evm)
    else finishChild host m offset size uint256Zero
  | .call =>
    if evmMaxCallDepth ≤ m.parents.length then
      .finished (failed m .callDepthExceeded, m.active.evm)
    else match m.active.evm.pendingFrame with
      | none => .stuck
      | some child =>
        .running { m with
          active := ⟨{ m.active.evm with pendingFrame := none }, child⟩
          parents := m.active.frame :: m.parents }
  | .error status =>
    if m.active.frame.depth = 0 then .finished (failed m status, m.active.evm)
    else match m.parents with
      | [] => .stuck
      | parent :: parents =>
        resume m { m.active.evm with returnData := [] } parent parents uint256Zero

def step (host : Host) (m : Machine) : Next Machine Outcome :=
  match dispatch host m.active with
  | .ok none s => .running { m with active := s }
  | .ok (some result) s => settle host { m with active := s } result
  | .error (.status error) s => settle host { m with active := s } (.error error)
  | .error _ _ => .stuck

def rootFrame (call : CallParams) : CallFrame where
  pc := 0
  gas := call.gas
  stack := evmStackInit
  memory := evmMemoryInit
  code := call.code
  outputOffset := 0
  outputSize := 0
  depth := 0
  execType := .txStart
  isStatic := call.isStatic
  caller := call.caller
  address := call.address
  value := call.value
  input := call.input
  jumpdestBitmap := none

def evmInit (fork : Fork) : Evm where
  fork := fork
  framePoolDepth := 0
  memoryPoolDepth := 0
  pendingFrame := none
  block := blockContextInit
  tx := ⟨addressZero, uint256Zero, []⟩
  returnData := []
  returnDataCapacity := 0
  state := none
  gasRefund := 0
  logs := []
  logsCapacity := 0

def evmReset (evm : Evm) : Evm :=
  { evm with
    framePoolDepth := 0
    memoryPoolDepth := 0
    pendingFrame := none
    returnData := []
    gasRefund := 0
    logs := [] }

def start (evm : Evm) (env : ExecutionEnv) : Machine where
  active := {
    evm := { evm with
      block := env.block
      tx := env.tx
      framePoolDepth := evm.framePoolDepth + 1
      memoryPoolDepth := evm.memoryPoolDepth + 1 }
    frame := rootFrame env.call }
  parents := []
  initialGas := env.call.gas

def evmExecuteEnv (host : Host) (fuel : ℕ) (evm : Evm) (env : ExecutionEnv) : Option Outcome :=
  if evmMaxCallDepth ≤ evm.framePoolDepth then
    some (⟨.error, .callDepthExceeded, 0, 0, [], []⟩, { evm with block := env.block, tx := env.tx })
  else runFor (step host) fuel (start evm env)

end Div0.Interpreter
