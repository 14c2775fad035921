import Div0.StateOps

/-!
CALL, CALLCODE, DELEGATECALL and STATICCALL: the operands, the gas for the call and for
the child, the transfer of value, and the child frame. A call that cannot start pushes
zero and the caller goes on.
-/

namespace Div0.CallOps

open BigEndian Memory Node Uint256 Uint256Ops WorldState Frame Opcodes StateOps

structure CallStackArgs where
  requestedGas : Word
  addr : Word
  value : Word
  argsOffset : Word
  argsSize : Word
  retOffset : Word
  retSize : Word

variable (host : Host)

def popCallArgs : Op CallStackArgs := do
  let requestedGas ← pop
  let addr ← pop
  let value ← pop
  let argsOffset ← pop
  let argsSize ← pop
  let retOffset ← pop
  let retSize ← pop
  return ⟨requestedGas, addr, value, argsOffset, argsSize, retOffset, retSize⟩

def popCallArgsNoValue : Op CallStackArgs := do
  let requestedGas ← pop
  let addr ← pop
  let argsOffset ← pop
  let argsSize ← pop
  let retOffset ← pop
  let retSize ← pop
  return ⟨requestedGas, addr, uint256Zero, argsOffset, argsSize, retOffset, retSize⟩

/-- The two memory regions of a call. -/
structure CallRegions where
  argsOffset : UInt64
  argsSize : UInt64
  retOffset : UInt64
  retSize : UInt64

def validateMemoryArgs (args : CallStackArgs) : Option CallRegions :=
  if uint256FitsU64 args.argsOffset && uint256FitsU64 args.argsSize &&
      uint256FitsU64 args.retOffset && uint256FitsU64 args.retSize then
    some ⟨uint256ToU64Unsafe args.argsOffset, uint256ToU64Unsafe args.argsSize,
      uint256ToU64Unsafe args.retOffset, uint256ToU64Unsafe args.retSize⟩
  else none

/-- `call_setup_t` of a call that goes on. -/
structure CallSetup where
  target : Address
  value : Word
  childGas : UInt64
  regions : CallRegions

def callChildGas (gasLeft requested : UInt64) : UInt64 :=
  let maxChild := gasCapCall gasLeft
  if requested < maxChild then requested else maxChild

def regionEnd (offset size : UInt64) : UInt64 := if 0 < size then offset + size else 0

def maxEnd (r : CallRegions) : UInt64 :=
  max (regionEnd r.argsOffset r.argsSize) (regionEnd r.retOffset r.retSize)

def regionOverflows (offset size : UInt64) : Bool :=
  decide (0 < size) && decide (uint64Max - size < offset)

/-- `call_memory_cost`; `none` is the result `false`. -/
def callMemoryCost (mem : EvmMemory) (r : CallRegions) : Option UInt64 :=
  if regionOverflows r.argsOffset r.argsSize || regionOverflows r.retOffset r.retSize then none
  else if maxEnd r = 0 then some 0
  else some (evmMemoryExpansionCost (evmMemorySize mem / 32) ((maxEnd r + 31) / 32))

def callGasCost (wasCold transfersValue isNewAccount : Bool) (memCost : UInt64) : UInt64 :=
  let valueCost :=
    if transfersValue then gasCallValue + (if isNewAccount then gasNewAccount else 0) else 0
  accountAccessCost wasCold + valueCost + memCost

def stipend (transfersValue : Bool) : UInt64 := if transfersValue then gasCallStipend else 0

/-- The last part of `calculate_call_gas`: the overhead is charged, and what is left is
divided between the caller and the child. The stipend is not taken from the caller. -/
def divideGas (overhead : UInt64) (requested : Word) (transfersValue : Bool) : Op UInt64 := do
  charge overhead
  let gas := (← getFrame).gas
  let requestedGas := if uint256FitsU64 requested then uint256ToU64Unsafe requested else uint64Max
  let childGas := callChildGas gas requestedGas + stipend transfersValue
  let gasToDeduct := childGas - stipend transfersValue
  charge (if gas < gasToDeduct then gas else gasToDeduct)
  return childGas

/-- `calculate_call_gas`: the gas of the child. -/
def calculateCallGas (ws : World) (target : Address) (requested : Word)
    (r : CallRegions) (transfersValue isNewAccount : Bool) : Op UInt64 := do
  updateState fun ws => (wsWarmAddress host ws target).2
  match callMemoryCost (← getFrame).memory r with
  | none => fail .outOfGas
  | some memCost =>
    let wasCold := (wsWarmAddress host ws target).1
    divideGas (callGasCost wasCold transfersValue isNewAccount memCost) requested transfersValue

def expandCallMemory (r : CallRegions) : Op Unit := do
  let mem := (← getFrame).memory
  if evmMemorySize mem < maxEnd r then
    match evmMemoryExpand host.alloc mem 0 (maxEnd r) with
    | .expanded _ mem => setMemory mem
    | .refused => pure ()
    | .diverges => throw .diverges
  else pure ()

/-- The last part of the `prepare_` functions: the test for value in a static context, the
gas and the memory. -/
def setUpCall (chargesNewAccount : Bool) (ws : World) (args : CallStackArgs)
    (regions : CallRegions) : Op CallSetup := do
  let transfersValue := !uint256IsZero args.value
  require (!((← getFrame).isStatic && transfersValue)) .writeProtection
  let target := addressFromUint256 args.addr
  let isNewAccount := chargesNewAccount && transfersValue && wsAccountIsEmpty host ws target
  let childGas ← calculateCallGas host ws target args.requestedGas regions transfersValue
    isNewAccount
  expandCallMemory host regions
  return ⟨target, args.value, childGas, regions⟩

/-- The `prepare_` functions. They differ in the operands, and in whether value sent to an
empty account is charged as a new account; where the operands have no value, the test for
a static context cannot fail. `none` is `EVM_CALL_DEPTH_EXCEEDED`. -/
def prepare (items : ℕ) (popArgs : Op CallStackArgs) (chargesNewAccount : Bool)
    (ws : World) : Op (Option CallSetup) := do
  hasItems items
  if maxCallDepth ≤ (← getFrame).depth then do
    let _ ← popAll items
    return none
  else do
    let args ← popArgs
    match validateMemoryArgs args with
    | none => fail .outOfGas
    | some regions => return some (← setUpCall host chargesNewAccount ws args regions)

abbrev prepareCall : World → Op (Option CallSetup) := prepare host 7 popCallArgs true

abbrev prepareCallcode : World → Op (Option CallSetup) :=
  prepare host 7 popCallArgs false

abbrev prepareStaticcall : World → Op (Option CallSetup) :=
  prepare host 6 popCallArgsNoValue false

abbrev prepareDelegatecall : World → Op (Option CallSetup) :=
  prepare host 6 popCallArgsNoValue false

structure ChildFrameParams where
  execType : ExecType
  isStatic : Bool
  caller : Address
  address : Address
  value : Word

/-- The parameters of a child, from the caller and the set-up of the call. -/
abbrev ParamsOf := CallFrame → CallSetup → ChildFrameParams

/-- A call that does not start: zero is pushed, and the frame goes on. -/
def giveUp : Op Bool := do
  push uint256Zero
  return false

/-- The input of the child, a view of the caller's memory. Nothing writes to that memory
while the child runs. -/
def callInput (r : CallRegions) : Op Bytes := do
  if r.argsSize = 0 then return [] else loadMemory r.argsOffset r.argsSize

def childFrame (parent : CallFrame) (setup : CallSetup) (code input : Bytes)
    (params : ChildFrameParams) : CallFrame where
  pc := 0
  gas := setup.childGas
  stack := evmStackInit
  memory := evmMemoryInit
  code := code
  outputOffset := setup.regions.retOffset
  outputSize := setup.regions.retSize.toUInt32
  depth := parent.depth + 1
  execType := params.execType
  isStatic := params.isStatic
  caller := params.caller
  address := params.address
  value := params.value
  input := input
  jumpdestBitmap := none

def evmMaxCallDepth : ℕ := 1024

/-- The child takes a frame and a memory from the pools and becomes the pending frame; the
caller remembers where the child's output goes. -/
def switchTo (child : CallFrame) (r : CallRegions) : Op Unit :=
  modify fun s =>
    { evm := { s.evm with
        framePoolDepth := s.evm.framePoolDepth + 1
        memoryPoolDepth := s.evm.memoryPoolDepth + 1
        pendingFrame := some child }
      frame := { s.frame with
        outputOffset := r.retOffset
        outputSize := r.retSize.toUInt32 } }

/-- The last part of the call opcodes, with `init_child_frame`. An empty pool of frames is
a call that does not start; a null memory has no defined use. -/
def enterChild (setup : CallSetup) (params : ChildFrameParams) : Op Bool := do
  let ws ← requireState .invalidOpcode
  let evm ← getEvm
  if evm.framePoolDepth < evmMaxCallDepth then do
    if evm.memoryPoolDepth < evmMaxCallDepth then do
      let input ← callInput setup.regions
      let child := childFrame (← getFrame) setup (wsGetCode ws setup.target) input params
      switchTo child setup.regions
      return true
    else throw (.undefined .pool)
  else giveUp

def affords (ws : World) (sender : Address) (value : Word) : Bool :=
  uint256IsZero value || !uint256Lt (wsGetBalance host ws sender) value

/-- The transfer in `op_call`; the results of both operations are ignored. -/
def transferValue (sender target : Address) (value : Word) (ws : World) : World :=
  if uint256IsZero value then ws
  else (wsAddBalance host (wsSubBalance host ws sender value).2 target value).2

def sendValue (transfers : Bool) (setup : CallSetup) : Op Bool := do
  let ws ← requireState .invalidOpcode
  let sender := (← getFrame).address
  if affords host ws sender setup.value then do
    updateState (if transfers then transferValue host sender setup.target setup.value else id)
    return true
  else return false

def startCall (transfers : Bool) (params : ParamsOf) (setup : CallSetup) : Op Bool := do
  let sent ← sendValue host transfers setup
  if sent then do enterChild setup (params (← getFrame) setup) else giveUp

def callWith (prep : World → Op (Option CallSetup)) (transfers : Bool)
    (params : ParamsOf) : Op Bool := do
  let ws ← requireState .invalidOpcode
  match ← prep ws with
  | none => giveUp
  | some setup => startCall host transfers params setup

abbrev opCall : Op Bool :=
  callWith host (prepareCall host) true fun frame setup =>
    ⟨.call, frame.isStatic, frame.address, setup.target, setup.value⟩

abbrev opStaticcall : Op Bool :=
  callWith host (prepareStaticcall host) false fun frame setup =>
    ⟨.staticcall, true, frame.address, setup.target, uint256Zero⟩

/-- `op_delegatecall`: the code of the target in the context of the caller. -/
abbrev opDelegatecall : Op Bool :=
  callWith host (prepareDelegatecall host) false fun frame _ =>
    ⟨.delegatecall, frame.isStatic, frame.caller, frame.address, frame.value⟩

/-- `op_callcode`: the balance is looked at, but no value is moved. -/
abbrev opCallcode : Op Bool :=
  callWith host (prepareCallcode host) false fun frame setup =>
    ⟨.callcode, frame.isStatic, frame.address, frame.address, setup.value⟩

end Div0.CallOps
