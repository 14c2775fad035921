import Div0.FrameOps

/-!
The opcodes that use the state access: storage, the accounts of others and the own
balance, and LOG, RETURN and REVERT. Warming an address or a slot comes before the charge,
so that it stays even where the instruction then runs out of gas.
-/

namespace Div0.StateOps

open BigEndian EvmContext Memory Node Uint256 Uint256Ops WorldState Frame Opcodes FrameOps

variable (host : Host)

section Storage

def opSload (schedule : GasSchedule) : Op Unit := do
  let ws ← requireState .invalidOpcode
  hasItems 1
  let slot ← pop
  let address := (← getFrame).address
  let warmed := wsWarmSlot host ws address slot
  updateState fun ws => (wsWarmSlot host ws address slot).2
  charge (schedule.sload warmed.1)
  let value := wsGetStorage host warmed.2 address slot
  ensureSpace 1
  push value

/-- The refund counter after a refund of either sign; it never goes below zero. -/
def addRefund (counter : UInt64) (refund : ℤ) : UInt64 :=
  if 0 ≤ refund then counter + UInt64.ofNat refund.toNat
  else
    let toSubtract := UInt64.ofNat (-refund).toNat
    if toSubtract ≤ counter then counter - toSubtract else 0

/-- The last part of `op_sstore`: the charge, the refund and the write. -/
def writeStorage (schedule : GasSchedule) (isCold : Bool) (address : Address)
    (slot current original newValue : Word) : Op Unit := do
  require (schedule.sstoreMinGas < (← getFrame).gas) .outOfGas
  charge (schedule.sstore isCold current original newValue)
  setGasRefund (addRefund (← getEvm).gasRefund (schedule.sstoreRefund current original newValue))
  updateState fun ws => wsSetStorage host ws address slot newValue

def opSstore (schedule : GasSchedule) : Op Unit := do
  let ws ← requireState .invalidOpcode
  require (!(← getFrame).isStatic) .writeProtection
  hasItems 2
  let slot ← pop
  let newValue ← pop
  let address := (← getFrame).address
  let current := wsGetStorage host ws address slot
  let original := wsGetOriginalStorage host ws address slot
  updateState fun ws => (wsWarmSlot host ws address slot).2
  writeStorage host schedule (wsWarmSlot host ws address slot).1 address slot current original
    newValue

end Storage

section Accounts

def accountAccessCost (isCold : Bool) : UInt64 :=
  if isCold then gasColdAccountAccess else gasWarmAccess

def accountOp (f : World → Address → Word) : Op Unit := do
  let ws ← requireState .stateUnavailable
  hasItems 1
  let addr := addressFromUint256 (← pop)
  let warmed := wsWarmAddress host ws addr
  updateState fun ws => (wsWarmAddress host ws addr).2
  charge (accountAccessCost warmed.1)
  let value := f warmed.2 addr
  ensureSpace 1
  push value

abbrev opBalance : Op Unit := accountOp host fun ws addr => wsGetBalance host ws addr

abbrev opExtcodesize : Op Unit :=
  accountOp host fun ws addr => sizeWord (wsGetCodeSize ws addr)

/-- `op_extcodehash`: zero where no account exists. -/
abbrev opExtcodehash : Op Unit := accountOp host fun ws addr =>
  if wsAccountExists host ws addr then hashToUint256 (wsGetCodeHash host ws addr) else uint256Zero

def opExtcodecopy : Op Unit := do
  let ws ← requireState .stateUnavailable
  hasItems 4
  let addr := addressFromUint256 (← pop)
  let destOffset ← pop
  let srcOffset ← pop
  let size ← pop
  let warmed := wsWarmAddress host ws addr
  updateState fun ws => (wsWarmAddress host ws addr).2
  if uint256IsZero size then charge (accountAccessCost warmed.1)
  else do
    let size ← toU64 size
    let dest ← chargeCopy host destOffset size (accountAccessCost warmed.1)
    storeMemory dest (zeroPadded (wsGetCode warmed.2 addr) srcOffset size)

def opSelfbalance (cost : UInt64) : Op Unit := do
  let ws ← requireState .stateUnavailable
  pushOp (fun s => wsGetBalance host ws s.frame.address) cost

end Accounts

section Logs

def logSize : ℕ := 192

def evmLogVecPush (log : EvmLog) : Op Unit := do
  let evm ← getEvm
  if evm.logsCapacity ≤ evm.logs.length then do
    let newCapacity := if evm.logsCapacity = 0 then 16 else evm.logsCapacity * 2
    require (host.alloc (newCapacity * logSize)) .outOfGas
    setLogs (evm.logs ++ [log]) newCapacity
  else setLogs (evm.logs ++ [log]) evm.logsCapacity

def logData (offset size : UInt64) : Op Bytes := do
  if size = 0 then return []
  else do
    require (host.alloc size.toNat) .outOfGas
    loadMemory offset size

def chargeLog (topicCount : ℕ) (offset size : UInt64) : Op Unit := do
  let topicCost := UInt64.ofNat topicCount * gasLogTopic
  require (gasLog ≤ uint64Max - topicCost) .outOfGas
  require (size ≤ uint64Max / gasLogData) .outOfGas
  let dataCost := size * gasLogData
  require (gasLog + topicCost ≤ uint64Max - dataCost) .outOfGas
  let gasCost := gasLog + topicCost + dataCost
  let memCost ← expandMemory host offset size
  require (gasCost ≤ uint64Max - memCost) .outOfGas
  charge (gasCost + memCost)

def opLogN (topicCount : ℕ) : Op Unit := do
  hasItems (2 + topicCount)
  require (!(← getFrame).isStatic) .writeProtection
  let offset ← pop
  let size ← pop
  require (uint256FitsU64 offset && uint256FitsU64 size) .outOfGas
  let offset := uint256ToU64Unsafe offset
  let size := uint256ToU64Unsafe size
  let topics ← popAll topicCount
  chargeLog host topicCount offset size
  let data ← logData host offset size
  evmLogVecPush host ⟨(← getFrame).address, topics.map hashFromUint256, data⟩

end Logs

/-- The handler of RETURN and REVERT: the region of memory that is handed back. -/
def returnRange : Op (UInt64 × UInt64) := do
  hasItems 2
  let offset ← pop
  let size ← pop
  require (uint256FitsU64 offset && uint256FitsU64 size) .outOfGas
  let offset := uint256ToU64Unsafe offset
  let size := uint256ToU64Unsafe size
  let memCost ← expandMemory host offset size
  charge memCost
  return (offset, size)

end Div0.StateOps
