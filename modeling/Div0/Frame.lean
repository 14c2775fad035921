import Div0.Effects
import Div0.EvmContext
import Div0.Memory
import Div0.Uint256Ops
import Div0.WorldState

/-!
The operand stack, the call frame, and the EVM with the frame it executes. An opcode is a
program over the two: when it fails, what it changed before stays changed. Besides a
status code, an opcode can leave the C program without a defined behaviour, by touching
memory outside a buffer, or never come back from a memory expansion.

The arena requests for a stack are at most 32768 bytes; they fit a block and are taken to
be granted.
-/

namespace Div0.Frame

open BigEndian EvmContext Memory Node Uint256 WorldState

def stackMaxDepth : ℕ := 1024

/-- `evm_stack_t`, the top of the stack first. -/
structure EvmStack where
  items : List Word
  capacity : ℕ
  fits : items.length ≤ capacity
  bounded : capacity ≤ stackMaxDepth
  deriving DecidableEq

def evmStackInit : EvmStack := ⟨[], 32, by decide, by decide⟩

def evmStackHasItems (stack : EvmStack) (n : ℕ) : Bool := n ≤ stack.items.length

def evmStackHasSpace (stack : EvmStack) (n : ℕ) : Bool :=
  stack.items.length + n ≤ stackMaxDepth

def grownCapacity (capacity : ℕ) : ℕ :=
  if stackMaxDepth / 2 ≤ capacity then stackMaxDepth else capacity * 2

theorem grownCapacity_le (capacity : ℕ) : grownCapacity capacity ≤ stackMaxDepth := by
  have hmax : stackMaxDepth = 1024 := rfl
  unfold grownCapacity
  split <;> omega

def evmStackGrow (stack : EvmStack) : Option EvmStack :=
  if h : grownCapacity stack.capacity ≤ stack.capacity then none
  else some {
    items := stack.items
    capacity := grownCapacity stack.capacity
    fits := le_trans stack.fits (le_of_lt (not_le.mp h))
    bounded := grownCapacity_le stack.capacity }

/-- The loop of `evm_stack_ensure_space`. A capacity can be doubled at most ten times
before it is at the maximum, where growing fails. -/
def growUntil (n : ℕ) : ℕ → EvmStack → Option EvmStack
  | 0, _ => none
  | rounds + 1, stack =>
    if stack.items.length + n ≤ stack.capacity then some stack
    else match evmStackGrow stack with
      | none => none
      | some grown => growUntil n rounds grown

def evmStackEnsureSpace (stack : EvmStack) (n : ℕ) : Option EvmStack :=
  if evmStackHasSpace stack n then growUntil n 12 stack else none

variable {stack grown : EvmStack}

theorem evmStackGrow_spec (h : evmStackGrow stack = some grown) :
    grown.items = stack.items ∧ stack.capacity < grown.capacity ∧
      grown.capacity = grownCapacity stack.capacity := by
  unfold evmStackGrow at h
  split at h
  · cases h
  · next hlt =>
    cases h
    exact ⟨rfl, not_le.mp hlt, rfl⟩

/-- Room is made without touching the items. -/
theorem growUntil_spec {n rounds : ℕ} (h : growUntil n rounds stack = some grown) :
    grown.items = stack.items ∧ stack.capacity ≤ grown.capacity ∧
      stack.items.length + n ≤ grown.capacity := by
  induction rounds generalizing stack with
  | zero => cases h
  | succ rounds ih =>
    unfold growUntil at h
    split at h
    · next hroom =>
      cases h
      exact ⟨rfl, le_refl _, hroom⟩
    · cases hgrow : evmStackGrow stack with
      | none =>
        rw [hgrow] at h
        cases h
      | some larger =>
        rw [hgrow] at h
        obtain ⟨hitems, hlt, -⟩ := evmStackGrow_spec hgrow
        obtain ⟨hsame, hle, hroom⟩ := ih h
        rw [hitems] at hsame hroom
        exact ⟨hsame, le_trans (le_of_lt hlt) hle, hroom⟩

theorem evmStackEnsureSpace_spec {n : ℕ} (h : evmStackEnsureSpace stack n = some grown) :
    grown.items = stack.items ∧ stack.capacity ≤ grown.capacity ∧
      stack.items.length + n ≤ grown.capacity := by
  unfold evmStackEnsureSpace at h
  split at h
  · exact growUntil_spec h
  · cases h

/-- `evm_stack_push_unsafe`; `none` is a write past the capacity. -/
def evmStackPush (stack : EvmStack) (value : Word) : Option EvmStack :=
  if h : stack.items.length < stack.capacity then
    some ⟨value :: stack.items, stack.capacity, h, stack.bounded⟩
  else none

/-- `evm_stack_pop_unsafe`; `none` is a read below the bottom. -/
def evmStackPop : EvmStack → Option (Word × EvmStack)
  | ⟨[], _, _, _⟩ => none
  | ⟨value :: items, capacity, fits, bounded⟩ =>
    some (value, ⟨items, capacity, le_trans (Nat.le_succ _) fits, bounded⟩)

def evmStackPeek (stack : EvmStack) (depth : ℕ) : Option Word := stack.items[depth]?

def evmStackDup (stack : EvmStack) (depth : ℕ) : Option EvmStack :=
  match stack.items[depth - 1]? with
  | none => none
  | some value => evmStackPush stack value

def evmStackSwap (stack : EvmStack) (depth : ℕ) : Option EvmStack :=
  match stack.items[0]?, stack.items[depth]? with
  | some top, some other =>
    some {
      items := (stack.items.set 0 other).set depth top
      capacity := stack.capacity
      fits := by rw [List.length_set, List.length_set]; exact stack.fits
      bounded := stack.bounded }
  | _, _ => none

inductive ExecType where
  | txStart
  | call
  | staticcall
  | delegatecall
  | callcode
  | create
  | create2
  deriving DecidableEq, Repr

/-- `call_frame_t`. The code hash is left out: it is always the zero hash, with which the
jump destination cache is not consulted. -/
structure CallFrame where
  pc : ℕ
  gas : UInt64
  stack : EvmStack
  memory : EvmMemory
  code : Bytes
  outputOffset : UInt64
  outputSize : UInt32
  depth : ℕ
  execType : ExecType
  isStatic : Bool
  caller : Address
  address : Address
  value : Word
  input : Bytes
  jumpdestBitmap : Option Bytes

inductive Fork where
  | shanghai
  | cancun
  | prague
  | unknown
  deriving DecidableEq, Repr

/-- `evm_t`: what an execution reads and changes. `state` is `none` while no state access
is set; `returnData` is the return buffer up to its size. -/
structure Evm where
  fork : Fork
  framePoolDepth : ℕ
  memoryPoolDepth : ℕ
  pendingFrame : Option CallFrame
  block : BlockContext
  tx : TxContext
  returnData : Bytes
  returnDataCapacity : ℕ
  state : Option World
  gasRefund : UInt64
  logs : List EvmLog
  logsCapacity : ℕ

/-- The EVM and the frame it executes. -/
structure Active where
  evm : Evm
  frame : CallFrame

/-- What an access outside its bounds is made to. -/
inductive Access where
  | stack
  | memory
  | pool
  deriving DecidableEq

/-- How an opcode ends other than by `EVM_OK`. -/
inductive Halt where
  | status (error : EvmStatus)
  | undefined (access : Access)
  | diverges
  deriving DecidableEq

abbrev Op := EStateM Halt Active

section Primitives

def fail {α : Type} (error : EvmStatus) : Op α := throw (.status error)

def require (c : Bool) (error : EvmStatus) : Op Unit := if c then pure () else fail error

def defined {α : Type} (access : Access) : Option α → Op α
  | some a => pure a
  | none => throw (.undefined access)

def getFrame : Op CallFrame := do return (← get).frame

def getEvm : Op Evm := do return (← get).evm

def setStack (stack : EvmStack) : Op Unit :=
  modify fun s => { s with frame := { s.frame with stack := stack } }

def setMemory (mem : EvmMemory) : Op Unit :=
  modify fun s => { s with frame := { s.frame with memory := mem } }

def setPc (pc : ℕ) : Op Unit := modify fun s => { s with frame := { s.frame with pc := pc } }

def setJumpdestBitmap (bitmap : Option Bytes) : Op Unit :=
  modify fun s => { s with frame := { s.frame with jumpdestBitmap := bitmap } }

def updateState (f : World → World) : Op Unit :=
  modify fun s => { s with evm := { s.evm with state := s.evm.state.map f } }

def setGasRefund (refund : UInt64) : Op Unit :=
  modify fun s => { s with evm := { s.evm with gasRefund := refund } }

def setLogs (logs : List EvmLog) (capacity : ℕ) : Op Unit :=
  modify fun s => { s with evm := { s.evm with logs := logs, logsCapacity := capacity } }

def requireState (error : EvmStatus) : Op World := do
  match (← getEvm).state with
  | some ws => pure ws
  | none => fail error

def hasItems (n : ℕ) : Op Unit := do
  require (evmStackHasItems (← getFrame).stack n) .stackUnderflow

def ensureSpace (n : ℕ) : Op Unit := do
  match evmStackEnsureSpace (← getFrame).stack n with
  | some stack => setStack stack
  | none => fail .stackOverflow

def push (value : Word) : Op Unit := do
  setStack (← defined .stack (evmStackPush (← getFrame).stack value))

def pop : Op Word := do
  let (value, stack) ← defined .stack (evmStackPop (← getFrame).stack)
  setStack stack
  return value

def popAll : ℕ → Op (List Word)
  | 0 => return []
  | n + 1 => do
    let value ← pop
    return value :: (← popAll n)

/-- `if (frame->gas < cost) return EVM_OUT_OF_GAS; frame->gas -= cost;` -/
def charge (cost : UInt64) : Op Unit := do
  require (cost ≤ (← getFrame).gas) .outOfGas
  modify fun s => { s with frame := { s.frame with gas := s.frame.gas - cost } }

theorem charge_ok {cost : UInt64} {s : Active} (h : cost ≤ s.frame.gas) :
    charge cost s = .ok () { s with frame := { s.frame with gas := s.frame.gas - cost } } := by
  change EStateM.bind (if decide (cost ≤ s.frame.gas) = true then pure () else fail .outOfGas) _ s = _
  rw [if_pos (decide_eq_true h)]
  rfl

theorem charge_error {cost : UInt64} {s : Active} (h : ¬cost ≤ s.frame.gas) :
    charge cost s = .error (.status .outOfGas) s := by
  change EStateM.bind (if decide (cost ≤ s.frame.gas) = true then pure () else fail .outOfGas) _ s = _
  rw [if_neg (by simpa using h)]
  rfl

theorem charge_inv {cost : UInt64} {s s' : Active} {u : Unit} (h : charge cost s = .ok u s') :
    cost ≤ s.frame.gas ∧ s' = { s with frame := { s.frame with gas := s.frame.gas - cost } } := by
  by_cases henough : cost ≤ s.frame.gas
  · rw [charge_ok henough] at h
    cases h
    exact ⟨henough, rfl⟩
  · rw [charge_error henough] at h
    cases h

/-- A word that must fit 64 bits; the opcodes report out of gas otherwise. -/
def toU64 (value : Word) : Op UInt64 := do
  require (uint256FitsU64 value) .outOfGas
  return uint256ToU64Unsafe value

/-- `evm_memory_expand` on the frame's memory; a refusal is reported as out of gas. -/
def expandMemory (host : Host) (offset size : UInt64) : Op UInt64 := do
  match evmMemoryExpand host.alloc (← getFrame).memory offset size with
  | .expanded cost mem =>
    setMemory mem
    return cost
  | .refused => fail .outOfGas
  | .diverges => throw .diverges

def loadMemory (offset len : UInt64) : Op Bytes := do
  defined .memory (evmMemoryLoad (← getFrame).memory offset len)

def storeMemory (offset : UInt64) (bytes : Bytes) : Op Unit := do
  setMemory (← defined .memory (evmMemoryStore (← getFrame).memory offset bytes))

end Primitives

end Div0.Frame
