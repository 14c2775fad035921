import Div0.Opcodes
import Div0.Uint256Div

/-!
The opcodes that work on the frame alone, or read the block, the transaction or the return
buffer. Handlers that share a shape are one definition with parameters; each opcode keeps
its own name. The order of the checks is the source's: most handlers look at the stack
first and then at the gas, PUSH the other way round, and the memory opcodes take their
operands off the stack before they look at the gas.
-/

namespace Div0.FrameOps

open BigEndian Buffer EvmContext Memory Node Uint256 Uint256Ops Uint256Div Frame Opcodes

variable (host : Host) (cost : UInt64)

section Arithmetic

def binaryOp (f : Word → Word → Word) (cost : UInt64) : Op Unit := do
  hasItems 2
  charge cost
  let a ← pop
  let b ← pop
  push (f a b)

def unaryOp (f : Word → Word) (cost : UInt64) : Op Unit := do
  hasItems 1
  charge cost
  let a ← pop
  push (f a)

def ternaryOp (f : Word → Word → Word → Word) (cost : UInt64) : Op Unit := do
  hasItems 3
  charge cost
  let a ← pop
  let b ← pop
  let n ← pop
  push (f a b n)

def opAdd : Op Unit := do
  hasItems 2
  let a ← pop
  let b ← pop
  push (uint256Add a b)

abbrev opMul : Op Unit := binaryOp uint256Mul cost
abbrev opSub : Op Unit := binaryOp uint256Sub cost
abbrev opDiv : Op Unit := binaryOp uint256Div cost
abbrev opSdiv : Op Unit := binaryOp uint256Sdiv cost
abbrev opMod : Op Unit := binaryOp uint256Mod cost
abbrev opSmod : Op Unit := binaryOp uint256Smod cost
abbrev opAddmod : Op Unit := ternaryOp uint256Addmod cost
abbrev opMulmod : Op Unit := ternaryOp uint256Mulmod cost
abbrev opSignextend : Op Unit := binaryOp uint256Signextend cost

/-- The charge of `op_exp`. The exponent is looked at in place, below the base. It has at
most 32 bytes, so the test for an overflow of the cost never fires. -/
def chargeExp : Op Unit := do
  let exponentPeek ← defined .stack (evmStackPeek (← getFrame).stack 1)
  let byteLength := UInt64.ofNat (uint256ByteLength exponentPeek)
  require (byteLength ≤ (uint64Max - gasExpBase) / gasExpByte) .outOfGas
  charge (gasExpBase + gasExpByte * byteLength)

def opExp : Op Unit := do
  hasItems 2
  chargeExp
  let base ← pop
  let exponent ← pop
  push (uint256Exp base exponent)

abbrev opLt : Op Unit := binaryOp (fun a b => ofBool (uint256Lt a b)) cost
abbrev opGt : Op Unit := binaryOp (fun a b => ofBool (uint256Gt a b)) cost
abbrev opSlt : Op Unit := binaryOp (fun a b => ofBool (uint256Slt a b)) cost
abbrev opSgt : Op Unit := binaryOp (fun a b => ofBool (uint256Sgt a b)) cost
abbrev opEq : Op Unit := binaryOp (fun a b => ofBool (uint256Eq a b)) cost
abbrev opIszero : Op Unit := unaryOp (fun a => ofBool (uint256IsZero a)) cost

abbrev opAnd : Op Unit := binaryOp uint256And cost
abbrev opOr : Op Unit := binaryOp uint256Or cost
abbrev opXor : Op Unit := binaryOp uint256Xor cost
abbrev opNot : Op Unit := unaryOp uint256Not cost
abbrev opByte : Op Unit := binaryOp uint256Byte cost
abbrev opShl : Op Unit := binaryOp uint256Shl cost
abbrev opShr : Op Unit := binaryOp uint256Shr cost
abbrev opSar : Op Unit := binaryOp uint256Sar cost

end Arithmetic

section Stack

def opPush0 : Op Unit := do
  require (cost ≤ (← getFrame).gas) .outOfGas
  ensureSpace 1
  charge cost
  push uint256Zero

def opPushN (n : ℕ) (cost : UInt64) : Op Unit := do
  require (cost ≤ (← getFrame).gas) .outOfGas
  ensureSpace 1
  charge cost
  let frame ← getFrame
  setPc (frame.pc + n)
  push (uint256FromBytesBe ((frame.code.drop frame.pc).take n))

def opPop : Op Unit := do
  hasItems 1
  charge cost
  let _ ← pop

def opDup (depth : ℕ) (cost : UInt64) : Op Unit := do
  hasItems depth
  require (evmStackHasSpace (← getFrame).stack 1) .stackOverflow
  charge cost
  setStack (← defined .stack (evmStackDup (← getFrame).stack depth))

def opSwap (depth : ℕ) (cost : UInt64) : Op Unit := do
  hasItems (depth + 1)
  charge cost
  setStack (← defined .stack (evmStackSwap (← getFrame).stack depth))

end Stack

section Values

def pushOp (value : Active → Word) (cost : UInt64) : Op Unit := do
  ensureSpace 1
  charge cost
  push (value (← get))

abbrev opAddress : Op Unit := pushOp (fun s => addressToUint256 s.frame.address) cost
abbrev opOrigin : Op Unit := pushOp (fun s => addressToUint256 s.evm.tx.origin) cost
abbrev opCaller : Op Unit := pushOp (fun s => addressToUint256 s.frame.caller) cost
abbrev opCallvalue : Op Unit := pushOp (fun s => s.frame.value) cost
abbrev opGasprice : Op Unit := pushOp (fun s => s.evm.tx.gasPrice) cost

def sizeWord (n : ℕ) : Word := uint256FromU64 (UInt64.ofNat n)

abbrev opCalldatasize : Op Unit := pushOp (fun s => sizeWord s.frame.input.length) cost
abbrev opCodesize : Op Unit := pushOp (fun s => sizeWord s.frame.code.length) cost
abbrev opReturndatasize : Op Unit := pushOp (fun s => sizeWord s.evm.returnData.length) cost
abbrev opMsize : Op Unit := pushOp (fun s => uint256FromU64 (evmMemorySize s.frame.memory)) cost
abbrev opPc : Op Unit := pushOp (fun s => sizeWord (s.frame.pc - 1)) cost
abbrev opGas : Op Unit := pushOp (fun s => uint256FromU64 s.frame.gas) cost

abbrev opCoinbase : Op Unit := pushOp (fun s => addressToUint256 s.evm.block.coinbase) cost
abbrev opTimestamp : Op Unit := pushOp (fun s => uint256FromU64 s.evm.block.timestamp) cost
abbrev opNumber : Op Unit := pushOp (fun s => uint256FromU64 s.evm.block.number) cost
abbrev opPrevrandao : Op Unit := pushOp (fun s => s.evm.block.prevRandao) cost
abbrev opGaslimit : Op Unit := pushOp (fun s => uint256FromU64 s.evm.block.gasLimit) cost
abbrev opChainid : Op Unit := pushOp (fun s => uint256FromU64 s.evm.block.chainId) cost
abbrev opBasefee : Op Unit := pushOp (fun s => s.evm.block.baseFee) cost
abbrev opBlobbasefee : Op Unit := pushOp (fun s => s.evm.block.blobBaseFee) cost

/-- A handler that replaces the topmost word by a value that depends on it and on the
context. -/
def lookupOp (f : Active → Word → Word) (cost : UInt64) : Op Unit := do
  hasItems 1
  charge cost
  let index ← pop
  push (f (← get) index)

def blockHashValue (block : BlockContext) (number : Word) : Word :=
  if uint256FitsU64 number then
    let num := uint256ToU64Unsafe number
    let minBlock := if 256 ≤ block.number then block.number - 256 else 0
    match block.getBlockHash with
    | some getBlockHash =>
      if minBlock ≤ num ∧ num < block.number then
        match getBlockHash num with
        | some hash => hashToUint256 hash
        | none => uint256Zero
      else uint256Zero
    | none => uint256Zero
  else uint256Zero

def blobHashValue (tx : TxContext) (index : Word) : Word :=
  if uint256FitsU64 index then
    match tx.blobHashes[(uint256ToU64Unsafe index).toNat]? with
    | some hash => hashToUint256 hash
    | none => uint256Zero
  else uint256Zero

/-- The value `op_calldataload` pushes: 32 bytes, with zeros past the end of the input. -/
def calldataValue (input : Bytes) (offset : Word) : Word :=
  if uint256FitsU64 offset then
    let start := (uint256ToU64Unsafe offset).toNat
    let bytes := (input.drop start).take 32
    uint256FromBytesBe (bytes ++ List.replicate (32 - bytes.length) 0)
  else uint256Zero

abbrev opBlockhash : Op Unit := lookupOp (fun s => blockHashValue s.evm.block) cost
abbrev opBlobhash : Op Unit := lookupOp (fun s => blobHashValue s.evm.tx) cost
abbrev opCalldataload : Op Unit := lookupOp (fun s => calldataValue s.frame.input) cost

end Values

section MemoryAccess

/-- The part that MLOAD, MSTORE and MSTORE8 share: the offset, the expansion for `width`
bytes, and the charge with its test for overflow. -/
def accessMemory (host : Host) (offset : Word) (width cost : UInt64) : Op UInt64 := do
  let offset ← toU64 offset
  require (offset ≤ uint64Max - width) .outOfGas
  let memCost ← expandMemory host offset width
  require (memCost ≤ uint64Max - cost) .outOfGas
  charge (cost + memCost)
  return offset

def opMload : Op Unit := do
  hasItems 1
  let offset ← pop
  let offset ← accessMemory host offset 32 cost
  push (uint256FromBytesBe (← loadMemory offset 32))

def opMstore : Op Unit := do
  hasItems 2
  let offset ← pop
  let value ← pop
  let offset ← accessMemory host offset 32 cost
  storeMemory offset (uint256ToBytesBe value)

def opMstore8 : Op Unit := do
  hasItems 2
  let offset ← pop
  let value ← pop
  let offset ← accessMemory host offset 1 cost
  storeMemory offset [value.limb0.toUInt8]

def chargeKeccak256 (host : Host) (offset size cost : UInt64) : Op Unit := do
  require (offset ≤ uint64Max - size) .outOfGas
  let memCost ← expandMemory host offset size
  require (size ≤ uint64Max - 31) .outOfGas
  let words := (size + 31) / 32
  require (words ≤ uint64Max / gasKeccak256Word) .outOfGas
  let wordCost := gasKeccak256Word * words
  require (wordCost ≤ uint64Max - cost) .outOfGas
  let dynamicCost := cost + wordCost
  require (memCost ≤ uint64Max - dynamicCost) .outOfGas
  charge (dynamicCost + memCost)

def opKeccak256 : Op Unit := do
  hasItems 2
  let offset ← pop
  let size ← pop
  if uint256IsZero size then do
    charge cost
    push (hashToUint256 (host.keccak256 []))
  else do
    require (uint256FitsU64 offset && uint256FitsU64 size) .outOfGas
    let offset := uint256ToU64Unsafe offset
    let size := uint256ToU64Unsafe size
    chargeKeccak256 host offset size cost
    push (hashToUint256 (host.keccak256 (← loadMemory offset size)))

/-- The part that the copy opcodes share: the destination, the expansion, and the charge,
here without a test for overflow. -/
def chargeCopy (host : Host) (destOffset : Word) (size cost : UInt64) : Op UInt64 := do
  let dest ← toU64 destOffset
  require (dest ≤ uint64Max - size) .outOfGas
  let memCost ← expandMemory host dest size
  charge (cost + gasCopy * ((size + 31) / 32) + memCost)
  return dest

def zeroPadded (source : Bytes) (srcOffset : Word) (size : UInt64) : Bytes :=
  let bytes :=
    if uint256FitsU64 srcOffset then
      (source.drop (uint256ToU64Unsafe srcOffset).toNat).take size.toNat
    else []
  bytes ++ List.replicate (size.toNat - bytes.length) 0

def copyOp (host : Host) (source : CallFrame → Bytes) (cost : UInt64) : Op Unit := do
  hasItems 3
  let destOffset ← pop
  let srcOffset ← pop
  let size ← pop
  if uint256IsZero size then charge cost
  else do
    let size ← toU64 size
    let dest ← chargeCopy host destOffset size cost
    storeMemory dest (zeroPadded (source (← getFrame)) srcOffset size)

abbrev opCalldatacopy : Op Unit := copyOp host CallFrame.input cost
abbrev opCodecopy : Op Unit := copyOp host CallFrame.code cost

def opReturndatacopy : Op Unit := do
  hasItems 3
  let destOffset ← pop
  let srcOffset ← pop
  let size ← pop
  if uint256IsZero size then charge cost
  else do
    let size ← toU64 size
    let src ← toU64 srcOffset
    let returnData := (← getEvm).returnData
    require (src.toNat + size.toNat ≤ returnData.length) .outOfGas
    let dest ← chargeCopy host destOffset size cost
    storeMemory dest ((returnData.drop src.toNat).take size.toNat)

end MemoryAccess

section ControlFlow

def bitMask (k : ℕ) : UInt8 := 1 <<< UInt8.ofNat k

/-- The loop of `jumpdest_compute_bitmap` from `pc` on. Every round goes on by at least one
byte, so as many rounds as the code has bytes are enough. -/
def scanJumpdests (code : Bytes) : ℕ → ℕ → Bytes → Bytes
  | 0, _, bitmap => bitmap
  | rounds + 1, pc, bitmap =>
    match code[pc]? with
    | none => bitmap
    | some opcode =>
      if opcode = 0x5b then
        scanJumpdests code rounds (pc + 1) (bitmap.modify (pc / 8) (· ||| bitMask (pc % 8)))
      else if 0x60 ≤ opcode ∧ opcode ≤ 0x7f then
        scanJumpdests code rounds (pc + 1 + (opcode.toNat - 0x60 + 1)) bitmap
      else scanJumpdests code rounds (pc + 1) bitmap

def jumpdestComputeBitmap (alloc : Alloc) (code : Bytes) : Option Bytes :=
  if code.length = 0 then none
  else if alloc ((code.length + 7) / 8) then
    some (scanJumpdests code code.length 0 (List.replicate ((code.length + 7) / 8) 0))
  else none

def jumpdestIsValid (bitmap : Bytes) (codeSize : ℕ) (dest : UInt64) : Bool :=
  decide (dest.toNat < codeSize) &&
    bitmap.getD (dest.toNat / 8) 0 &&& bitMask (dest.toNat % 8) != 0

def getJumpdestBitmap (host : Host) : Op Bytes := do
  match (← getFrame).jumpdestBitmap with
  | some bitmap => pure bitmap
  | none =>
    match jumpdestComputeBitmap host.alloc (← getFrame).code with
    | some bitmap =>
      setJumpdestBitmap (some bitmap)
      pure bitmap
    | none => fail .outOfGas

def jumpTo (bitmap : Bytes) (dest : Word) : Op Unit := do
  require (uint256FitsU64 dest) .invalidJump
  let dest := uint256ToU64Unsafe dest
  require (jumpdestIsValid bitmap (← getFrame).code.length dest) .invalidJump
  setPc dest.toNat

def opJump : Op Unit := do
  let bitmap ← getJumpdestBitmap host
  hasItems 1
  charge cost
  let dest ← pop
  jumpTo bitmap dest

def opJumpi : Op Unit := do
  let bitmap ← getJumpdestBitmap host
  hasItems 2
  charge cost
  let dest ← pop
  let condition ← pop
  if uint256IsZero condition then pure () else jumpTo bitmap dest

abbrev opJumpdest : Op Unit := charge cost

end ControlFlow

end Div0.FrameOps
