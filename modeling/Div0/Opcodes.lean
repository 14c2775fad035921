import Div0.Frame

/-!
The opcodes with a handler, the dispatch table, and what an instruction is charged: the
static cost table, the constants of `gas.h` and the dynamic cost functions. The three
forks have their own tables and schedules, which all agree with the first.
-/

namespace Div0.Opcodes

open Uint256 Frame

/-- The entries of the dispatch table. `push n`, `dup n`, `swap n` and `log n` are the
numbered families; `invalid` is the entry of every other byte. -/
inductive Opcode where
  | stop | add | mul | sub | div | sdiv | mod | smod | addmod | mulmod | exp | signextend
  | lt | gt | slt | sgt | eq | iszero | and | or | xor | not | byte | shl | shr | sar
  | keccak256
  | address | balance | origin | caller | callvalue | calldataload | calldatasize | calldatacopy
  | codesize | codecopy | gasprice | extcodesize | extcodecopy | returndatasize | returndatacopy
  | extcodehash
  | blockhash | coinbase | timestamp | number | prevrandao | gaslimit | chainid | selfbalance
  | basefee | blobhash | blobbasefee
  | pop | mload | mstore | mstore8 | sload | sstore | jump | jumpi | pc | msize | gas | jumpdest
  | push0
  | push (n : ℕ) | dup (n : ℕ) | swap (n : ℕ) | log (n : ℕ)
  | call | callcode | return_ | delegatecall | staticcall | revert
  | invalid
  deriving DecidableEq, Repr

def dispatchTable (code : UInt8) : Opcode :=
  match code.toNat with
    | 0x00 => .stop | 0x01 => .add | 0x02 => .mul | 0x03 => .sub | 0x04 => .div | 0x05 => .sdiv
    | 0x06 => .mod | 0x07 => .smod | 0x08 => .addmod | 0x09 => .mulmod | 0x0a => .exp
    | 0x0b => .signextend | 0x10 => .lt | 0x11 => .gt | 0x12 => .slt | 0x13 => .sgt | 0x14 => .eq
    | 0x15 => .iszero | 0x16 => .and | 0x17 => .or | 0x18 => .xor | 0x19 => .not | 0x1a => .byte
    | 0x1b => .shl | 0x1c => .shr | 0x1d => .sar | 0x20 => .keccak256 | 0x30 => .address
    | 0x31 => .balance | 0x32 => .origin | 0x33 => .caller | 0x34 => .callvalue
    | 0x35 => .calldataload | 0x36 => .calldatasize | 0x37 => .calldatacopy | 0x38 => .codesize
    | 0x39 => .codecopy | 0x3a => .gasprice | 0x3b => .extcodesize | 0x3c => .extcodecopy
    | 0x3d => .returndatasize | 0x3e => .returndatacopy | 0x3f => .extcodehash
    | 0x40 => .blockhash | 0x41 => .coinbase | 0x42 => .timestamp | 0x43 => .number
    | 0x44 => .prevrandao | 0x45 => .gaslimit | 0x46 => .chainid | 0x47 => .selfbalance
    | 0x48 => .basefee | 0x49 => .blobhash | 0x4a => .blobbasefee | 0x50 => .pop | 0x51 => .mload
    | 0x52 => .mstore | 0x53 => .mstore8 | 0x54 => .sload | 0x55 => .sstore | 0x56 => .jump
    | 0x57 => .jumpi | 0x58 => .pc | 0x59 => .msize | 0x5a => .gas | 0x5b => .jumpdest
    | 0x5f => .push0 | 0xf1 => .call | 0xf2 => .callcode | 0xf3 => .return_
    | 0xf4 => .delegatecall | 0xfa => .staticcall | 0xfd => .revert
    | n =>
      if 0x60 ≤ n ∧ n ≤ 0x7f then .push (n - 0x5f)
      else if 0x80 ≤ n ∧ n ≤ 0x8f then .dup (n - 0x7f)
      else if 0x90 ≤ n ∧ n ≤ 0x9f then .swap (n - 0x8f)
      else if 0xa0 ≤ n ∧ n ≤ 0xa4 then .log (n - 0xa0)
      else .invalid

def gasTableInitShanghai : Opcode → UInt64
  | .add | .sub | .lt | .gt | .slt | .sgt | .eq | .iszero | .and | .or | .xor | .not | .byte
  | .shl | .shr | .sar | .mload | .mstore | .mstore8 | .calldataload | .calldatacopy | .codecopy
  | .returndatacopy => 3
  | .mul | .div | .sdiv | .mod | .smod | .signextend => 5
  | .addmod | .mulmod => 8
  | .keccak256 => 30
  | .msize | .address | .origin | .caller | .callvalue | .calldatasize | .codesize | .gasprice
  | .returndatasize | .pop | .pc | .gas | .push0 => 2
  | .jump => 8
  | .jumpi => 10
  | .jumpdest => 1
  | .push _ | .dup _ | .swap _ => 3
  | _ => 0

def gasTableInitCancun : Opcode → UInt64 := gasTableInitShanghai

def gasTableInitPrague : Opcode → UInt64 := gasTableInitCancun

def gasTable : Fork → Opcode → UInt64
  | .shanghai => gasTableInitShanghai
  | .cancun => gasTableInitCancun
  | .prague | .unknown => gasTableInitPrague

def gasExpBase : UInt64 := 10
def gasExpByte : UInt64 := 50
def gasCopy : UInt64 := 3
def gasKeccak256Word : UInt64 := 6
def gasColdAccountAccess : UInt64 := 2600
def gasWarmAccess : UInt64 := 100
def gasCallStipend : UInt64 := 2300
def gasCallValue : UInt64 := 9000
def gasNewAccount : UInt64 := 25000
def gasColdSload : UInt64 := 2100
def gasWarmStorageRead : UInt64 := 100
def gasSstoreSet : UInt64 := 20000
def gasSstoreReset : UInt64 := 2900
def gasSstoreClearRefund : UInt64 := 4800
def gasLog : UInt64 := 375
def gasLogTopic : UInt64 := 375
def gasLogData : UInt64 := 8
def maxCallDepth : ℕ := 1024

def gasCapCall (gasLeft : UInt64) : UInt64 := gasLeft - gasLeft / 64

def sloadCostShanghai (isCold : Bool) : UInt64 :=
  if isCold then gasColdSload else gasWarmStorageRead

def sstoreCostShanghai (isCold : Bool) (current original new : Word) : UInt64 :=
  let coldCost := if isCold then gasColdSload else 0
  let isCleanSlot := uint256Eq original current
  let isNoop := uint256Eq current new
  let baseCost :=
    if !isNoop && isCleanSlot then
      if uint256IsZero original then gasSstoreSet else gasSstoreReset
    else gasWarmStorageRead
  coldCost + baseCost

def sstoreRefundShanghai (current original new : Word) : ℤ :=
  if uint256Eq current new then 0
  else
    let cleared : ℤ :=
      if uint256IsZero original then 0
      else if uint256IsZero current then -gasSstoreClearRefund.toNat
      else if uint256IsZero new then gasSstoreClearRefund.toNat
      else 0
    let restored : ℤ :=
      if uint256Eq original new then
        if uint256IsZero original then (gasSstoreSet - gasWarmStorageRead).toNat
        else (gasSstoreReset - gasWarmStorageRead).toNat
      else 0
    cleared + restored

structure GasSchedule where
  sload : Bool → UInt64
  sstore : Bool → Word → Word → Word → UInt64
  sstoreRefund : Word → Word → Word → ℤ
  sstoreMinGas : UInt64

def gasScheduleShanghai : GasSchedule :=
  ⟨sloadCostShanghai, sstoreCostShanghai, sstoreRefundShanghai, gasCallStipend⟩

def gasScheduleCancun : GasSchedule := gasScheduleShanghai

def gasSchedulePrague : GasSchedule := gasScheduleCancun

def gasSchedule : Fork → GasSchedule
  | .shanghai => gasScheduleShanghai
  | .cancun => gasScheduleCancun
  | .prague | .unknown => gasSchedulePrague

end Div0.Opcodes
