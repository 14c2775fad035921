import Div0.Uint256

/-!
What an execution is given and what it reports: the block and transaction context, the
parameters of the initial call, the status codes and the log entries.
-/

namespace Div0.EvmContext

open BigEndian Uint256

/-- `block_context_t`. The callback of BLOCKHASH with its user data is one function;
`none` is a null callback. -/
structure BlockContext where
  number : UInt64
  timestamp : UInt64
  gasLimit : UInt64
  chainId : UInt64
  baseFee : Word
  blobBaseFee : Word
  prevRandao : Word
  coinbase : Address
  getBlockHash : Option (UInt64 → Option Hash)

def blockContextInit : BlockContext :=
  ⟨0, 0, 0, 1, uint256Zero, uint256Zero, uint256Zero, addressZero, none⟩

structure TxContext where
  origin : Address
  gasPrice : Word
  blobHashes : List Hash

structure CallParams where
  value : Word
  gas : UInt64
  code : Bytes
  input : Bytes
  caller : Address
  address : Address
  isStatic : Bool

structure ExecutionEnv where
  block : BlockContext
  tx : TxContext
  call : CallParams

inductive EvmStatus where
  | ok
  | stackOverflow
  | stackUnderflow
  | invalidOpcode
  | outOfGas
  | invalidJump
  | writeProtection
  | callDepthExceeded
  | insufficientBalance
  | stateUnavailable
  deriving DecidableEq, Repr

inductive EvmResult where
  | stop
  | error
  deriving DecidableEq, Repr

structure EvmLog where
  address : Address
  topics : List Hash
  data : Bytes
  deriving DecidableEq

structure EvmExecutionResult where
  result : EvmResult
  error : EvmStatus
  gasUsed : UInt64
  gasRefund : UInt64
  output : Bytes
  logs : List EvmLog
  deriving DecidableEq

end Div0.EvmContext
