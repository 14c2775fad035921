import Div0.Interpreter
import Div0.TxCodec
import Div0.Validation

/-!
Execution of a block. A transaction that passes validation pays for its gas, is executed
and gets back what it did not use; one that does not is put on the list of rejected ones.
The executor works on the world state and on one machine that it resets for every
transaction. There is no result where an execution leaves the defined behaviour of C, or
does not end within the given number of dispatches.

A receipt never has logs, so they are left out.
-/

namespace Div0.Executor

open BigEndian Buffer RlpTree RlpEncode RlpBuilder Node Uint256 Transaction EvmContext
open WorldState Frame Interpreter Validation TxCodec

structure ExecReceipt where
  txHash : Hash
  txType : UInt8
  success : Bool
  gasUsed : UInt64
  cumulativeGas : UInt64
  createdAddress : Option Address
  output : Bytes
  deriving DecidableEq

structure ExecRejected where
  index : ℕ
  error : TxValidationError
  errorMessage : String
  deriving DecidableEq

structure BlockExecResult where
  receipts : List ExecReceipt
  rejected : List ExecRejected
  gasUsed : UInt64
  blobGasUsed : UInt64
  stateRoot : Hash
  deriving DecidableEq

def txType : Tx → UInt8
  | .legacy _ => 0
  | .eip2930 _ => 1
  | .eip1559 _ => 2
  | .eip4844 _ => 3
  | .eip7702 _ => 4

def getBlobHashes : Tx → List Hash
  | .eip4844 tx => tx.blobVersionedHashes
  | _ => []

def getBlobGas : Tx → UInt64
  | .eip4844 tx => UInt64.ofNat tx.blobVersionedHashes.length * 131072
  | _ => 0

def computeCreateAddress (host : Host) (sender : Address) (nonce : UInt64) : Address :=
  let fields : List Tree :=
    [.leaf (rlpEncodeAddress host.alloc sender).data, .leaf (rlpEncodeU64 host.alloc nonce).data]
  let listData := writeTree host.alloc (.list fields) (Buf.init.reserve! host.alloc 64)
  let hash := host.keccak256 listData.data
  ⟨hash.bytes.drop 12, by rw [List.length_drop, hash.size_eq]⟩

def warmAccessList (host : Host) (ws : World) : Option AccessList → World
  | none => ws
  | some list => list.foldl (fun ws entry =>
      entry.storageKeys.foldl (fun ws key => (wsWarmSlot host ws entry.address key).2)
        (wsWarmAddress host ws entry.address).2) ws

section Transaction

variable (host : Host) (exec : BlockExecutor) (ws : World) (btx : BlockTx)

def effectiveGasPrice (tx : Tx) : Word := transactionEffectiveGasPrice tx exec.block.baseFee

def maxGasCost (tx : Tx) : Word :=
  uint256Mul (effectiveGasPrice exec tx) (uint256FromU64 (transactionGasLimit tx))

def contractAddress : Address :=
  if transactionIsCreate btx.tx then
    computeCreateAddress host btx.sender (wsGetNonce host ws btx.sender)
  else addressZero

/-- Steps 2 to 6 of `execute_transaction`: the nonce, the warm addresses, the snapshot. -/
def openTransaction (contract : Address) : World :=
  let ws := (wsIncrementNonce host ws btx.sender).2
  let ws := (wsWarmAddress host ws btx.sender).2
  let ws :=
    if transactionIsCreate btx.tx then (wsWarmAddress host ws contract).2
    else match transactionTo btx.tx with
      | some recipient => (wsWarmAddress host ws recipient).2
      | none => ws
  (wsSnapshot (warmAccessList host ws (transactionAccessList btx.tx))).2

def valueRecipient (contract : Address) : Address :=
  if transactionIsCreate btx.tx then contract else (transactionTo btx.tx).getD addressZero

/-- Step 7: the transfer of the value; whether the sender could pay. -/
def sendTxValue (contract : Address) : Bool × World :=
  let value := transactionValue btx.tx
  if uint256IsZero value then (true, ws)
  else
    match wsSubBalance host ws btx.sender value with
    | (false, ws) => (false, wsRevertToSnapshot ws ws.snapshotCounter)
    | (true, ws) => (true, (wsAddBalance host ws (valueRecipient btx contract) value).2)

/-- Step 8: the parameters of the initial call, and the account of a new contract. `none`
is the branch without creation and without recipient. -/
def callParams (contract : Address) : Option (CallParams × World) :=
  let tx := btx.tx
  let gas := transactionGasLimit tx - txIntrinsicGas tx
  if transactionIsCreate tx then
    some (⟨transactionValue tx, gas, transactionData tx, [], btx.sender, contract, false⟩,
      wsCreateContract host ws contract)
  else match transactionTo tx with
    | some recipient =>
      some (⟨transactionValue tx, gas, wsGetCode ws recipient, transactionData tx, btx.sender,
        recipient, false⟩, ws)
    | none => none

def gasUsedAfterRefund (tx : Tx) (result : EvmExecutionResult) : UInt64 :=
  let gasUsed := txIntrinsicGas tx + result.gasUsed
  let maxRefund := gasUsed / 5
  gasUsed - (if result.gasRefund < maxRefund then result.gasRefund else maxRefund)

/-- Step 10: the receipt and the state after the execution. -/
def handleResult (contract : Address) (result : EvmExecutionResult)
    (receipt : ExecReceipt) : ExecReceipt × World :=
  match result.result with
  | .stop =>
    let receipt := { receipt with
      success := true
      gasUsed := gasUsedAfterRefund btx.tx result }
    if transactionIsCreate btx.tx then
      ({ receipt with createdAddress := if host.alloc 20 then some contract else none },
        if 0 < result.output.length then wsSetCode host ws contract result.output else ws)
    else
      ({ receipt with
        output := if 0 < result.output.length ∧ host.alloc result.output.length then result.output
          else [] }, ws)
  | .error =>
    ({ receipt with
      success := false
      gasUsed := transactionGasLimit btx.tx }, wsRevertToSnapshot ws ws.snapshotCounter)

def refundAmount (tx : Tx) (gasUsed : UInt64) : Word :=
  uint256Mul (effectiveGasPrice exec tx) (uint256FromU64 (transactionGasLimit tx - gasUsed))

/-- What the coinbase gets: the price above the base fee, for the gas used. -/
def coinbasePayment (tx : Tx) (gasUsed : UInt64) : Word :=
  uint256Mul (uint256Sub (effectiveGasPrice exec tx) exec.block.baseFee) (uint256FromU64 gasUsed)

/-- Step 11: the refund to the sender. -/
def refundSender (gasUsed : UInt64) : World :=
  if 0 < transactionGasLimit btx.tx - gasUsed then
    (wsAddBalance host ws btx.sender (refundAmount exec btx.tx gasUsed)).2
  else ws

/-- Steps 11 and 12: the refund to the sender and the payment to the coinbase. Nothing reads
whether the credits are refused. -/
def payOut (gasUsed : UInt64) : Bool × World :=
  wsAddBalance host (refundSender host exec ws btx gasUsed) exec.block.coinbase
    (coinbasePayment exec btx.tx gasUsed)

/-- Step 13: the cumulative gas. -/
def withCumulative (cumulativeGas : UInt64) (receipt : ExecReceipt) : ExecReceipt :=
  { receipt with cumulativeGas := cumulativeGas + receipt.gasUsed }

def emptyReceipt (tx : Tx) : ExecReceipt :=
  ⟨transactionHash host.alloc host.keccak256 tx, txType tx, false, 0, 0, none, []⟩

/-- Step 1: the sender pays for its gas in advance. -/
def deductGas : Bool × World :=
  wsSubBalance host ws btx.sender (maxGasCost exec btx.tx)

def createdContract : Address :=
  contractAddress host (deductGas host exec ws btx).2 btx

/-- Steps 1 to 7, for a sender that has paid for the gas; whether it could pay the value. -/
def transferred : Bool × World :=
  let contract := createdContract host exec ws btx
  sendTxValue host (openTransaction host (deductGas host exec ws btx).2 btx contract) btx contract

/-- Step 8: the environment of the execution. -/
def executionEnv (call : CallParams) : ExecutionEnv where
  block := exec.block
  tx := ⟨btx.sender, effectiveGasPrice exec btx.tx, getBlobHashes btx.tx⟩
  call := call

def settleTransaction (contract : Address) (cumulativeGas : UInt64)
    (out : EvmExecutionResult × Evm) : Option ExecReceipt × World × Evm :=
  let handled :=
    handleResult host (out.2.state.getD ws) btx contract out.1 (emptyReceipt host btx.tx)
  (some (withCumulative cumulativeGas handled.1),
    (payOut host exec handled.2 btx handled.1.gasUsed).2, out.2)

/-- `execute_transaction`: the receipt, or `none` for the result `false`, with the state and
the machine. -/
def executeTransaction (fuel : ℕ) (evm : Evm) (ws : World) (btx : BlockTx)
    (cumulativeGas : UInt64) : Option (Option ExecReceipt × World × Evm) :=
  let deducted := deductGas host exec ws btx
  if deducted.1 then
    let contract := createdContract host exec ws btx
    let sent := transferred host exec ws btx
    if sent.1 then
      match callParams host sent.2 btx contract with
      | none => some (none, wsRevertToSnapshot sent.2 sent.2.snapshotCounter, evm)
      | some (call, ws) =>
        (evmExecuteEnv host fuel { evmReset evm with state := some ws }
          (executionEnv exec btx call)).map
          (settleTransaction host exec ws btx contract cumulativeGas)
    else
      let receipt := { emptyReceipt host btx.tx with gasUsed := transactionGasLimit btx.tx }
      some (some (withCumulative cumulativeGas receipt),
        (payOut host exec sent.2 btx receipt.gasUsed).2, evm)
  else some (none, deducted.2, evm)

end Transaction

section Block

variable (host : Host) (fuel : ℕ) (exec : BlockExecutor)

/-- What becomes of a transaction of the block. -/
inductive TxOutcome
  | receipt (receipt : ExecReceipt)
  | rejection (rejected : ExecRejected)
  deriving DecidableEq

def processTx (evm : Evm) (ws : World) (cumulativeGas : UInt64) (btx : BlockTx) :
    Option (TxOutcome × World × Evm) :=
  let ws := wsBeginTransaction ws
  match blockExecutorValidateTx host exec ws btx cumulativeGas with
  | .valid =>
    (executeTransaction host exec fuel evm ws btx cumulativeGas).map fun
      | (none, ws, evm) =>
        (.rejection ⟨btx.originalIndex, .insufficientBalance,
          "gas cost deduction failed unexpectedly"⟩, ws, evm)
      | (some receipt, ws, evm) => (.receipt receipt, ws, evm)
  | err => some (.rejection ⟨btx.originalIndex, err, txValidationErrorStr err⟩, ws, evm)

/-- What the loop of `block_executor_run` works on. -/
structure BlockState where
  ws : World
  evm : Evm
  cumulativeGas : UInt64
  blobGasUsed : UInt64
  receipts : List ExecReceipt
  rejected : List ExecRejected

def saturatingAdd (a b : UInt64) : UInt64 :=
  if a ≤ 0xffffffffffffffff - b then a + b else 0xffffffffffffffff

def BlockState.record (st : BlockState) (btx : BlockTx) : TxOutcome × World × Evm → BlockState
  | (.receipt receipt, ws, evm) => { st with
      ws := ws
      evm := evm
      cumulativeGas := receipt.cumulativeGas
      blobGasUsed := saturatingAdd st.blobGasUsed (getBlobGas btx.tx)
      receipts := st.receipts ++ [receipt] }
  | (.rejection rejected, ws, evm) => { st with
      ws := ws
      evm := evm
      rejected := st.rejected ++ [rejected] }

def runTx (st : BlockState) (btx : BlockTx) : Option BlockState :=
  (processTx host fuel exec st.evm st.ws st.cumulativeGas btx).map (st.record btx)

def runTxs : List BlockTx → BlockState → Option BlockState
  | [], st => some st
  | btx :: rest, st =>
    match runTx host fuel exec st btx with
    | none => none
    | some st => runTxs rest st

def receiptSize : ℕ := 96
def rejectedSize : ℕ := 24

/-- `block_executor_run`: its result, what it reports, the state and the machine. -/
def blockExecutorRun (evm : Evm) (ws : World) (txs : List BlockTx) :
    Option (Bool × BlockExecResult × World × Evm) :=
  let empty : BlockExecResult := ⟨[], [], 0, 0, hashZero⟩
  if txs.length = 0 then
    let rooted := worldStateRoot host ws
    some (true, { empty with stateRoot := rooted.1 }, rooted.2, evm)
  else if txs.length > (2 ^ 64 - 1) / receiptSize ∨ txs.length > (2 ^ 64 - 1) / rejectedSize then
    some (false, empty, ws, evm)
  else if host.alloc (txs.length * receiptSize) ∧ host.alloc (txs.length * rejectedSize) then
    match runTxs host fuel exec txs ⟨ws, evm, 0, 0, [], []⟩ with
    | none => none
    | some st =>
      let rooted := worldStateRoot host st.ws
      some (true, ⟨st.receipts, st.rejected, st.cumulativeGas, st.blobGasUsed, rooted.1⟩,
        rooted.2, st.evm)
  else some (false, empty, ws, evm)

end Block

end Div0.Executor
