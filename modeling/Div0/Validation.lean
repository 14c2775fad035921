import Div0.EvmContext
import Div0.Transaction
import Div0.WorldLedger

/-!
Validation of a transaction before it is executed. The cost of the gas and the total
are computed in 256-bit words; only the addition is tested for overflow. `Passes` says
what the checks come to over the integers.
-/

namespace Div0.Validation

open Buffer Node Uint256 Transaction EvmContext WorldState

inductive TxValidationError where
  | valid
  | invalidSignature
  | nonceTooLow
  | nonceTooHigh
  | insufficientBalance
  | intrinsicGas
  | gasLimitExceeded
  | maxFeeTooLow
  | chainIdMismatch
  deriving DecidableEq, Repr

def txValidationErrorStr : TxValidationError → String
  | .valid => "valid"
  | .invalidSignature => "invalid signature"
  | .nonceTooLow => "nonce too low"
  | .nonceTooHigh => "nonce too high"
  | .insufficientBalance => "insufficient balance for gas * price + value"
  | .intrinsicGas => "intrinsic gas too low"
  | .gasLimitExceeded => "gas limit exceeds block gas limit"
  | .maxFeeTooLow => "max fee per gas less than block base fee"
  | .chainIdMismatch => "chain ID mismatch"

structure BlockTx where
  tx : Tx
  sender : Address
  senderRecovered : Bool
  originalIndex : ℕ

/-- `block_executor_t` without the state, the machine and the arena. -/
structure BlockExecutor where
  block : BlockContext
  chainId : UInt64
  skipSignatureValidation : Bool

def calldataGas (b : UInt8) : UInt64 := if b = 0 then 4 else 16

def accessEntryGas (entry : AccessListEntry) : UInt64 :=
  2400 + UInt64.ofNat entry.storageKeys.length * 1900

def txIntrinsicGas (tx : Tx) : UInt64 :=
  let data := transactionData tx
  let gas := data.foldl (fun gas b => gas + calldataGas b) 21000
  let gas :=
    if transactionIsCreate tx then
      let gas := gas + 32000
      if 0 < data.length then gas + (UInt64.ofNat data.length + 31) / 32 * 2 else gas
    else gas
  match transactionAccessList tx with
  | none => gas
  | some list => list.foldl (fun gas entry => gas + accessEntryGas entry) gas

def transactionMaxFeePerGas : Tx → Word
  | .legacy tx => tx.gasPrice
  | .eip2930 tx => tx.gasPrice
  | .eip1559 tx => tx.maxFeePerGas
  | .eip4844 tx => tx.maxFeePerGas
  | .eip7702 tx => tx.maxFeePerGas

/-- The last check of `block_executor_validate_tx`: value and gas against the balance. -/
def validateBalance (balance effectiveGasPrice value : Word) (gasLimit : UInt64) :
    TxValidationError :=
  let gasCost := uint256Mul effectiveGasPrice (uint256FromU64 gasLimit)
  let totalCost := uint256Add gasCost value
  if uint256Lt totalCost value then .insufficientBalance
  else if uint256Lt balance totalCost then .insufficientBalance
  else .valid

def blockExecutorValidateTx (host : Host) (exec : BlockExecutor) (ws : World) (btx : BlockTx)
    (cumulativeGas : UInt64) : TxValidationError :=
  let tx := btx.tx
  if (transactionChainId tx).any (· != exec.chainId) then .chainIdMismatch
  else
    let senderNonce := wsGetNonce host ws btx.sender
    let txNonce := transactionNonce tx
    if txNonce < senderNonce then .nonceTooLow
    else if txNonce > senderNonce then .nonceTooHigh
    else
      let gasLimit := transactionGasLimit tx
      if gasLimit < txIntrinsicGas tx then .intrinsicGas
      else if gasLimit > exec.block.gasLimit ∨ cumulativeGas > exec.block.gasLimit - gasLimit then
        .gasLimitExceeded
      else if uint256Lt (transactionMaxFeePerGas tx) exec.block.baseFee then .maxFeeTooLow
      else validateBalance (wsGetBalance host ws btx.sender)
        (transactionEffectiveGasPrice tx exec.block.baseFee) (transactionValue tx) gasLimit

def gasCost (exec : BlockExecutor) (tx : Tx) : ℕ :=
  (transactionEffectiveGasPrice tx exec.block.baseFee).toNat * (transactionGasLimit tx).toNat

/-- The checks over the integers; the cost of the gas is taken modulo `2 ^ 256`. -/
structure Passes (host : Host) (exec : BlockExecutor) (ws : World) (btx : BlockTx)
    (cumulativeGas : UInt64) : Prop where
  chainId : ∀ id, transactionChainId btx.tx = some id → id = exec.chainId
  nonce : transactionNonce btx.tx = wsGetNonce host ws btx.sender
  intrinsic : (txIntrinsicGas btx.tx).toNat ≤ (transactionGasLimit btx.tx).toNat
  blockGas : cumulativeGas.toNat + (transactionGasLimit btx.tx).toNat ≤ exec.block.gasLimit.toNat
  maxFee : exec.block.baseFee.toNat ≤ (transactionMaxFeePerGas btx.tx).toNat
  balance : gasCost exec btx.tx % 2 ^ 256 + (transactionValue btx.tx).toNat ≤
    (wsGetBalance host ws btx.sender).toNat

theorem validateBalance_valid_iff (balance price value : Word) (gasLimit : UInt64) :
    validateBalance balance price value gasLimit = .valid ↔
      price.toNat * gasLimit.toNat % 2 ^ 256 + value.toNat ≤ balance.toNat := by
  have hbalance := balance.toNat_lt
  have hvalue := value.toNat_lt
  have hcost : price.toNat * gasLimit.toNat % 2 ^ 256 < 2 ^ 256 := Nat.mod_lt _ (by norm_num)
  have htotal := toNat_add (uint256Mul price (uint256FromU64 gasLimit)) value
  rw [toNat_mul, toNat_fromU64] at htotal
  generalize price.toNat * gasLimit.toNat % 2 ^ 256 = cost at *
  unfold validateBalance
  simp only [lt_iff, htotal]
  by_cases hwrap : (cost + value.toNat) % 2 ^ 256 < value.toNat
  · simp only [if_pos hwrap, reduceCtorEq, false_iff]
    omega
  · simp only [if_neg hwrap]
    by_cases hless : balance.toNat < (cost + value.toNat) % 2 ^ 256
    · simp only [if_pos hless, reduceCtorEq, false_iff]
      omega
    · simp only [if_neg hless, true_iff]
      omega

/-- Validation accepts exactly what passes the checks. -/
theorem blockExecutorValidateTx_valid_iff (host : Host) (exec : BlockExecutor) (ws : World)
    (btx : BlockTx) (cumulativeGas : UInt64) :
    blockExecutorValidateTx host exec ws btx cumulativeGas = .valid ↔
      Passes host exec ws btx cumulativeGas := by
  have hchain : (transactionChainId btx.tx).any (· != exec.chainId) = false ↔
      ∀ id, transactionChainId btx.tx = some id → id = exec.chainId := by
    cases transactionChainId btx.tx <;> simp
  have hgas : ¬(transactionGasLimit btx.tx > exec.block.gasLimit ∨
      cumulativeGas > exec.block.gasLimit - transactionGasLimit btx.tx) ↔
      cumulativeGas.toNat + (transactionGasLimit btx.tx).toNat ≤ exec.block.gasLimit.toNat := by
    by_cases hle : transactionGasLimit btx.tx ≤ exec.block.gasLimit
    · have hsub := UInt64.toNat_sub_of_le _ _ hle
      rw [UInt64.le_iff_toNat_le] at hle
      simp only [gt_iff_lt, UInt64.lt_iff_toNat_lt, hsub]
      omega
    · rw [UInt64.le_iff_toNat_le] at hle
      simp only [gt_iff_lt, UInt64.lt_iff_toNat_lt]
      omega
  have hbalance := validateBalance_valid_iff (wsGetBalance host ws btx.sender)
    (transactionEffectiveGasPrice btx.tx exec.block.baseFee) (transactionValue btx.tx)
    (transactionGasLimit btx.tx)
  unfold blockExecutorValidateTx
  constructor
  · intro h
    simp only at h
    split at h
    · cases h
    next hid =>
    split at h
    · cases h
    next hlow =>
    split at h
    · cases h
    next hhigh =>
    split at h
    · cases h
    next hintrinsic =>
    split at h
    · cases h
    next hblock =>
    split at h
    · cases h
    next hfee =>
    rw [UInt64.lt_iff_toNat_lt, not_lt] at hintrinsic
    rw [lt_iff, not_lt] at hfee
    exact ⟨hchain.mp (Bool.eq_false_of_not_eq_true hid),
      UInt64.le_antisymm (UInt64.not_lt.mp hhigh) (UInt64.not_lt.mp hlow), hintrinsic,
      hgas.mp hblock, hfee, hbalance.mp h⟩
  · intro h
    simp only [hchain.mpr h.chainId, h.nonce, Bool.false_eq_true, if_false, gt_iff_lt,
      UInt64.lt_irrefl]
    rw [if_neg (UInt64.not_lt.mpr (UInt64.le_iff_toNat_le.mpr h.intrinsic)),
      if_neg (hgas.mpr h.blockGas), if_neg (by rw [lt_iff, not_lt]; exact h.maxFee)]
    exact hbalance.mpr h.balance

/-- For an accepted transaction, value and gas are covered by the balance exactly when
the cost of the gas fits a word. -/
theorem validated_cost_le_balance_iff (host : Host) (exec : BlockExecutor) (ws : World)
    (btx : BlockTx) (cumulativeGas : UInt64)
    (hvalid : blockExecutorValidateTx host exec ws btx cumulativeGas = .valid) :
    (transactionValue btx.tx).toNat + (transactionGasLimit btx.tx).toNat *
        (transactionEffectiveGasPrice btx.tx exec.block.baseFee).toNat ≤
      (wsGetBalance host ws btx.sender).toNat ↔
    (transactionGasLimit btx.tx).toNat *
      (transactionEffectiveGasPrice btx.tx exec.block.baseFee).toNat < 2 ^ 256 := by
  have hpasses := (blockExecutorValidateTx_valid_iff host exec ws btx cumulativeGas).mp hvalid
  have hbalance := hpasses.balance
  have hword := (wsGetBalance host ws btx.sender).toNat_lt
  rw [gasCost, Nat.mul_comm] at hbalance
  constructor
  · intro hle
    omega
  · intro hlt
    rw [Nat.mod_eq_of_lt hlt] at hbalance
    omega

def plainExecutor : BlockExecutor :=
  ⟨{ blockContextInit with gasLimit := 30000000, baseFee := uint256FromU64 1 }, 1, false⟩

def zeroAddressKey : Hash where
  bytes := [0x53, 0x80, 0xc7, 0xb7, 0xae, 0x81, 0xa5, 0x8e, 0xb9, 0x8d, 0x9c, 0x78, 0xde, 0x4a,
    0x1f, 0xd7, 0xfd, 0x95, 0x35, 0xfc, 0x95, 0x3e, 0xd2, 0xbe, 0x60, 0x2d, 0xaa, 0xa4, 0x17,
    0x67, 0x31, 0x2a]
  size_eq := rfl

def zeroHost : Host := ⟨arenaAlloc, fun _ => zeroAddressKey, .ample⟩

def pricedTx (gasPrice : Word) : BlockTx :=
  ⟨.legacy ⟨0, gasPrice, 65536, some addressZero, uint256Zero, [], 27, uint256Zero, uint256Zero⟩,
    addressZero, true, 0⟩

/-- The gas of a transaction at the price `2 ^ 240` costs `2 ^ 256`, which wraps around to
zero: an account that does not exist can pay for it. -/
theorem validated_cost_exceeds_balance :
    blockExecutorValidateTx zeroHost plainExecutor worldStateCreate
      (pricedTx (Word.ofNat (2 ^ 240))) 0 = .valid ∧
    ¬(transactionValue (pricedTx (Word.ofNat (2 ^ 240))).tx).toNat +
        (transactionGasLimit (pricedTx (Word.ofNat (2 ^ 240))).tx).toNat *
          (transactionEffectiveGasPrice (pricedTx (Word.ofNat (2 ^ 240))).tx
            plainExecutor.block.baseFee).toNat ≤
      (wsGetBalance zeroHost worldStateCreate (pricedTx (Word.ofNat (2 ^ 240))).sender).toNat := by
  decide +kernel

theorem validated_cost_le_balance_iff_funded :
    blockExecutorValidateTx zeroHost plainExecutor
      (wsSetBalance zeroHost worldStateCreate addressZero (uint256FromU64 65536))
      (pricedTx (uint256FromU64 1)) 0 = .valid ∧
    (0 + 65536 * 1 ≤ 65536 ↔ 65536 * 1 < 2 ^ 256) := by
  have hvalid : blockExecutorValidateTx zeroHost plainExecutor
      (wsSetBalance zeroHost worldStateCreate addressZero (uint256FromU64 65536))
      (pricedTx (uint256FromU64 1)) 0 = .valid := by decide +kernel
  refine ⟨hvalid, ?_⟩
  have hiff := validated_cost_le_balance_iff zeroHost plainExecutor _ _ 0 hvalid
  have hbalance : (wsGetBalance zeroHost
      (wsSetBalance zeroHost worldStateCreate addressZero (uint256FromU64 65536))
      (pricedTx (uint256FromU64 1)).sender).toNat = 65536 := by decide +kernel
  rwa [hbalance] at hiff

end Div0.Validation
