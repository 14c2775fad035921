import Div0.Executor
import Div0.RunEffects

/-!
What the execution of one transaction does to the ledger. The sender is debited and its
nonce counted up; then value moves, in the transfer and in any code that runs, without
being made or lost; at the end the sender and the coinbase are credited. For a transaction
that passes validation both debits succeed, so `execute_transaction` always reaches its end.
-/

namespace Div0.ExecutorEffects

open Node Uint256 Transaction EvmContext WorldState WorldLedger Ledgers Frame Interpreter Validation
open Executor TxCodec RunEffects

variable {host : Host} {exec : BlockExecutor} {ws : World} {l : Ledger Hash} {btx : BlockTx}

def nextNonce (nonce : ℕ) : ℕ := if nonce < 2 ^ 64 - 2 then nonce + 1 else nonce

def charged (host : Host) (exec : BlockExecutor) (btx : BlockTx) (l : Ledger Hash) : Ledger Hash :=
  (l.withdraw (addressToKey host btx.sender) (gasCost exec btx.tx % 2 ^ 256)).sign
    (addressToKey host btx.sender) (nextNonce (l.nonce (addressToKey host btx.sender)))

section Steps

theorem toNat_refundAmount (exec : BlockExecutor) (tx : Tx) (gasUsed : UInt64) :
    (refundAmount exec tx gasUsed).toNat =
      (effectiveGasPrice exec tx).toNat * (transactionGasLimit tx - gasUsed).toNat % 2 ^ 256 := by
  rw [refundAmount, toNat_mul, toNat_fromU64]

theorem toNat_coinbasePayment (exec : BlockExecutor) (tx : Tx) (gasUsed : UInt64)
    (hfee : exec.block.baseFee.toNat ≤ (effectiveGasPrice exec tx).toNat) :
    (coinbasePayment exec tx gasUsed).toNat =
      ((effectiveGasPrice exec tx).toNat - exec.block.baseFee.toNat) * gasUsed.toNat % 2 ^ 256 := by
  rw [coinbasePayment, toNat_mul, toNat_fromU64, toNat_sub_of_le hfee]

theorem toNat_maxGasCost (exec : BlockExecutor) (tx : Tx) :
    (maxGasCost exec tx).toNat = gasCost exec tx % 2 ^ 256 := by
  rw [maxGasCost, toNat_mul, toNat_fromU64]
  rfl

theorem shows_warmAccessList (h : Shows host ws l) (list : Option AccessList) :
    Shows host (warmAccessList host ws list) l := by
  have hslots : ∀ (addr : Address) (keys : List Word) (ws : World), Shows host ws l →
      Shows host (keys.foldl (fun ws key => (wsWarmSlot host ws addr key).2) ws) l := by
    intro addr keys
    induction keys with
    | nil => exact fun ws h => h
    | cons key rest ih => exact fun ws h => ih _ (h.warmSlot addr key)
  cases list with
  | none => exact h
  | some entries =>
    unfold warmAccessList
    dsimp only
    induction entries generalizing ws with
    | nil => exact h
    | cons entry rest ih => exact ih (hslots _ _ _ (h.warmAddress entry.address))

variable [OnArena host]

section

variable (h : Shows host ws l)
include h

theorem shows_openTransaction (btx : BlockTx) (contract : Address) :
    Shows host (openTransaction host ws btx contract)
      (l.sign (addressToKey host btx.sender)
        (nextNonce (l.nonce (addressToKey host btx.sender)))) := by
  have hcounted := (h.incrementNonce btx.sender).2
  have hsigned : Shows host (wsIncrementNonce host ws btx.sender).2
      (l.sign (addressToKey host btx.sender)
        (nextNonce (l.nonce (addressToKey host btx.sender)))) := by
    unfold nextNonce
    split at hcounted
    · next hlt =>
      rw [if_pos hlt]
      exact hcounted
    · next hge =>
      rw [if_neg hge, Ledger.sign_self]
      exact hcounted
  unfold openTransaction
  refine (shows_warmAccessList ?_ _).snapshot
  split
  · exact (hsigned.warmAddress _).warmAddress _
  · split
    · exact (hsigned.warmAddress _).warmAddress _
    · exact hsigned.warmAddress _

/-- The transfer succeeds when the sender has the value. -/
theorem shows_sendTxValue (contract : Address)
    (hle : (transactionValue btx.tx).toNat ≤ l.balance (addressToKey host btx.sender)) :
    (sendTxValue host ws btx contract).1 = true ∧
      ∃ l', Shows host (sendTxValue host ws btx contract).2 l' ∧ l.Rearranged (2 ^ 256) l' := by
  unfold sendTxValue
  dsimp only
  split
  · exact ⟨rfl, l, h, .refl _ l⟩
  · obtain ⟨hpaid, hshows⟩ := h.subBalance btx.sender (transactionValue btx.tx)
    rw [decide_eq_true hle] at hpaid
    have hmoved := hshows.addBalance (valueRecipient btx contract) (transactionValue btx.tx)
    rcases hsub : wsSubBalance host ws btx.sender (transactionValue btx.tx) with ⟨paid, ws'⟩
    rw [hsub] at hpaid hmoved
    obtain rfl : paid = true := hpaid
    exact ⟨rfl, _, hmoved, Ledger.rearranged_transfer _ hle⟩

/-- There is always a call to make: a transaction without a recipient creates a contract. -/
theorem shows_callParams (btx : BlockTx) (contract : Address) :
    ∃ call ws' l', callParams host ws btx contract = some (call, ws') ∧
      call.gas = transactionGasLimit btx.tx - txIntrinsicGas btx.tx ∧
      Shows host ws' l' ∧ l.Continues (2 ^ 256) l' := by
  unfold callParams
  dsimp only
  split
  · obtain ⟨nonce, hle, heq, hshows⟩ := h.createContract contract
    exact ⟨_, _, _, rfl, rfl, hshows, Ledger.continues_sign hle heq⟩
  · next hcreate =>
    cases hto : transactionTo btx.tx with
    | none =>
      rw [transactionIsCreate, hto] at hcreate
      exact absurd rfl hcreate
    | some recipient =>
      exact ⟨_, _, l, rfl, rfl, h, (Ledger.Rearranged.refl _ l).continues⟩

theorem shows_handleResult (btx : BlockTx) (contract : Address) (result : EvmExecutionResult)
    (receipt : ExecReceipt) :
    Shows host (handleResult host ws btx contract result receipt).2 l := by
  unfold handleResult
  cases result.result with
  | stop =>
    dsimp only
    split
    · dsimp only
      split
      · exact h.setCode contract result.output
      · exact h
    · exact h
  | error => exact h

/-- A sender that has used all its gas gets nothing back. -/
theorem shows_refundSender (gasUsed : UInt64) :
    Shows host (refundSender host exec ws btx gasUsed)
      (l.deposit (2 ^ 256) (addressToKey host btx.sender)
        (refundAmount exec btx.tx gasUsed).toNat) := by
  unfold refundSender
  split
  · exact h.addBalance btx.sender _
  · next hnone =>
    have hzero : (transactionGasLimit btx.tx - gasUsed).toNat = 0 := by
      rw [UInt64.lt_iff_toNat_lt] at hnone
      exact Nat.eq_zero_of_not_pos hnone
    rw [toNat_refundAmount, hzero, Nat.mul_zero, Nat.zero_mod, Ledger.deposit_zero]
    exact h

/-- The credits at the end. -/
theorem shows_payOut (exec : BlockExecutor) (btx : BlockTx) (gasUsed : UInt64) :
    Shows host (payOut host exec ws btx gasUsed).2
      ((l.deposit (2 ^ 256) (addressToKey host btx.sender)
          (refundAmount exec btx.tx gasUsed).toNat).deposit (2 ^ 256)
        (addressToKey host exec.block.coinbase) (coinbasePayment exec btx.tx gasUsed).toNat) := by
  unfold payOut
  exact (shows_refundSender h gasUsed).addBalance exec.block.coinbase _

end

end Steps

section Receipt

theorem gasUsedAfterRefund_le (tx : Tx) (result : EvmExecutionResult) :
    gasUsedAfterRefund tx result ≤ txIntrinsicGas tx + result.gasUsed := by
  have hfifth : ∀ gas : UInt64, gas / 5 ≤ gas := fun gas => by
    rw [UInt64.le_iff_toNat_le, UInt64.toNat_div]
    exact Nat.div_le_self _ _
  unfold gasUsedAfterRefund
  dsimp only
  split
  · next hless => exact UInt64.sub_le (UInt64.le_trans (UInt64.le_of_lt hless) (hfifth _))
  · exact UInt64.sub_le (hfifth _)

/-- The receipt reports at most the gas limit: the execution used no more than what the
intrinsic gas had left. -/
theorem handleResult_gasUsed_le {contract : Address} {result : EvmExecutionResult}
    {receipt : ExecReceipt} (hintrinsic : txIntrinsicGas btx.tx ≤ transactionGasLimit btx.tx)
    (hused : result.gasUsed ≤ transactionGasLimit btx.tx - txIntrinsicGas btx.tx) :
    (handleResult host ws btx contract result receipt).1.gasUsed ≤ transactionGasLimit btx.tx := by
  have htotal : txIntrinsicGas btx.tx + result.gasUsed ≤ transactionGasLimit btx.tx := by
    have hleft := UInt64.toNat_sub_of_le _ _ hintrinsic
    have hlt := (transactionGasLimit btx.tx).toNat_lt
    rw [UInt64.le_iff_toNat_le] at hintrinsic hused ⊢
    rw [UInt64.toNat_add]
    omega
  unfold handleResult
  cases result.result with
  | stop =>
    dsimp only
    split <;> exact UInt64.le_trans (gasUsedAfterRefund_le btx.tx result) htotal
  | error => exact UInt64.le_refl _

theorem handleResult_txHash (host : Host) (ws : World) (btx : BlockTx) (contract : Address)
    (result : EvmExecutionResult) (receipt : ExecReceipt) :
    (handleResult host ws btx contract result receipt).1.txHash = receipt.txHash := by
  unfold handleResult
  cases result.result with
  | stop =>
    dsimp only
    split <;> rfl
  | error => rfl

end Receipt

/-- What an execution that passed validation comes to. -/
structure Executed (host : Host) (exec : BlockExecutor) (btx : BlockTx) (cumulativeGas : UInt64)
    (l : Ledger Hash) (receipt : ExecReceipt) (l' : Ledger Hash) : Prop where
  txHash : receipt.txHash = transactionHash host.alloc host.keccak256 btx.tx
  gasUsed_le : receipt.gasUsed ≤ transactionGasLimit btx.tx
  cumulative : receipt.cumulativeGas = cumulativeGas + receipt.gasUsed
  ledger : ∃ mid, (charged host exec btx l).Continues (2 ^ 256) mid ∧
    l' = (mid.deposit (2 ^ 256) (addressToKey host btx.sender)
        (refundAmount exec btx.tx receipt.gasUsed).toNat).deposit (2 ^ 256)
      (addressToKey host exec.block.coinbase) (coinbasePayment exec btx.tx receipt.gasUsed).toNat

/-- The transaction has paid, its value has been moved, and `call` is to be executed on `ws₁`. -/
structure Launched (host : Host) (exec : BlockExecutor) (btx : BlockTx) (ws : World) (l : Ledger Hash)
    (call : CallParams) (ws₁ : World) (l₁ : Ledger Hash) : Prop where
  paid : (deductGas host exec ws btx).1 = true
  sent : (transferred host exec ws btx).1 = true
  params : callParams host (transferred host exec ws btx).2 btx (createdContract host exec ws btx) =
    some (call, ws₁)
  gas : call.gas = transactionGasLimit btx.tx - txIntrinsicGas btx.tx
  shows : Shows host ws₁ l₁
  ledger : (charged host exec btx l).Continues (2 ^ 256) l₁

/-- The exits of `execute_transaction` before the execution are not taken by a transaction
that passes validation. -/
theorem launched_of_passes [OnArena host] {cumulativeGas : UInt64} (h : Shows host ws l)
    (hpasses : Passes host exec ws btx cumulativeGas) :
    ∃ call ws₁ l₁, Launched host exec btx ws l call ws₁ l₁ := by
  have hbalance := hpasses.balance
  rw [wsGetBalance_eq, h.balance_eq btx.sender] at hbalance
  obtain ⟨hpaid, hdebited⟩ := h.subBalance btx.sender (maxGasCost exec btx.tx)
  rw [toNat_maxGasCost] at hpaid hdebited
  have hcost : gasCost exec btx.tx % 2 ^ 256 ≤ l.balance (addressToKey host btx.sender) := by omega
  rw [decide_eq_true hcost] at hpaid
  have hopened := shows_openTransaction hdebited btx (createdContract host exec ws btx)
  rw [Ledger.withdraw_nonce] at hopened
  have hvalue : (transactionValue btx.tx).toNat ≤
      (charged host exec btx l).balance (addressToKey host btx.sender) := by
    rw [charged, Ledger.sign_balance, Ledger.withdraw, if_pos hcost, Ledger.debit_balance_self]
    omega
  obtain ⟨hsent, l₁, hl₁, hmoved₁⟩ :=
    shows_sendTxValue hopened (createdContract host exec ws btx) hvalue
  obtain ⟨call, ws₂, l₂, hcall, hgas, hl₂, hmoved₂⟩ :=
    shows_callParams hl₁ btx (createdContract host exec ws btx)
  exact ⟨call, ws₂, l₂, hpaid, hsent, hcall, hgas, hl₂, hmoved₁.continues.trans hmoved₂⟩

section Launch

variable {call : CallParams} {ws₁ : World} {l₁ : Ledger Hash} {cumulativeGas : UInt64}

theorem Launched.execute (h : Launched host exec btx ws l call ws₁ l₁) (fuel : ℕ) (evm : Evm)
    (cumulativeGas : UInt64) :
    executeTransaction host exec fuel evm ws btx cumulativeGas =
      (evmExecuteEnv host fuel { evmReset evm with state := some ws₁ }
        (executionEnv exec btx call)).map
        (settleTransaction host exec ws₁ btx (createdContract host exec ws btx) cumulativeGas) := by
  unfold executeTransaction
  dsimp only
  rw [if_pos h.paid, if_pos h.sent, h.params]

/-- A transaction that passes validation gets a receipt. -/
theorem executeTransaction_executed [OnArena host] {fuel : ℕ} {evm evm' : Evm}
    {out : Option ExecReceipt} {ws' : World} (h : Shows host ws l)
    (hpasses : Passes host exec ws btx cumulativeGas)
    (hrun : executeTransaction host exec fuel evm ws btx cumulativeGas = some (out, ws', evm')) :
    ∃ receipt l', out = some receipt ∧ Shows host ws' l' ∧
      Executed host exec btx cumulativeGas l receipt l' := by
  obtain ⟨call, ws₁, l₁, hlaunched⟩ := launched_of_passes h hpasses
  rw [hlaunched.execute, Option.map_eq_some_iff] at hrun
  obtain ⟨⟨result, evm₂⟩, hexec, hsettled⟩ := hrun
  cases hsettled
  have hreports := evmExecuteEnv_reports ⟨ws₁, rfl, hlaunched.shows⟩ hexec
  obtain ⟨l₂, ⟨ws₂, hws₂, hl₂⟩, hmoved⟩ := hreports.ledger
  have hused : result.gasUsed ≤ transactionGasLimit btx.tx - txIntrinsicGas btx.tx :=
    hlaunched.gas ▸ hreports.gasUsed_le
  have hhandled := shows_handleResult hl₂ btx (createdContract host exec ws btx) result
    (emptyReceipt host btx.tx)
  rw [hws₂, Option.getD_some]
  refine ⟨_, _, rfl, shows_payOut hhandled exec btx _, ?_, ?_, rfl, l₂, ?_, rfl⟩
  · exact handleResult_txHash ..
  · exact handleResult_gasUsed_le (UInt64.le_iff_toNat_le.mpr hpasses.intrinsic) hused
  · exact hlaunched.ledger.trans hmoved.continues

end Launch

end Div0.ExecutorEffects
