import Div0.ExecutorEffects
import Div0.GasConservation

/-!
Ether is conserved by a transaction except for the base fee, which is burned. The sender
pays the whole price of its gas limit in advance; the refund, the payment to the coinbase
and the burned base fee share it exactly, so neither credit at the end is refused. What
happens between, in the transfer of the value and in the code, moves balances only.
-/

namespace Div0.Conservation

open Node Uint256 Transaction WorldState WorldLedger Ledgers Frame Interpreter Validation Executor
open ExecutorEffects GasConservation

variable {host : Host} {exec : BlockExecutor} {btx : BlockTx} {l l' : Ledger Hash}
  {cumulativeGas : UInt64} {receipt : ExecReceipt}

/-- The price of the gas limit is shared by the refund, the coinbase and the base fee. -/
theorem gas_shares {price baseFee limit used : ℕ} (hfee : baseFee ≤ price) (hused : used ≤ limit) :
    price * (limit - used) + (price - baseFee) * used + baseFee * used = price * limit := by
  calc price * (limit - used) + (price - baseFee) * used + baseFee * used
      = price * (limit - used) + (price - baseFee + baseFee) * used := by
        rw [Nat.add_assoc, ← Nat.add_mul]
    _ = price * (limit - used + used) := by rw [Nat.sub_add_cancel hfee, ← Nat.mul_add]
    _ = price * limit := by rw [Nat.sub_add_cancel hused]

theorem Executed.total (h : Executed host exec btx cumulativeGas l receipt l')
    (hsum : l.total < 2 ^ 256)
    (hfee : exec.block.baseFee.toNat ≤ (effectiveGasPrice exec btx.tx).toNat)
    (hcost : gasCost exec btx.tx ≤ l.balance (addressToKey host btx.sender)) :
    l'.total + exec.block.baseFee.toNat * receipt.gasUsed.toNat = l.total := by
  obtain ⟨mid, hmid, rfl⟩ := h.ledger
  have hused := h.gasUsed_le
  have hleft := UInt64.toNat_sub_of_le _ _ hused
  rw [UInt64.le_iff_toNat_le] at hused
  have hshares := gas_shares hfee hused
  have hle := Ledger.balance_le_total l (addressToKey host btx.sender)
  -- no product is larger than the advance payment, which the sender has
  have hprice : (effectiveGasPrice exec btx.tx).toNat * (transactionGasLimit btx.tx).toNat =
    gasCost exec btx.tx := rfl
  have hrefund := toNat_refundAmount exec btx.tx receipt.gasUsed
  rw [hleft, Nat.mod_eq_of_lt (by omega)] at hrefund
  have hpayment := toNat_coinbasePayment exec btx.tx receipt.gasUsed hfee
  rw [Nat.mod_eq_of_lt (by omega)] at hpayment
  have hcharged : (charged host exec btx l).total + gasCost exec btx.tx = l.total := by
    have hfits : gasCost exec btx.tx % 2 ^ 256 = gasCost exec btx.tx := Nat.mod_eq_of_lt (by omega)
    rw [charged, Ledger.total_sign, hfits, Ledger.total_withdraw hcost]
  have htotal := hmid.total (by omega)
  have hrefunded : (mid.deposit (2 ^ 256) (addressToKey host btx.sender)
      (refundAmount exec btx.tx receipt.gasUsed).toNat).total =
      mid.total + (refundAmount exec btx.tx receipt.gasUsed).toNat :=
    Ledger.total_deposit _ (by omega)
  rw [Ledger.total_deposit _ (by omega), hrefunded]
  omega

/-- For every code that runs and whichever addresses coincide. The total after the
transaction and the burned base fee are the total before it. -/
theorem executeTransaction_conserves (host : Host) [OnArena host] {fuel : ℕ} {evm evm' : Evm}
    {ws ws' : World} {out : Option ExecReceipt} (hws : WellFormed host ws)
    (hsum : (ledger host ws).total < 2 ^ 256)
    (hvalid : blockExecutorValidateTx host exec ws btx cumulativeGas = .valid)
    (hfee : exec.block.baseFee.toNat ≤ (effectiveGasPrice exec btx.tx).toNat)
    (hcost : (transactionValue btx.tx).toNat +
        (transactionGasLimit btx.tx).toNat * (effectiveGasPrice exec btx.tx).toNat ≤
      (wsGetBalance host ws btx.sender).toNat)
    (hrun : executeTransaction host exec fuel evm ws btx cumulativeGas =
      some (out, ws', evm')) :
    ∃ receipt, out = some receipt ∧ WellFormed host ws' ∧
      (ledger host ws').total + exec.block.baseFee.toNat * receipt.gasUsed.toNat =
        (ledger host ws).total := by
  have hpasses := (blockExecutorValidateTx_valid_iff ..).mp hvalid
  obtain ⟨receipt, l', rfl, hshows, hexecuted⟩ :=
    executeTransaction_executed hws.shows hpasses hrun
  have hbalance := hws.shows.balance_eq btx.sender
  rw [wsGetBalance_eq, hbalance, Nat.mul_comm] at hcost
  refine ⟨receipt, rfl, hshows.wellFormed, ?_⟩
  rw [hshows.ledger_eq]
  exact Executed.total hexecuted hsum hfee (le_trans (Nat.le_add_left ..) hcost)

section Example

def fundedWorld : World :=
  let funded := (wsAddBalance paddedHost worldStateCreate (lowAddress 1)
    (uint256FromU64 1000000)).2
  let funded := (wsAddBalance paddedHost funded (lowAddress 2) (uint256FromU64 100)).2
  wsSetCode paddedHost (wsSetCode paddedHost funded (lowAddress 2) payerCode)
    (lowAddress 3) payeeCode

def paymentTx : BlockTx :=
  ⟨.legacy ⟨0, uint256FromU64 3, 100000, some (lowAddress 2), uint256FromU64 5, [], 27, uint256Zero,
    uint256Zero⟩, lowAddress 1, true, 0⟩

theorem total_worldStateCreate (host : Host) : (ledger host worldStateCreate).total = 0 := by
  have hnone : ∀ key, accountAt host worldStateCreate key = none := fun _ => rfl
  exact Finset.sum_eq_zero fun key _ => by rw [ledger_balance, hnone, Option.map_none, Option.getD_none]

theorem shows_fundedWorld : ∃ l, Shows paddedHost fundedWorld l ∧ l.total = 1000100 := by
  have hcredit : ∀ {ws l} {total : ℕ} (addr amount), Shows paddedHost ws l →
      l.total = total → total + amount.toNat < 2 ^ 256 →
      ∃ l', Shows paddedHost (wsAddBalance paddedHost ws addr amount).2 l' ∧
        l'.total = total + amount.toNat := by
    rintro ws l total addr amount h rfl hlt
    exact ⟨_, h.addBalance addr amount, Ledger.total_deposit _ hlt⟩
  obtain ⟨l₁, h₁, htotal₁⟩ := hcredit (lowAddress 1) (uint256FromU64 1000000)
    (wellFormed_create _).shows (total_worldStateCreate _) (by decide)
  obtain ⟨l₂, h₂, htotal₂⟩ := hcredit (lowAddress 2) (uint256FromU64 100) h₁ htotal₁ (by decide)
  exact ⟨l₂, (h₂.setCode _ _).setCode _ _, htotal₂⟩

/-- The code sends 7 on to the address 3. -/
theorem executeTransaction_conserves_payment :
    ∃ receipt ws' evm', executeTransaction paddedHost plainExecutor 100 (evmInit .cancun)
        fundedWorld paymentTx 0 = some (some receipt, ws', evm') ∧
      wsGetBalance paddedHost ws' (lowAddress 3) = uint256FromU64 7 ∧
      (ledger paddedHost ws').total + 1 * receipt.gasUsed.toNat = 1000100 := by
  obtain ⟨l, hshows, htotal⟩ := shows_fundedWorld
  have hruns : (executeTransaction paddedHost plainExecutor 100 (evmInit .cancun)
        fundedWorld paymentTx 0).map (fun out => wsGetBalance paddedHost out.2.1
          (lowAddress 3)) = some (uint256FromU64 7) ∧
      blockExecutorValidateTx paddedHost plainExecutor fundedWorld paymentTx 0 = .valid ∧
      plainExecutor.block.baseFee.toNat ≤ (effectiveGasPrice plainExecutor paymentTx.tx).toNat ∧
      (transactionValue paymentTx.tx).toNat + (transactionGasLimit paymentTx.tx).toNat *
          (effectiveGasPrice plainExecutor paymentTx.tx).toNat ≤
        (wsGetBalance paddedHost fundedWorld paymentTx.sender).toNat := by decide +kernel
  obtain ⟨hpaid, hvalid, hfee, hcost⟩ := hruns
  rw [Option.map_eq_some_iff] at hpaid
  obtain ⟨⟨out, ws', evm'⟩, hrun, hbalance⟩ := hpaid
  rw [← hshows.ledger_eq] at htotal
  obtain ⟨receipt, rfl, -, hconserved⟩ := executeTransaction_conserves paddedHost hshows.wellFormed
    (by rw [htotal]; norm_num) hvalid hfee hcost hrun
  exact ⟨receipt, ws', evm', hrun, hbalance, hconserved.trans htotal⟩

end Example

end Div0.Conservation
