import Div0.Rollback

/-!
What a transaction is charged for its gas. The price of a fee market transaction is
computed with a sum of words that can wrap around; validation does not look at the
priority fee, so it does not prevent this. The gas of a transaction that ends with
REVERT is charged as a whole: the executor does not tell a revert from other failures.
-/

namespace Div0.GasCharges

open Node Uint256 Effects Transaction WorldState WorldLedger Ledgers Frame Interpreter Validation
open Executor RunEffects ExecutorEffects Rollback GasConservation

section Price

def feeMarketFees : Tx → Option (Word × Word)
  | .legacy _ | .eip2930 _ => none
  | .eip1559 tx => some (tx.maxPriorityFeePerGas, tx.maxFeePerGas)
  | .eip4844 tx => some (tx.maxPriorityFeePerGas, tx.maxFeePerGas)
  | .eip7702 tx => some (tx.maxPriorityFeePerGas, tx.maxFeePerGas)

theorem effectiveGasPrice_feeMarket {tx : Tx} {priority cap : Word}
    (h : feeMarketFees tx = some (priority, cap)) (baseFee : Word) :
    transactionMaxFeePerGas tx = cap ∧
      transactionEffectiveGasPrice tx baseFee = feeMarketGasPrice priority cap baseFee := by
  cases tx <;> cases h <;> exact ⟨rfl, rfl⟩

/-- The price in terms of the sum as it is computed. -/
theorem toNat_feeMarketGasPrice (priority cap baseFee : Word) :
    (feeMarketGasPrice priority cap baseFee).toNat =
      min cap.toNat ((baseFee.toNat + priority.toNat) % 2 ^ 256) := by
  have hsum := toNat_add baseFee priority
  unfold feeMarketGasPrice
  by_cases hcap : uint256Lt cap (uint256Add baseFee priority) = true
  · rw [if_pos hcap]
    rw [lt_iff, hsum] at hcap
    exact (Nat.min_eq_left hcap.le).symm
  · rw [if_neg hcap, hsum]
    rw [lt_iff, hsum, not_lt] at hcap
    exact (Nat.min_eq_right hcap).symm

/-- For an accepted fee market transaction, the price is the one over the integers, and
covers the base fee, exactly when the base fee and the priority fee together fit a word. -/
theorem effectiveGasPrice_exact_iff (host : Host) (exec : BlockExecutor) (ws : World)
    (btx : BlockTx) (cumulativeGas : UInt64) (priority cap : Word)
    (hfees : feeMarketFees btx.tx = some (priority, cap))
    (hvalid : blockExecutorValidateTx host exec ws btx cumulativeGas = .valid) :
    ((effectiveGasPrice exec btx.tx).toNat =
        min cap.toNat (exec.block.baseFee.toNat + priority.toNat) ∧
      exec.block.baseFee.toNat ≤ (effectiveGasPrice exec btx.tx).toNat ∧
      (uint256Sub (effectiveGasPrice exec btx.tx) exec.block.baseFee).toNat +
        exec.block.baseFee.toNat = (effectiveGasPrice exec btx.tx).toNat) ↔
    exec.block.baseFee.toNat + priority.toNat < 2 ^ 256 := by
  obtain ⟨hcap, hprice⟩ := effectiveGasPrice_feeMarket hfees exec.block.baseFee
  have hfloor := ((blockExecutorValidateTx_valid_iff ..).mp hvalid).maxFee
  rw [hcap] at hfloor
  have hpriority := priority.toNat_lt
  have hnat := toNat_feeMarketGasPrice priority cap exec.block.baseFee
  rw [effectiveGasPrice, hprice, hnat]
  constructor
  · rintro ⟨-, hcovers, -⟩
    -- a sum that wraps around is below the base fee, which the cap is not
    by_contra hwraps
    rw [Nat.mod_eq_sub_mod (by omega), Nat.mod_eq_of_lt (by omega)] at hcovers
    omega
  · intro hfits
    rw [Nat.mod_eq_of_lt hfits] at hnat ⊢
    have hcovers : exec.block.baseFee.toNat ≤
        min cap.toNat (exec.block.baseFee.toNat + priority.toNat) := by omega
    refine ⟨rfl, hcovers, ?_⟩
    rw [toNat_sub_of_le (by rw [hnat]; exact hcovers), hnat]
    omega

def feeTx (priority cap : Word) : BlockTx :=
  ⟨.eip1559 {
    chainId := 1
    nonce := 0
    maxPriorityFeePerGas := priority
    maxFeePerGas := cap
    gasLimit := 21000
    recipient := some addressZero
    value := uint256Zero
    data := []
    accessList := []
    yParity := 0
    r := uint256Zero
    s := uint256Zero }, addressZero, true, 0⟩

theorem feeTx_valid :
    blockExecutorValidateTx zeroHost plainExecutor
      (wsSetBalance zeroHost worldStateCreate addressZero (uint256FromU64 1000000))
      (feeTx (uint256FromU64 2) (uint256FromU64 9)) 0 = .valid ∧
    blockExecutorValidateTx zeroHost plainExecutor worldStateCreate
      (feeTx (Word.ofNat (2 ^ 256 - 1)) (uint256FromU64 9)) 0 = .valid := by
  decide +kernel

theorem effectiveGasPrice_exact_iff_tip :
    blockExecutorValidateTx zeroHost plainExecutor
      (wsSetBalance zeroHost worldStateCreate addressZero (uint256FromU64 1000000))
      (feeTx (uint256FromU64 2) (uint256FromU64 9)) 0 = .valid ∧
    (effectiveGasPrice plainExecutor (feeTx (uint256FromU64 2) (uint256FromU64 9)).tx).toNat = 3 := by
  have hvalid := feeTx_valid.1
  have hiff := effectiveGasPrice_exact_iff zeroHost plainExecutor _ _ 0 (uint256FromU64 2)
    (uint256FromU64 9) rfl hvalid
  exact ⟨hvalid, (hiff.mpr (by decide)).1⟩

/-- A priority fee of `2 ^ 256 - 1` makes the price zero, at a base fee of one. -/
theorem effectiveGasPrice_wraps :
    blockExecutorValidateTx zeroHost plainExecutor worldStateCreate
      (feeTx (Word.ofNat (2 ^ 256 - 1)) (uint256FromU64 9)) 0 = .valid ∧
    ¬((effectiveGasPrice plainExecutor
          (feeTx (Word.ofNat (2 ^ 256 - 1)) (uint256FromU64 9)).tx).toNat =
        min 9 (plainExecutor.block.baseFee.toNat + (2 ^ 256 - 1)) ∧
      plainExecutor.block.baseFee.toNat ≤ (effectiveGasPrice plainExecutor
        (feeTx (Word.ofNat (2 ^ 256 - 1)) (uint256FromU64 9)).tx).toNat) :=
  ⟨feeTx_valid.2, by decide⟩

end Price

section Revert

variable {host : Host} {exec : BlockExecutor} {fuel : ℕ} {evm : Evm} {ws : World} {btx : BlockTx}

/-- The top frame of a transaction ends by executing REVERT, with this outcome. -/
def EndsByRevert (host : Host) (exec : BlockExecutor) (evm : Evm) (ws : World) (btx : BlockTx)
    (out : Outcome) : Prop :=
  ∃ m₀ ∈ launch host exec evm ws btx, ∃ m offset size s, Reaches (step host) m₀ m ∧
    dispatch host m.active = .ok (some (.revert offset size)) s ∧ step host m = .finished out

/-- A revert of the top frame is an error with the code `EVM_OK`. -/
theorem finished_of_revert {m : Machine} {offset size : UInt64} {s : Active} {out : Outcome}
    (hdispatch : dispatch host m.active = .ok (some (.revert offset size)) s)
    (hstep : step host m = .finished out) :
    out.1.result = .error ∧ out.1.error = .ok ∧
      out.1.gasUsed = m.initialGas - s.frame.gas := by
  simp only [step, hdispatch, settle] at hstep
  split at hstep
  · split at hstep
    · cases hstep
    · cases hstep
      exact ⟨rfl, rfl, rfl⟩
  · exact absurd hstep finishChild_ne_finished

/-- The receipt of an accepted transaction is made from the outcome of its run. -/
theorem receipt_of_finished [OnArena host] {l : Ledger Hash} {cumulativeGas : UInt64}
    {receipt : ExecReceipt} {ws' : World} {evm' : Evm} {m₀ m : Machine} {out : Outcome}
    (hshows : Shows host ws l) (hpasses : Passes host exec ws btx cumulativeGas)
    (hlaunch : m₀ ∈ launch host exec evm ws btx) (hreach : Reaches (step host) m₀ m)
    (hstep : step host m = .finished out)
    (hrun : executeTransaction host exec fuel evm ws btx cumulativeGas =
      some (some receipt, ws', evm')) :
    ∃ call ws₁ l₁, Launched host exec btx ws l call ws₁ l₁ ∧
      (some receipt, ws', evm') =
        settleTransaction host exec ws₁ btx (createdContract host exec ws btx) cumulativeGas out := by
  obtain ⟨call, ws₁, l₁, hlaunched⟩ := launched_of_passes hshows hpasses
  refine ⟨call, ws₁, l₁, hlaunched, ?_⟩
  rw [launch, hlaunched.params] at hlaunch
  cases hlaunch
  rw [hlaunched.execute, Option.map_eq_some_iff] at hrun
  obtain ⟨out', hexec, hsettled⟩ := hrun
  obtain ⟨last, hreach', hlast⟩ := runFor_finished hexec
  obtain rfl := reaches_finished_unique hreach hstep hreach' hlast
  rw [hstep] at hlast
  cases hlast
  exact hsettled.symm

/-- The receipt of an accepted transaction that ends with REVERT shows the intrinsic gas
and the gas the EVM reports, and what is left goes back to the sender, exactly when the
EVM reports all the gas it was given. -/
theorem revert_gas_exact_iff (host : Host) [OnArena host] (exec : BlockExecutor) (fuel : ℕ)
    (evm : Evm) (ws : World) (btx : BlockTx) (cumulativeGas : UInt64) (receipt : ExecReceipt)
    (ws' : World) (evm' : Evm) (out : Outcome) (hws : WellFormed host ws)
    (hvalid : blockExecutorValidateTx host exec ws btx cumulativeGas = .valid)
    (hrun : executeTransaction host exec fuel evm ws btx cumulativeGas =
      some (some receipt, ws', evm'))
    (hrevert : EndsByRevert host exec evm ws btx out) :
    (receipt.gasUsed.toNat = (txIntrinsicGas btx.tx).toNat + out.1.gasUsed.toNat ∧
      transactionGasLimit btx.tx - receipt.gasUsed =
        transactionGasLimit btx.tx - txIntrinsicGas btx.tx - out.1.gasUsed ∧
      (receipt.gasUsed = transactionGasLimit btx.tx →
        out.1.gasUsed = transactionGasLimit btx.tx - txIntrinsicGas btx.tx)) ↔
    out.1.gasUsed = transactionGasLimit btx.tx - txIntrinsicGas btx.tx := by
  have hpasses := (blockExecutorValidateTx_valid_iff ..).mp hvalid
  obtain ⟨m₀, hlaunch, m, offset, size, s, hreach, hdispatch, hstep⟩ := hrevert
  obtain ⟨call, ws₁, l₁, -, hsettled⟩ :=
    receipt_of_finished hws.shows hpasses hlaunch hreach hstep hrun
  have hgas : receipt.gasUsed = transactionGasLimit btx.tx := by
    have herror := (finished_of_revert hdispatch hstep).1
    cases hsettled
    simp only [withCumulative, handleResult, herror]
  have hle : txIntrinsicGas btx.tx ≤ transactionGasLimit btx.tx :=
    UInt64.le_iff_toNat_le.mpr hpasses.intrinsic
  constructor
  · rintro ⟨-, -, hall⟩
    exact hall hgas
  · intro hused
    have hgiven := UInt64.toNat_sub_of_le _ _ hle
    have hintrinsic := hpasses.intrinsic
    refine ⟨?_, ?_, fun _ => hused⟩
    · rw [hgas, hused, hgiven]
      omega
    · rw [hgas, hused, UInt64.sub_self, UInt64.sub_self]

def revertedGas (host : Host) (m : Machine) : Option UInt64 :=
  match dispatch host m.active, step host m with
  | .ok (some (.revert _ _)) _, .finished out => some out.1.gasUsed
  | _, _ => none

theorem endsByRevert_of_advance {n : ℕ} {gas : UInt64}
    (h : (launch host exec evm ws btx).map
      (fun m₀ => revertedGas host (advance (step host) n m₀)) = some (some gas)) :
    ∃ out, EndsByRevert host exec evm ws btx out ∧ out.1.gasUsed = gas := by
  obtain ⟨m₀, hlaunch, hgas⟩ := Option.map_eq_some_iff.mp h
  unfold revertedGas at hgas
  split at hgas
  · next offset size s out hdispatch hstep =>
    cases hgas
    exact ⟨out, ⟨m₀, hlaunch, _, offset, size, s, reaches_advance _ n m₀, hdispatch, hstep⟩, rfl⟩
  · cases hgas

def revertingWorld : World :=
  wsSetCode paddedHost
    (wsAddBalance paddedHost worldStateCreate (lowAddress 1) (uint256FromU64 1000000)).2
    (lowAddress 3) [0x5f, 0x5f, 0xfd]

def revertingTx (gasLimit : UInt64) : BlockTx :=
  ⟨.legacy ⟨0, uint256FromU64 3, gasLimit, some (lowAddress 3), uint256Zero, [], 27, uint256Zero,
    uint256Zero⟩, lowAddress 1, true, 0⟩

theorem wellFormed_revertingWorld : WellFormed paddedHost revertingWorld :=
  (((wellFormed_create _).shows.addBalance _ _).setCode _
    _).wellFormed

/-- The call is accepted and charged all of its gas, but the EVM reports four units. -/
theorem revertingTx_runs (gasLimit : UInt64) (h : gasLimit = 21004 ∨ gasLimit = 30000) :
    (executeTransaction paddedHost plainExecutor 100 (evmInit .cancun) revertingWorld
      (revertingTx gasLimit) 0).map (fun out => out.1.map (·.gasUsed)) = some (some gasLimit) ∧
    (launch paddedHost plainExecutor (evmInit .cancun) revertingWorld
        (revertingTx gasLimit)).map
      (fun m₀ => revertedGas paddedHost (stepped 2 m₀)) =
      some (some 4) ∧
    blockExecutorValidateTx paddedHost plainExecutor revertingWorld
      (revertingTx gasLimit) 0 = .valid := by
  rcases h with rfl | rfl <;> decide +kernel

/-- The two instructions before the REVERT cost the four units of gas that are left after
the intrinsic gas. -/
theorem revert_gas_exact_iff_spent :
    ∃ receipt ws' evm' out, executeTransaction paddedHost plainExecutor 100
        (evmInit .cancun) revertingWorld (revertingTx 21004) 0 = some (some receipt, ws', evm') ∧
      EndsByRevert paddedHost plainExecutor (evmInit .cancun) revertingWorld
        (revertingTx 21004) out ∧
      receipt.gasUsed.toNat = (txIntrinsicGas (revertingTx 21004).tx).toNat +
        out.1.gasUsed.toNat := by
  obtain ⟨hdone, hreverts, hvalid⟩ := revertingTx_runs 21004 (Or.inl rfl)
  obtain ⟨⟨out, ws', evm'⟩, hrun, hout⟩ := Option.map_eq_some_iff.mp hdone
  obtain ⟨receipt, rfl, -⟩ := Option.map_eq_some_iff.mp hout
  obtain ⟨last, hrevert, hgas⟩ := endsByRevert_of_advance hreverts
  have hiff := revert_gas_exact_iff paddedHost plainExecutor 100 _ _ _ 0 receipt ws' evm' last
    wellFormed_revertingWorld hvalid hrun hrevert
  exact ⟨receipt, ws', evm', last, hrun, hrevert, (hiff.mpr (by rw [hgas]; decide)).1⟩

/-- With more gas than that, the EVM reports four units and the receipt shows all of it. -/
theorem revert_charged_in_full :
    ∃ receipt ws' evm' out, executeTransaction paddedHost plainExecutor 100
        (evmInit .cancun) revertingWorld (revertingTx 30000) 0 = some (some receipt, ws', evm') ∧
      blockExecutorValidateTx paddedHost plainExecutor revertingWorld (revertingTx 30000) 0 =
        .valid ∧
      EndsByRevert paddedHost plainExecutor (evmInit .cancun) revertingWorld
        (revertingTx 30000) out ∧
      out.1.gasUsed = 4 ∧ receipt.gasUsed = 30000 ∧
      ¬receipt.gasUsed.toNat = (txIntrinsicGas (revertingTx 30000).tx).toNat +
        out.1.gasUsed.toNat := by
  obtain ⟨hdone, hreverts, hvalid⟩ := revertingTx_runs 30000 (Or.inr rfl)
  obtain ⟨⟨out, ws', evm'⟩, hrun, hout⟩ := Option.map_eq_some_iff.mp hdone
  obtain ⟨receipt, rfl, hused⟩ := Option.map_eq_some_iff.mp hout
  obtain ⟨last, hrevert, hgas⟩ := endsByRevert_of_advance hreverts
  refine ⟨receipt, ws', evm', last, hrun, hvalid, hrevert, hgas, hused, ?_⟩
  rw [hused, hgas]
  decide

end Revert

end Div0.GasCharges
