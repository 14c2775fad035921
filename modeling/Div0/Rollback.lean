import Div0.Conservation
import Div0.StaticFrames

/-!
What a failed call or transaction leaves behind. Nothing is taken back: a snapshot is a
number, and `ws_revert_to_snapshot` does nothing, so what a call has written before it
failed stays, and so do the value it was given and the account that a creation has made.
A call or transaction whose steps are all calm has written nothing.
-/

namespace Div0.Rollback

open Effects Node Uint256 Transaction EvmContext WorldState WorldLedger Ledgers Frame Interpreter
open Validation Executor OpEffects RunEffects ExecutorEffects GasConservation StaticFrames

variable {host : Host}

section Calls

/-- The instruction at `m` calls a child, which starts at `m₁` and fails at `m₂`; then its
parent goes on at `m₃`. -/
structure FailedCall (host : Host) (m m₁ m₂ m₃ : Machine) : Prop where
  entry : step host m = .running m₁
  deeper : m₁.parents.length = m.parents.length + 1
  inside : Inside host m₁ m₂
  failed : (ending host m₂.active).map resultWord = some uint256Zero
  back : step host m₂ = .running m₃
  level : m₃.parents.length = m.parents.length

variable [OnArena host] {m m₁ m₂ m₃ : Machine}

theorem FailedCall.untouched (h : FailedCall host m m₁ m₂ m₃) (hentry : Calm m)
    (hcalm : ∀ k, Inside host m₁ k → Calm k) : Untouched m.active.evm m₃.active.evm := by
  have hchild : Inside host m₁ m₂ ∧ Untouched m₁.active.evm m₂.active.evm := by
    refine reachesIn_invariant (I := fun k => Inside host m₁ k ∧ Untouched m₁.active.evm k.active.evm)
      ?_ ⟨.refl, .refl _⟩ h.inside
    rintro k k' ⟨hinside, huntouched⟩ hstep hin
    exact ⟨hinside.tail ⟨hstep, hin⟩, huntouched.trans (untouched_step (hcalm k hinside) hstep)⟩
  exact ((untouched_step hentry h.entry).trans hchild.2).trans
    (untouched_step (hcalm _ hchild.1) h.back)

/-- A whole execution of calm steps. -/
theorem evmExecuteEnv_untouched {fuel : ℕ} {evm : Evm} {env : ExecutionEnv} {out : Outcome}
    (hcalm : ∀ k, Reaches (step host) (start evm env) k → Calm k)
    (hrun : evmExecuteEnv host fuel evm env = some out) : Untouched evm out.2 := by
  unfold evmExecuteEnv at hrun
  split at hrun
  · cases hrun
    exact ⟨rfl, rfl, rfl⟩
  · obtain ⟨last, hreach, hlast⟩ := runFor_finished hrun
    have hstart : Untouched evm (start evm env).active.evm := ⟨rfl, rfl, rfl⟩
    have hkept : Reaches (step host) (start evm env) last ∧ Untouched evm last.active.evm := by
      refine reaches_invariant
        (I := fun k => Reaches (step host) (start evm env) k ∧ Untouched evm k.active.evm)
        ?_ ⟨.refl, hstart⟩ hreach
      rintro k k' ⟨hbefore, huntouched⟩ hstep
      exact ⟨hbefore.tail hstep, huntouched.trans (untouched_step (hcalm k hbefore) hstep)⟩
    exact hkept.2.trans (untouched_finished (hcalm _ hkept.1) hlast)

end Calls

section Stores

/-- The maps for code and storage are the same. -/
structure SameStores (ws ws' : World) : Prop where
  code : ws'.codeStore = ws.codeStore
  storage : ws'.storageTries = ws.storageTries

variable {exec : BlockExecutor} {ws ws' : World} {btx : BlockTx}

theorem SameStores.refl (ws : World) : SameStores ws ws := ⟨rfl, rfl⟩

theorem SameStores.trans {a b c : World} (h : SameStores a b) (h' : SameStores b c) :
    SameStores a c := ⟨h'.code.trans h.code, h'.storage.trans h.storage⟩

section

variable (addr : Address)

theorem sameStores_setAccount (acc : Accounts.Account) :
    SameStores ws (worldStateSetAccount host ws addr acc).2 := by
  unfold worldStateSetAccount
  dsimp only
  split
  · exact ⟨rfl, rfl⟩
  · split <;> exact ⟨rfl, rfl⟩

theorem sameStores_addBalance (amount : Word) :
    SameStores ws (wsAddBalance host ws addr amount).2 := by
  unfold wsAddBalance
  dsimp only
  split
  · exact .refl ws
  · exact sameStores_setAccount ..

theorem sameStores_subBalance (amount : Word) :
    SameStores ws (wsSubBalance host ws addr amount).2 := by
  unfold wsSubBalance
  split
  · exact .refl ws
  · split
    · exact .refl ws
    · exact sameStores_setAccount ..

theorem sameStores_incrementNonce : SameStores ws (wsIncrementNonce host ws addr).2 := by
  unfold wsIncrementNonce
  dsimp only
  split
  · exact .refl ws
  · exact sameStores_setAccount ..

theorem sameStores_warmAddress : SameStores ws (wsWarmAddress host ws addr).2 := by
  unfold wsWarmAddress
  split <;> exact ⟨rfl, rfl⟩

theorem sameStores_warmSlot (slot : Word) : SameStores ws (wsWarmSlot host ws addr slot).2 := by
  unfold wsWarmSlot
  split <;> exact ⟨rfl, rfl⟩

end

theorem sameStores_warmAccessList (list : Option AccessList) :
    SameStores ws (warmAccessList host ws list) := by
  have hslots : ∀ (addr : Address) (keys : List Word) (ws : World),
      SameStores ws (keys.foldl (fun ws key => (wsWarmSlot host ws addr key).2) ws) := by
    intro addr keys
    induction keys with
    | nil => exact .refl
    | cons key rest ih => exact fun ws => (sameStores_warmSlot addr key).trans (ih _)
  cases list with
  | none => exact .refl ws
  | some entries =>
    unfold warmAccessList
    dsimp only
    induction entries generalizing ws with
    | nil => exact .refl ws
    | cons entry rest ih => exact ((sameStores_warmAddress _).trans (hslots ..)).trans ih

theorem sameStores_openTransaction (contract : Address) :
    SameStores ws (openTransaction host ws btx contract) := by
  unfold openTransaction
  dsimp only
  have hsender : SameStores ws
      (wsWarmAddress host (wsIncrementNonce host ws btx.sender).2 btx.sender).2 :=
    (sameStores_incrementNonce _).trans (sameStores_warmAddress _)
  have hlist : ∀ ws' list, SameStores ws ws' →
      SameStores ws (wsSnapshot (warmAccessList host ws' list)).2 := fun ws' list h =>
    (h.trans (sameStores_warmAccessList list)).trans ⟨rfl, rfl⟩
  apply hlist
  split
  · exact hsender.trans (sameStores_warmAddress _)
  · split
    · exact hsender.trans (sameStores_warmAddress _)
    · exact hsender

theorem sameStores_payOut (gasUsed : UInt64) :
    SameStores ws (payOut host exec ws btx gasUsed).2 := by
  have hrefunded : SameStores ws (refundSender host exec ws btx gasUsed) := by
    unfold refundSender
    split
    · exact sameStores_addBalance ..
    · exact .refl ws
  exact hrefunded.trans (sameStores_addBalance ..)

theorem sameStores_of_cool (h : cool ws' = cool ws) : SameStores ws ws' :=
  ⟨(congrArg World.codeStore h :), (congrArg World.storageTries h :)⟩

end Stores

section Transactions

variable {exec : BlockExecutor} {ws ws' : World} {btx : BlockTx}

def launch (host : Host) (exec : BlockExecutor) (evm : Evm) (ws : World) (btx : BlockTx) :
    Option Machine :=
  (callParams host (transferred host exec ws btx).2 btx (createdContract host exec ws btx)).map
    fun (params, ws₁) =>
      start { evmReset evm with state := some ws₁ } (executionEnv exec btx params)

/-- No value, no creation, and only calm steps. -/
structure CalmTx (host : Host) (exec : BlockExecutor) (evm : Evm) (ws : World) (btx : BlockTx) :
    Prop where
  value : uint256IsZero (transactionValue btx.tx) = true
  call : transactionIsCreate btx.tx = false
  steps : ∀ m₀ ∈ launch host exec evm ws btx, ∀ m, Reaches (step host) m₀ m → Calm m

/-- The sender has paid for all its gas and has been counted, the coinbase has been paid, and
nothing else has changed. -/
structure OnlyFees (host : Host) (exec : BlockExecutor) (btx : BlockTx) (ws ws' : World) : Prop where
  ledger : ledger host ws' = (charged host exec btx (ledger host ws)).deposit (2 ^ 256)
    (addressToKey host exec.block.coinbase)
    (coinbasePayment exec btx.tx (transactionGasLimit btx.tx)).toNat
  code : ∀ addr, wsGetCode ws' addr = wsGetCode ws addr
  storage : ∀ addr slot, wsGetStorage host ws' addr slot = wsGetStorage host ws addr slot

/-- Without value and creation the call is executed in the state that the charge has left. -/
theorem CalmTx.charged [OnArena host] {evm : Evm} (h : CalmTx host exec evm ws btx)
    (hws : WellFormed host ws) {params : CallParams} {ws₁ : World}
    (hparams : callParams host (transferred host exec ws btx).2 btx
      (createdContract host exec ws btx) = some (params, ws₁)) :
    SameStores ws ws₁ ∧ Shows host ws₁ (ExecutorEffects.charged host exec btx (ledger host ws)) := by
  have hdebited := (hws.shows.subBalance btx.sender (maxGasCost exec btx.tx)).2
  rw [toNat_maxGasCost] at hdebited
  have hopened := shows_openTransaction hdebited btx (createdContract host exec ws btx)
  rw [Ledger.withdraw_nonce] at hopened
  have hsent : (transferred host exec ws btx).2 = openTransaction host
      (deductGas host exec ws btx).2 btx (createdContract host exec ws btx) := by
    rw [transferred, sendTxValue, if_pos h.value]
  have hsame : ws₁ = (transferred host exec ws btx).2 := by
    unfold callParams at hparams
    simp only [h.call, Bool.false_eq_true, if_false] at hparams
    split at hparams
    · cases hparams
      rfl
    · cases hparams
  rw [hsame, hsent]
  exact ⟨(sameStores_subBalance ..).trans (sameStores_openTransaction _), hopened⟩

/-- A failed execution leaves the state as the machine has left it, and uses all the gas. -/
theorem handleResult_failed {contract : Address} {result : EvmExecutionResult}
    {receipt : ExecReceipt}
    (h : (handleResult host ws btx contract result receipt).1.success = false) :
    (handleResult host ws btx contract result receipt).1.gasUsed = transactionGasLimit btx.tx ∧
      (handleResult host ws btx contract result receipt).2 = ws := by
  unfold handleResult at h ⊢
  cases hresult : result.result with
  | stop =>
    simp only [hresult] at h
    split at h <;> cases h
  | error => exact ⟨rfl, rfl⟩

/-- All gas is used, so the sender gets nothing back. -/
theorem shows_payOut_all [OnArena host] {l : Ledger Hash} (h : Shows host ws l) :
    Shows host (payOut host exec ws btx (transactionGasLimit btx.tx)).2
      (l.deposit (2 ^ 256) (addressToKey host exec.block.coinbase)
        (coinbasePayment exec btx.tx (transactionGasLimit btx.tx)).toNat) := by
  have hpaid := shows_payOut h exec btx (transactionGasLimit btx.tx)
  rwa [toNat_refundAmount, UInt64.sub_self, UInt64.toNat_zero, Nat.mul_zero, Nat.zero_mod,
    Ledger.deposit_zero] at hpaid

theorem executeTransaction_onlyFees [OnArena host] {fuel : ℕ} {evm evm' : Evm}
    {cumulativeGas : UInt64} {receipt : ExecReceipt} (hws : WellFormed host ws)
    (hvalid : blockExecutorValidateTx host exec ws btx cumulativeGas = .valid)
    (hrun : executeTransaction host exec fuel evm ws btx cumulativeGas =
      some (some receipt, ws', evm'))
    (hfailed : receipt.success = false) (hcalm : CalmTx host exec evm ws btx) :
    OnlyFees host exec btx ws ws' := by
  have hpasses := (blockExecutorValidateTx_valid_iff ..).mp hvalid
  obtain ⟨params, ws₁, l₁, hlaunched⟩ := launched_of_passes hws.shows hpasses
  obtain ⟨hstores, hshows⟩ := hcalm.charged hws hlaunched.params
  rw [hlaunched.execute, Option.map_eq_some_iff] at hrun
  obtain ⟨⟨result, evm₂⟩, hexec, hsettled⟩ := hrun
  cases hsettled
  have hsteps := hcalm.steps _ (by rw [launch, hlaunched.params]; rfl)
  have huntouched := evmExecuteEnv_untouched hsteps hexec
  have hstate := huntouched.state
  rw [Option.map_some, Option.map_eq_some_iff] at hstate
  obtain ⟨ws₂, hws₂, hcool⟩ := hstate
  have hshows₂ : Shows host ws₂ _ := hshows.congr (congrArg World.stateTrie hcool :)
  obtain ⟨hgas, hkept⟩ := handleResult_failed hfailed
  rw [hws₂, Option.getD_some] at hgas hkept ⊢
  rw [hgas, hkept]
  have hsame : SameStores ws (payOut host exec ws₂ btx (transactionGasLimit btx.tx)).2 :=
    (hstores.trans (sameStores_of_cool hcool)).trans (sameStores_payOut _)
  refine ⟨(shows_payOut_all hshows₂).ledger_eq, fun addr => ?_, fun addr slot => ?_⟩
  · rw [wsGetCode, hsame.code, wsGetCode]
  · rw [wsGetStorage, hsame.storage, wsGetStorage]

end Transactions

/-- A failed call whose steps, from the call instruction on, are calm changes nothing; a failed
transaction without value and creation whose steps are calm changes what the fees change. -/
theorem calm_rollback (host : Host) [OnArena host] :
    (∀ m m₁ m₂ m₃, FailedCall host m m₁ m₂ m₃ → Calm m →
      (∀ k, Inside host m₁ k → Calm k) →
      Unchanged host m.active.evm m₃.active.evm) ∧
    ∀ exec fuel evm evm' ws ws' btx cumulativeGas receipt, WellFormed host ws →
      blockExecutorValidateTx host exec ws btx cumulativeGas = .valid →
      executeTransaction host exec fuel evm ws btx cumulativeGas =
        some (some receipt, ws', evm') →
      receipt.success = false → CalmTx host exec evm ws btx →
      OnlyFees host exec btx ws ws' := by
  constructor
  · intro m m₁ m₂ m₃ hcall hentry hcalm
    exact (hcall.untouched hentry hcalm).unchanged
  · intro exec fuel evm evm' ws ws' btx cumulativeGas receipt hws hvalid hrun hfailed hcalm
    exact executeTransaction_onlyFees hws hvalid hrun hfailed hcalm

section Example

def revertingWorld : World :=
  wsSetCode paddedHost
    (wsSetBalance paddedHost worldStateCreate (lowAddress 2) (uint256FromU64 100))
    (lowAddress 3) [0x5f, 0x5f, 0xfd]

def revertingStart : Machine :=
  start { evmInit .cancun with state := some revertingWorld } (payment 100000)

def payingAt (n : ℕ) : Machine := stepped n revertingStart
def revertingAt (n : ℕ) : Machine := stepped n (payingAt 8)

def payeeBalance (evm : Evm) : Option Word :=
  evm.state.map fun ws => wsGetBalance paddedHost ws (lowAddress 3)

def callFails (host : Host) (m₀ : Machine) (n k : ℕ) : Bool :=
  let run (j : ℕ) := advance (step host) j m₀
  let child (j : ℕ) := advance (step host) j (advance (step host) (n + 1) m₀)
  (step host (run n)).isRunning && (run (n + 1)).parents.length == (run n).parents.length + 1 &&
    decide (∀ j ≤ k, (run (n + 1)).parents.length ≤ (child j).parents.length) &&
    (ending host (child k).active).map resultWord == some uint256Zero &&
    (step host (child k)).isRunning &&
    (child (k + 1)).parents.length == (run n).parents.length

theorem failedCall_of_callFails {m₀ : Machine} {n k : ℕ}
    (h : callFails host m₀ n k = true) :
    FailedCall host (advance (step host) n m₀) (advance (step host) (n + 1) m₀)
      (advance (step host) k (advance (step host) (n + 1) m₀))
      (advance (step host) (k + 1) (advance (step host) (n + 1) m₀)) := by
  simp only [callFails, Bool.and_eq_true, beq_iff_eq, decide_eq_true_eq] at h
  obtain ⟨⟨⟨⟨⟨hentry, hdeeper⟩, hinside⟩, hfailed⟩, hback⟩, hlevel⟩ := h
  exact ⟨step_advance hentry, hdeeper, reachesIn_advance hinside, hfailed, step_advance hback,
    hlevel⟩

/-- The value of the call stays with the child that has reverted. -/
theorem failedCall_not_unchanged :
    FailedCall paddedHost (payingAt 7) (payingAt 8) (revertingAt 2) (revertingAt 3) ∧
      ¬Unchanged paddedHost (payingAt 7).active.evm (revertingAt 3).active.evm := by
  have hruns : callFails paddedHost revertingStart 7 2 = true ∧
      payeeBalance (payingAt 7).active.evm = some uint256Zero ∧
      payeeBalance (revertingAt 3).active.evm = some (uint256FromU64 7) := by decide +kernel
  obtain ⟨hcall, hbefore, hafter⟩ := hruns
  refine ⟨failedCall_of_callFails hcall, fun hsame => ?_⟩
  rw [payeeBalance, Option.map_eq_some_iff] at hbefore
  obtain ⟨ws, hws, hzero⟩ := hbefore
  obtain ⟨ws', hws', haccounts⟩ := hsame.accounts ws hws
  rw [payeeBalance, hws', Option.map_some, haccounts.balance, hzero] at hafter
  exact absurd hafter (by decide)

def invalidWorld : World :=
  wsSetCode paddedHost
    (wsAddBalance paddedHost worldStateCreate (lowAddress 1) (uint256FromU64 1000000)).2
    (lowAddress 3) [0xfe]

def invalidTx : BlockTx :=
  ⟨.legacy ⟨0, uint256FromU64 3, 30000, some (lowAddress 3), uint256Zero, [], 27, uint256Zero,
    uint256Zero⟩, lowAddress 1, true, 0⟩

/-- A transaction that ends with its first instruction. -/
theorem calmTx_of_stop {exec : BlockExecutor} {evm : Evm} {ws : World}
    {btx : BlockTx} (hvalue : uint256IsZero (transactionValue btx.tx) = true)
    (hcall : transactionIsCreate btx.tx = false)
    (hshort : ∀ m₀ ∈ launch host exec evm ws btx, (step host m₀).isRunning = false ∧ Calm m₀) :
    CalmTx host exec evm ws btx where
  value := hvalue
  call := hcall
  steps := by
    intro m₀ hm₀ m hreach
    obtain ⟨hstop, hcalm⟩ := hshort m₀ hm₀
    refine reaches_forall (P := Calm) (n := 0) hstop (fun k hk => ?_) hreach
    rw [Nat.le_zero.mp hk]
    exact hcalm

/-- A STATICCALL that fails when it writes, and a transaction that fails at once. -/
theorem calm_rollback_probe :
    Unchanged paddedHost (stepped 6 probeStart).active.evm
        (stepped 3 probeChild).active.evm ∧
      ∃ receipt ws' evm', executeTransaction paddedHost plainExecutor 10 (evmInit .cancun)
          invalidWorld invalidTx 0 = some (some receipt, ws', evm') ∧ receipt.success = false ∧
        OnlyFees paddedHost plainExecutor invalidTx invalidWorld ws' := by
  obtain ⟨hcalls, htxs⟩ := calm_rollback paddedHost
  have hruns : (callFails paddedHost probeStart 6 2 = true ∧
        Calm (stepped 6 probeStart) ∧
        (step paddedHost (stepped 3 probeChild)).isRunning =
          false ∧
        ∀ k ≤ 3, Calm (stepped k probeChild)) ∧
      (executeTransaction paddedHost plainExecutor 10 (evmInit .cancun) invalidWorld
        invalidTx 0).map (fun out => out.1.map (·.success)) = some (some false) ∧
      blockExecutorValidateTx paddedHost plainExecutor invalidWorld invalidTx 0 = .valid ∧
      ∀ m₀ ∈ launch paddedHost plainExecutor (evmInit .cancun) invalidWorld invalidTx,
        (step paddedHost m₀).isRunning = false ∧ Calm m₀ := by decide +kernel
  obtain ⟨⟨hcall, hentry, hstop, hcalm⟩, hdone, hvalid, hshort⟩ := hruns
  constructor
  · refine hcalls _ probeChild _ _ (failedCall_of_callFails hcall) hentry fun k hinside => ?_
    exact reaches_forall (P := Calm) (n := 3) hstop hcalm hinside.reaches
  · rw [Option.map_eq_some_iff] at hdone
    obtain ⟨⟨out, ws', evm'⟩, hrun, hout⟩ := hdone
    rw [Option.map_eq_some_iff] at hout
    obtain ⟨receipt, rfl, hfailed⟩ := hout
    have hws : WellFormed paddedHost invalidWorld :=
      (((wellFormed_create _).shows.addBalance _ _).setCode _
        _).wellFormed
    exact ⟨receipt, ws', evm', hrun, hfailed,
      htxs _ _ _ _ _ _ _ _ _ hws hvalid hrun hfailed (calmTx_of_stop rfl rfl hshort)⟩

end Example

end Div0.Rollback
