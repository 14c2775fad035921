import Div0.GasCharges
import Div0.WorldCalls

/-!
The nonce of a created contract. The value of a creation is credited before the account
of the contract is made. The credit makes an account with nonce zero, and then
`ws_create_contract` finds it and leaves it alone; so the contract has nonce one exactly
when the creation sends no value.
-/

namespace Div0.ContractCreation

open Node Uint256 Transaction EvmContext WorldState WorldLedger Ledgers Frame Interpreter Validation
open Executor RunEffects ExecutorEffects GasConservation WorldCalls

variable {host : Host} {exec : BlockExecutor} {ws : World} {btx : BlockTx}

section Absence

variable [OnArena host]

/-- A call that writes to one account leaves the keys of others alone. -/
theorem accountAt_applyOp_of_ne (h : WellFormed host ws) (op : WorldOp) {addr : Address}
    (hchange : changeOf host ws op = .nothing ∨
      ∃ acc, changeOf host ws op = .account addr acc none) {key : Hash}
    (hkey : key ≠ addressToKey host addr) :
    accountAt host (applyOp host ws op) key = accountAt host ws key := by
  rw [WorldStores.accountAt_congr (applyOp_sameRecords host ws op).stateTrie]
  rcases hchange with hnone | ⟨acc, hacc⟩
  · rw [hnone, applyChange]
  · rw [hacc, applyChange, withCode, (worldStateSetAccount_spec h addr acc).2,
      Function.update_of_ne hkey]

theorem accountAt_subBalance_of_ne (h : WellFormed host ws) (addr : Address) (amount : Word)
    {key : Hash} (hkey : key ≠ addressToKey host addr) :
    accountAt host (wsSubBalance host ws addr amount).2 key = accountAt host ws key := by
  refine accountAt_applyOp_of_ne h (.subBalance addr amount) ?_ hkey
  simp only [changeOf]
  cases worldStateGetAccount host ws addr with
  | none => exact Or.inl rfl
  | some acc =>
    dsimp only
    split
    · exact Or.inl rfl
    · exact Or.inr ⟨_, rfl⟩

theorem accountAt_incrementNonce_of_ne (h : WellFormed host ws) (addr : Address) {key : Hash}
    (hkey : key ≠ addressToKey host addr) :
    accountAt host (wsIncrementNonce host ws addr).2 key = accountAt host ws key := by
  refine accountAt_applyOp_of_ne h (.incrementNonce addr) ?_ hkey
  simp only [changeOf]
  split
  · exact Or.inl rfl
  · exact Or.inr ⟨_, rfl⟩

end Absence

/-- Opening a transaction writes to the sender's account only. -/
theorem stateTrie_openTransaction (host : Host) (ws : World) (btx : BlockTx) (contract : Address) :
    (openTransaction host ws btx contract).stateTrie =
      (wsIncrementNonce host ws btx.sender).2.stateTrie := by
  have hwarm : ∀ (ws : World) (addr : Address),
      (wsWarmAddress host ws addr).2.stateTrie = ws.stateTrie :=
    fun ws addr => (applyOp_sameRecords host ws (.warmAddress addr)).stateTrie
  have hslot : ∀ (ws : World) (addr : Address) (keys : List Word),
      (keys.foldl (fun ws key => (wsWarmSlot host ws addr key).2) ws).stateTrie = ws.stateTrie := by
    intro ws addr keys
    induction keys generalizing ws with
    | nil => rfl
    | cons key rest ih =>
      exact (ih _).trans (applyOp_sameRecords host ws (.warmSlot addr key)).stateTrie
  have hlist : ∀ (ws : World) (list : Option AccessList),
      (warmAccessList host ws list).stateTrie = ws.stateTrie := by
    intro ws list
    cases list with
    | none => rfl
    | some list =>
      unfold warmAccessList
      induction list generalizing ws with
      | nil => rfl
      | cons entry rest ih => exact (ih _).trans ((hslot _ _ _).trans (hwarm _ _))
  unfold openTransaction
  refine (hlist _ _).trans ?_
  split
  · exact (hwarm _ _).trans (hwarm _ _)
  · split
    · exact (hwarm _ _).trans (hwarm _ _)
    · exact hwarm _ _

def openedWorld (host : Host) (exec : BlockExecutor) (ws : World) (btx : BlockTx) : World :=
  openTransaction host (deductGas host exec ws btx).2 btx (createdContract host exec ws btx)

/-- What a creation that sends its value works on. -/
theorem transferred_create (hcreate : transactionIsCreate btx.tx = true)
    (hsent : (transferred host exec ws btx).1 = true) :
    (transferred host exec ws btx).2 =
      if uint256IsZero (transactionValue btx.tx) then openedWorld host exec ws btx
      else (wsAddBalance host
        (wsSubBalance host (openedWorld host exec ws btx) btx.sender (transactionValue btx.tx)).2
        (createdContract host exec ws btx) (transactionValue btx.tx)).2 := by
  have hrecipient : ∀ contract, valueRecipient btx contract = contract :=
    fun contract => if_pos hcreate
  have heq : transferred host exec ws btx = sendTxValue host (openedWorld host exec ws btx) btx
      (createdContract host exec ws btx) := rfl
  rw [heq] at hsent ⊢
  unfold sendTxValue at hsent ⊢
  dsimp only at hsent ⊢
  split
  · rfl
  · next hvalue =>
    rw [if_neg hvalue] at hsent
    rcases hsub : wsSubBalance host (openedWorld host exec ws btx) btx.sender
      (transactionValue btx.tx) with ⟨paid, ws'⟩
    rw [hsub] at hsent
    cases paid with
    | false => cases hsent
    | true => rw [hrecipient]

variable {contract : Address}

/-- A sender without an account has nothing to send. -/
theorem key_ne_sender {cumulativeGas : UInt64} (hws : WellFormed host ws)
    (hpasses : Passes host exec ws btx cumulativeGas)
    (habsent : accountAt host ws (addressToKey host contract) = none)
    (hvalue : (transactionValue btx.tx).toNat ≠ 0) :
    addressToKey host contract ≠ addressToKey host btx.sender := by
  intro hsame
  have hbalance := hpasses.balance
  rw [wsGetBalance_eq, hws.shows.balance_eq, ← hsame, ledger_balance, habsent, Option.map_none,
    Option.getD_none] at hbalance
  omega

section Nonce

variable [OnArena host] {l : Ledger Hash} {cumulativeGas : UInt64}

/-- A contract that does not exist before the transaction does not exist when its value is
sent, unless it shares the key of the sender. -/
theorem absent_opened (hws : WellFormed host ws) (contract : Address)
    (hne : addressToKey host contract ≠ addressToKey host btx.sender)
    (habsent : accountAt host ws (addressToKey host contract) = none) :
    accountAt host (openTransaction host (deductGas host exec ws btx).2 btx contract)
      (addressToKey host contract) = none := by
  have hpaid : WellFormed host (deductGas host exec ws btx).2 :=
    (hws.shows.subBalance btx.sender (maxGasCost exec btx.tx)).2.wellFormed
  rw [WorldStores.accountAt_congr (stateTrie_openTransaction host _ btx contract),
    accountAt_incrementNonce_of_ne hpaid _ hne, deductGas,
    accountAt_subBalance_of_ne hws _ _ hne, habsent]

/-- Without value, the account that is made has nonce one. -/
theorem nonce_create_absent (hshows : Shows host ws l)
    (habsent : accountAt host ws (addressToKey host contract) = none) :
    Shows host (wsCreateContract host ws contract) (l.sign (addressToKey host contract) 1) := by
  have hexists : wsAccountExists host ws contract = false := by
    rw [wsAccountExists_eq hshows.wellFormed, habsent, Option.isSome_none]
  have hbalance := hshows.balance_eq contract
  rw [accountOrEmpty, worldStateGetAccount_eq, habsent, Option.getD_none] at hbalance
  rw [wsCreateContract, hexists]
  exact hshows.setNonce contract hbalance 1

/-- The credit of a value makes an account, which then is left alone. -/
theorem nonce_create_credited (hshows : Shows host ws l) {value : Word}
    (habsent : accountAt host ws (addressToKey host contract) = none) (hvalue : value.toNat ≠ 0) :
    wsCreateContract host (wsAddBalance host ws contract value).2 contract =
      (wsAddBalance host ws contract value).2 := by
  have hcredited := hshows.addBalance contract value
  have hzero : l.balance (addressToKey host contract) = 0 := by
    rw [← hshows.balance_eq contract, accountOrEmpty, worldStateGetAccount_eq, habsent]
    rfl
  have hbalance := hcredited.balance_eq contract
  rw [Ledger.deposit, if_pos (by rw [hzero, Nat.zero_add]; exact value.toNat_lt)] at hbalance
  have hexists : wsAccountExists host (wsAddBalance host ws contract value).2 contract = true := by
    rw [wsAccountExists_eq hcredited.wellFormed]
    by_contra hnone
    rw [Bool.not_eq_true, Option.isSome_eq_false_iff, Option.isNone_iff_eq_none] at hnone
    rw [accountOrEmpty, worldStateGetAccount_eq, hnone, Option.getD_none] at hbalance
    simp only [Ledger.credit, Function.update_self, hzero, Nat.zero_add] at hbalance
    exact hvalue hbalance.symm
  rw [wsCreateContract, hexists, if_pos rfl]

theorem shows_openedWorld (exec : BlockExecutor) (btx : BlockTx) (hshows : Shows host ws l) :
    ∃ balance, Shows host (openedWorld host exec ws btx) ⟨balance, Function.update l.nonce
      (addressToKey host btx.sender) (nextNonce (l.nonce (addressToKey host btx.sender)))⟩ := by
  have hdebited := (hshows.subBalance btx.sender (maxGasCost exec btx.tx)).2
  have hopened := shows_openTransaction hdebited btx (createdContract host exec ws btx)
  rw [Ledger.withdraw_nonce, Ledger.sign, Ledger.withdraw_nonce] at hopened
  exact ⟨_, hopened⟩

/-- The nonce of the contract when its init code is executed. -/
theorem nonce_launched (hws : WellFormed host ws)
    (hpasses : Passes host exec ws btx cumulativeGas) (hcreate : transactionIsCreate btx.tx = true)
    (habsent : accountAt host ws (addressToKey host (createdContract host exec ws btx)) = none)
    {call : CallParams} {ws₁ : World} {l₁ : Ledger Hash}
    (hlaunched : Launched host exec btx ws (ledger host ws) call ws₁ l₁) :
    l₁.nonce (addressToKey host (createdContract host exec ws btx)) =
      if uint256IsZero (transactionValue btx.tx) then 1 else 0 := by
  obtain ⟨balance, hopened⟩ := shows_openedWorld exec btx hws.shows
  have hnone : (ledger host ws).nonce
      (addressToKey host (createdContract host exec ws btx)) = 0 := by
    rw [ledger_nonce, habsent]
    rfl
  have hmade : wsCreateContract host (transferred host exec ws btx).2
      (createdContract host exec ws btx) = ws₁ := by
    have hparams := hlaunched.params
    rw [callParams, if_pos hcreate] at hparams
    exact congrArg Prod.snd (Option.some.inj hparams)
  rw [transferred_create hcreate hlaunched.sent] at hmade
  rw [← hlaunched.shows.ledger_eq, ← hmade]
  by_cases hzero : uint256IsZero (transactionValue btx.tx) = true
  · rw [if_pos hzero, if_pos hzero]
    by_cases hsame : addressToKey host (createdContract host exec ws btx) =
        addressToKey host btx.sender
    · -- the sender creates itself: it has just been counted
      obtain ⟨nonce, -, heq, hcreated⟩ :=
        hopened.createContract (createdContract host exec ws btx)
      have hone : Function.update (ledger host ws).nonce (addressToKey host btx.sender)
          (nextNonce ((ledger host ws).nonce (addressToKey host btx.sender)))
          (addressToKey host (createdContract host exec ws btx)) = 1 := by
        rw [hsame, Function.update_self, ← hsame, hnone]
        rfl
      dsimp only at heq
      rw [hone] at heq
      rw [hcreated.ledger_eq, Ledger.sign_nonce_self, heq Nat.one_pos]
    · rw [(nonce_create_absent hopened (absent_opened hws _ hsame habsent)).ledger_eq,
        Ledger.sign_nonce_self]
  · have hvalue : (transactionValue btx.tx).toNat ≠ 0 := fun h => hzero ((isZero_iff _).mpr h)
    have hne := key_ne_sender hws hpasses habsent hvalue
    have hsent := (hopened.subBalance btx.sender (transactionValue btx.tx)).2
    have hstill : accountAt host (wsSubBalance host (openedWorld host exec ws btx) btx.sender
        (transactionValue btx.tx)).2 (addressToKey host (createdContract host exec ws btx)) =
        none := by
      rw [accountAt_subBalance_of_ne hopened.wellFormed _ _ hne]
      exact absent_opened hws _ hne habsent
    rw [if_neg hzero, if_neg hzero, nonce_create_credited hsent hstill hvalue,
      (hsent.addBalance _ _).ledger_eq, Ledger.deposit_nonce, Ledger.withdraw_nonce]
    exact (Function.update_of_ne hne ..).trans hnone

/-- Nothing after that touches a nonce. -/
theorem nonce_created (hws : WellFormed host ws) (hpasses : Passes host exec ws btx cumulativeGas)
    (hcreate : transactionIsCreate btx.tx = true)
    (habsent : accountAt host ws (addressToKey host (createdContract host exec ws btx)) = none)
    {fuel : ℕ} {evm evm' : Evm} {out : Option ExecReceipt} {ws' : World}
    (hrun : executeTransaction host exec fuel evm ws btx cumulativeGas = some (out, ws', evm')) :
    ∃ l', Shows host ws' l' ∧ l'.nonce (addressToKey host (createdContract host exec ws btx)) =
      if uint256IsZero (transactionValue btx.tx) then 1 else 0 := by
  obtain ⟨call, ws₁, l₁, hlaunched⟩ := launched_of_passes hws.shows hpasses
  have hnonce := nonce_launched hws hpasses hcreate habsent hlaunched
  rw [hlaunched.execute, Option.map_eq_some_iff] at hrun
  obtain ⟨⟨result, evm₂⟩, hexec, hsettled⟩ := hrun
  cases hsettled
  have hreports := evmExecuteEnv_reports ⟨ws₁, rfl, hlaunched.shows⟩ hexec
  obtain ⟨l₂, ⟨ws₂, hws₂, hl₂⟩, hmoved⟩ := hreports.ledger
  have hhandled := shows_handleResult hl₂ btx (createdContract host exec ws btx) result
    (emptyReceipt host btx.tx)
  rw [hws₂, Option.getD_some]
  refine ⟨_, shows_payOut hhandled exec btx _, ?_⟩
  rw [Ledger.deposit_nonce, Ledger.deposit_nonce, hmoved.nonce, hnonce]

/-- The account at the address of a contract that has been created successfully exists and
has nonce one exactly when the creation sent no value. -/
theorem created_nonce_one_iff (host : Host) [OnArena host] (exec : BlockExecutor) (fuel : ℕ)
    (evm : Evm) (ws : World) (btx : BlockTx) (cumulativeGas : UInt64) (receipt : ExecReceipt)
    (ws' : World) (evm' : Evm) (hws : WellFormed host ws)
    (hcreate : transactionIsCreate btx.tx = true)
    (habsent : wsAccountExists host ws (createdContract host exec ws btx) = false)
    (hvalid : blockExecutorValidateTx host exec ws btx cumulativeGas = .valid)
    (hrun : executeTransaction host exec fuel evm ws btx cumulativeGas =
      some (some receipt, ws', evm'))
    (_hsuccess : receipt.success = true) :
    (wsAccountExists host ws' (createdContract host exec ws btx) = true ∧
      wsGetNonce host ws' (createdContract host exec ws btx) = 1) ↔
    uint256IsZero (transactionValue btx.tx) = true := by
  have hpasses := (blockExecutorValidateTx_valid_iff ..).mp hvalid
  rw [wsAccountExists_eq hws, Option.isSome_eq_false_iff, Option.isNone_iff_eq_none] at habsent
  obtain ⟨l', hshows, hnonce⟩ := nonce_created hws hpasses hcreate habsent hrun
  rw [← hshows.nonce_eq, ← wsGetNonce_eq] at hnonce
  constructor
  · rintro ⟨-, hone⟩
    by_contra hvalue
    rw [hone, if_neg hvalue] at hnonce
    cases hnonce
  · intro hzero
    rw [if_pos hzero] at hnonce
    have hone := UInt64.toNat_inj.mp (hnonce.trans UInt64.toNat_one.symm)
    refine ⟨?_, hone⟩
    rw [wsAccountExists_eq hshows.wellFormed]
    by_contra hnone
    rw [Bool.not_eq_true, Option.isSome_eq_false_iff, Option.isNone_iff_eq_none] at hnone
    rw [wsGetNonce_eq, accountOrEmpty, worldStateGetAccount_eq, hnone, Option.getD_none] at hone
    cases hone

end Nonce

section Runs

def creatorWorld : World :=
  (wsAddBalance paddedHost worldStateCreate (lowAddress 1) (uint256FromU64 1000000)).2

def creationTx (value : Word) : BlockTx :=
  ⟨.legacy ⟨0, uint256FromU64 3, 60000, none, value, [], 27, uint256Zero, uint256Zero⟩,
    lowAddress 1, true, 0⟩

theorem wellFormed_creatorWorld : WellFormed paddedHost creatorWorld :=
  ((wellFormed_create _).shows.addBalance _ _).wellFormed

def creationRun (value : Word) : Option (Option ExecReceipt × World × Evm) :=
  executeTransaction paddedHost plainExecutor 100 (evmInit .cancun) creatorWorld
    (creationTx value) 0

def creationAddress (value : Word) : Address :=
  createdContract paddedHost plainExecutor creatorWorld (creationTx value)

/-- Both creations are accepted and succeed, and make an account where there was none. -/
theorem creationRun_runs (value : Word) (h : value = uint256Zero ∨ value = uint256FromU64 5) :
    wsAccountExists paddedHost creatorWorld (creationAddress value) = false ∧
    blockExecutorValidateTx paddedHost plainExecutor creatorWorld
      (creationTx value) 0 = .valid ∧
    (creationRun value).map (fun out => (out.1.map (·.success),
      wsAccountExists paddedHost out.2.1 (creationAddress value),
      wsGetNonce paddedHost out.2.1 (creationAddress value))) =
    some (some true, true, if uint256IsZero value then 1 else 0) := by
  rcases h with rfl | rfl <;> decide +kernel

/-- A creation that sends nothing. -/
theorem created_nonce_one_iff_free :
    ∃ receipt ws' evm', creationRun uint256Zero = some (some receipt, ws', evm') ∧
      receipt.success = true ∧
      wsAccountExists paddedHost ws' (creationAddress uint256Zero) = true ∧
      wsGetNonce paddedHost ws' (creationAddress uint256Zero) = 1 := by
  obtain ⟨habsent, hvalid, hdone⟩ := creationRun_runs uint256Zero (Or.inl rfl)
  obtain ⟨⟨out, ws', evm'⟩, hrun, hout⟩ := Option.map_eq_some_iff.mp hdone
  obtain ⟨receipt, rfl, hsuccess⟩ := Option.map_eq_some_iff.mp (Prod.mk.inj hout).1
  have hiff := created_nonce_one_iff paddedHost plainExecutor 100 _ _ _ 0 receipt ws' evm'
    wellFormed_creatorWorld rfl habsent hvalid hrun hsuccess
  exact ⟨receipt, ws', evm', hrun, hsuccess, hiff.mpr rfl⟩

/-- A creation that sends five wei succeeds, and its contract has nonce zero. -/
theorem created_nonce_zero :
    wsAccountExists paddedHost creatorWorld (creationAddress (uint256FromU64 5)) = false ∧
    blockExecutorValidateTx paddedHost plainExecutor creatorWorld
      (creationTx (uint256FromU64 5)) 0 = .valid ∧
    (creationRun (uint256FromU64 5)).map (fun out => (out.1.map (·.success),
      wsAccountExists paddedHost out.2.1 (creationAddress (uint256FromU64 5)),
      wsGetNonce paddedHost out.2.1 (creationAddress (uint256FromU64 5)))) =
    some (some true, true, 0) :=
  creationRun_runs _ (Or.inr rfl)

end Runs

end Div0.ContractCreation
