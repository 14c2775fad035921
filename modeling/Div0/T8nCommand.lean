import Div0.AllocJson
import Div0.BlockRuns
import Div0.RootHistory
import Div0.StorageRoots
import Div0.TxRecovery

/-!
The command `t8n` between its inputs and its outputs: it builds the pre-state, executes the
block and pays the block reward; then the allocation is exported. The state root of its
result is the one that the executor has computed, in front of the reward.
-/

namespace Div0.T8nCommand

open Node Mpt Uint256 EvmContext Transaction TxRecovery Accounts AllocJson RlpFormat WorldState
open WorldLedger WorldCalls TrieBinding Frame Interpreter OpEffects GasConservation Validation
open Executor BlockRuns RootHistory
open TrieMap (markedHash)

/-- The fields of `t8n_env_t` that the execution depends on. -/
structure T8nEnv where
  coinbase : Address
  gasLimit : UInt64
  number : UInt64
  timestamp : UInt64
  baseFee : Option Word
  prevRandao : Option Word
  blockHashes : List (UInt64 × Hash)

/-- The fields of `t8n_options_t` that the execution depends on. -/
structure T8nOptions where
  fork : Fork
  chainId : Int32
  reward : Int64

/-- `get_block_hash_cb`: the first entry with the number. -/
def getBlockHashCb (hashes : List (UInt64 × Hash)) (number : UInt64) : Option Hash :=
  hashes.lookup number

def restoreOps (acc : AccountSnapshot) : List WorldOp :=
  .setBalance acc.address acc.balance ::
    ((if 0 < acc.nonce then [.setNonce acc.address acc.nonce] else []) ++
      (if 0 < acc.code.length then [.setCode acc.address acc.code] else []) ++
      acc.storage.map fun entry => .setStorage acc.address entry.slot entry.value)

section Command

variable (host : Host)

def buildStateFromSnapshot (ws : World) (snapshot : StateSnapshot) : World :=
  runOps host ws (snapshot.flatMap restoreOps)

def blockContext (opts : T8nOptions) (env : T8nEnv) : BlockContext :=
  { blockContextInit with
    number := env.number
    timestamp := env.timestamp
    gasLimit := env.gasLimit
    chainId := opts.chainId.toInt64.toUInt64
    coinbase := env.coinbase
    baseFee := env.baseFee.getD blockContextInit.baseFee
    prevRandao := env.prevRandao.getD blockContextInit.prevRandao
    getBlockHash := some (getBlockHashCb env.blockHashes) }

def recoverSenders (lib : Library) (txs : List Tx) : List BlockTx :=
  txs.mapIdx fun i tx =>
    match transactionRecoverSender host.alloc host.keccak256 lib tx with
    | some sender => ⟨tx, sender, true, i⟩
    | none => ⟨tx, addressZero, false, i⟩

/-- The block reward; a negative one is disabled. -/
def applyReward (ws : World) (coinbase : Address) (reward : Int64) : World :=
  if 0 ≤ reward then
    wsSetBalance host ws coinbase
      (uint256Add (wsGetBalance host ws coinbase) (uint256FromU64 reward.toUInt64))
  else ws

def blockTxSize : ℕ := 40

/-- The result of the block with the state root that is reported, the state after the execution,
and the state from which the allocation is exported. -/
structure T8nRun where
  result : BlockExecResult
  executed : World
  exported : World

/-- `cmd_t8n` from its parsed inputs on. An array of transactions that the arena refuses is
written to nevertheless; that, and a failure of the executor, is `none`. -/
def cmdT8n (lib : Library) (fuel : ℕ) (opts : T8nOptions) (preState : StateSnapshot) (env : T8nEnv)
    (txs : List Tx) : Option T8nRun :=
  if txs.length = 0 ∨ host.alloc (txs.length * blockTxSize) then
    match blockExecutorRun host fuel ⟨blockContext opts env, opts.chainId.toInt64.toUInt64, false⟩
        (evmInit opts.fork) (buildStateFromSnapshot host worldStateCreate preState)
        (recoverSenders host lib txs) with
    | some (true, result, ws, _) =>
      some ⟨result, ws, applyReward host ws env.coinbase opts.reward⟩
    | _ => none
  else none

end Command

section Steps

variable {host : Host} {ws : World}

/-- Where no storage has changed, the root is that of the state trie. -/
theorem worldStateRoot_clean (h : ws.dirtyStorage = []) :
    (worldStateRoot host ws).1 = (mptRootHash host ws.stateTrie).1 := by
  unfold worldStateRoot
  rw [h]
  rfl

theorem setAccount_dirty (addr : Address) (acc : Account) :
    (worldStateSetAccount host ws addr acc).2.dirtyStorage = ws.dirtyStorage := by
  unfold worldStateSetAccount
  split
  · rfl
  · dsimp only
    split <;> rfl

variable [OnArena host]

theorem wellFormed_build (h : WellFormed host ws) (snapshot : StateSnapshot) :
    WellFormed host (buildStateFromSnapshot host ws snapshot) := by
  refine List.foldlRecOn _ _ h fun ws h op hop => ?_
  obtain ⟨acc, -, hop⟩ := List.mem_flatMap.mp hop
  simp only [restoreOps, List.mem_cons, List.mem_append, List.mem_ite_nil_right, List.mem_map,
    List.not_mem_nil, or_false] at hop
  rcases hop with rfl | (⟨-, rfl⟩ | ⟨-, rfl⟩) | ⟨entry, -, rfl⟩
  · exact (worldStateSetAccount_spec h _ _).1
  · exact (worldStateSetAccount_spec h _ _).1
  · exact (h.shows.setCode _ _).wellFormed
  · exact (h.shows.setStorage _ _ _).wellFormed

/-- The balance of the coinbase is written back as it was. -/
theorem accountAt_sameBalance (h : WellFormed host ws) (addr : Address) :
    accountAt host (wsSetBalance host ws addr (wsGetBalance host ws addr)) =
      accountAt host ws := by
  have hsame : ({ accountOrEmpty host ws addr with balance := wsGetBalance host ws addr } :
      Account) = accountOrEmpty host ws addr := by
    rw [wsGetBalance_eq]
  unfold wsSetBalance
  rw [hsame, (worldStateSetAccount_spec h addr _).2, Function.update_eq_self_iff,
    accountOrEmpty, worldStateGetAccount_eq]
  cases hacc : accountAt host ws (addressToKey host addr) with
  | none => rfl
  | some acc =>
    rw [Option.getD_some, (h.get _).2 acc hacc]
    rfl

/-- The coinbase has the balance it had only if the reward is zero. -/
theorem reward_eq_zero (h : WellFormed host ws) (coinbase : Address) {reward : Int64}
    (hsame : accountAt host (wsSetBalance host ws coinbase
        (uint256Add (wsGetBalance host ws coinbase) (uint256FromU64 reward.toUInt64)))
          (addressToKey host coinbase) = accountAt host ws (addressToKey host coinbase)) :
    reward = 0 := by
  have hbefore := h.shows.balance_eq coinbase
  have hafter := (h.shows.setBalance coinbase (h.shows.nonce_eq coinbase) (uint256Add
    (wsGetBalance host ws coinbase) (uint256FromU64 reward.toUInt64))).ledger_eq
  have hbalance := congrFun (congrArg Ledgers.Ledger.balance hafter) (addressToKey host coinbase)
  rw [ledger_balance, ← hsame] at hbefore
  have hvalue := (hbefore.trans hbalance).trans (Function.update_self ..)
  rw [wsGetBalance_eq, toNat_add, toNat_fromU64] at hvalue
  have hword := (accountOrEmpty host ws coinbase).balance.toNat_lt
  have hreward := reward.toUInt64.toNat_lt
  have hzero : reward.toUInt64.toNat = 0 := by omega
  exact congrArg Int64.ofUInt64 (UInt64.toNat_inj.mp hzero)

/-- A reward of zero leaves the root alone, a positive one changes it. -/
theorem root_applyReward_iff (hempty : host.keccak256 [0x80] = mptEmptyRoot)
    (h : WellFormed host ws) (hclean : ws.dirtyStorage = []) (coinbase : Address) (reward : Int64)
    (hcollision : ¬Collision host.keccak256 ([0x80] :: (hashedEncodings host ws.stateTrie ++
      hashedEncodings host (applyReward host ws coinbase reward).stateTrie))) :
    (mptRootHash host ws.stateTrie).1 =
      (worldStateRoot host (applyReward host ws coinbase reward)).1 ↔ reward ≤ 0 := by
  unfold applyReward at hcollision ⊢
  by_cases henabled : 0 ≤ reward
  · rw [if_pos henabled] at hcollision ⊢
    have hclean' : (wsSetBalance host ws coinbase (uint256Add (wsGetBalance host ws coinbase)
        (uint256FromU64 reward.toUInt64))).dirtyStorage = [] :=
      (setAccount_dirty _ _).trans hclean
    rw [worldStateRoot_clean hclean']
    have hholds := holds_accounts h
    have hholds' := holds_accounts (worldStateSetAccount_spec h coinbase
      { accountOrEmpty host ws coinbase with
        balance := uint256Add (wsGetBalance host ws coinbase) (uint256FromU64 reward.toUInt64) }).1
    constructor
    · intro hroot
      have hbytes := (hholds.binding entryFits_account hholds' entryFits_account hempty
        (fun _ => encodeList_ne_nil _) (fun _ => encodeList_ne_nil _) hroot).resolve_right hcollision
        (addressToKey host coinbase)
      have hsame := Option.map_injective accountBytes_injective hbytes
      exact Int64.le_of_eq (reward_eq_zero h coinbase hsame.symm)
    · intro hdisabled
      obtain rfl := Int64.le_antisymm hdisabled henabled
      have hkept : uint256Add (wsGetBalance host ws coinbase) (uint256FromU64 0) =
          wsGetBalance host ws coinbase := Word.toNat_injective (by
        rw [toNat_add, toNat_fromU64]
        exact Nat.mod_eq_of_lt (Word.toNat_lt _))
      have hsame := accountAt_sameBalance h coinbase
      rw [← hkept] at hsame
      exact hholds.rootHash_eq entryFits_account (hsame ▸ hholds')
  · rw [if_neg henabled, worldStateRoot_clean hclean]
    exact iff_of_true rfl (Int64.le_of_lt (Int64.not_le.mp henabled))

end Steps

section Export

variable {host : Host}

/-- The executor reports the root of the state it leaves. -/
theorem cmdT8n_inv [OnArena host] {lib : Library} {fuel : ℕ} {opts : T8nOptions}
    {preState : StateSnapshot} {env : T8nEnv} {txs : List Tx} {run : T8nRun}
    (h : cmdT8n host lib fuel opts preState env txs = some run) :
    WellFormed host run.executed ∧ run.executed.dirtyStorage = [] ∧
      run.result.stateRoot = (mptRootHash host run.executed.stateTrie).1 ∧
      run.exported = applyReward host run.executed env.coinbase opts.reward := by
  unfold cmdT8n at h
  split at h
  · split at h
    · next result ws evm hrun =>
      cases h
      rcases blockExecutorRun_inv hrun with ⟨hok, -⟩ | ⟨-, st, hloop, rfl, rfl⟩
      · cases hok
      · have hbuilt := wellFormed_build (wellFormed_create host) preState
        have hstart : Shows host (blockStart (evmInit opts.fork) _).ws _ := hbuilt.shows
        obtain ⟨l, -, hshows⟩ := runTxs_chain hstart hloop
        exact ⟨(hshows.root).wellFormed, rfl,
          worldStateRoot_hash hshows.wellFormed, rfl⟩
    · cases h
  · cases h

end Export

/-- The state root of the result is the one of the exported state, if and only if the block
reward is disabled or zero. -/
theorem stateRoot_of_export_iff (host : Host) [OnArena host]
    (hempty : host.keccak256 [0x80] = mptEmptyRoot) (lib : Library) (fuel : ℕ) (opts : T8nOptions)
    (preState : StateSnapshot) (env : T8nEnv) (txs : List Tx) (run : T8nRun)
    (hrun : cmdT8n host lib fuel opts preState env txs = some run)
    (hcollision : ¬Collision host.keccak256
      ([0x80] :: (hashedEncodings host run.executed.stateTrie ++
        hashedEncodings host run.exported.stateTrie))) :
    run.result.stateRoot = (worldStateRoot host run.exported).1 ↔ opts.reward ≤ 0 := by
  obtain ⟨hwell, hclean, hroot, hexported⟩ := cmdT8n_inv hrun
  rw [hexported] at hcollision ⊢
  rw [hroot]
  exact root_applyReward_iff hempty hwell hclean env.coinbase opts.reward hcollision

/-- A library that recovers the key of the address 1 from every signature. -/
def oneKey : Library := fun _ _ _ => some (List.replicate 31 0 ++ 1 :: List.replicate 32 0)

/-- A block with one payment. -/
def payingBlock (reward : Int64) : Option T8nRun :=
  cmdT8n (arenaWith markedHash) oneKey 10 ⟨.cancun, 1, reward⟩
    [⟨lowAddress 1, uint256FromU64 100000, 0, [], []⟩]
    ⟨lowAddress 2, 30000000, 1, 1, none, none, []⟩
    [.legacy ⟨0, uint256Zero, 21000, some (lowAddress 3), uint256FromU64 5, [], 27,
      uint256Zero, uint256Zero⟩]

theorem stateRoot_of_export_iff_unrewarded : ∃ run, payingBlock 0 = some run ∧
    run.result.receipts.length = 1 ∧
    run.result.stateRoot = (worldStateRoot (arenaWith markedHash) run.exported).1 := by
  have happart : (payingBlock 0).any (fun run => decide (run.result.receipts.length = 1 ∧
      ¬Collision markedHash
        ([0x80] :: (hashedEncodings (arenaWith markedHash) run.executed.stateTrie ++
          hashedEncodings (arenaWith markedHash) run.exported.stateTrie)))) = true := by
    decide +kernel
  obtain ⟨run, hrun, hdone⟩ := (Option.any_eq_true ..).mp happart
  obtain ⟨hpaid, hcollision⟩ := of_decide_eq_true hdone
  exact ⟨run, hrun, hpaid, (stateRoot_of_export_iff (arenaWith markedHash) rfl _ _ _ _ _ _ run
    hrun hcollision).mpr (by decide)⟩

/-- With a reward of 5 the reported root is not the one of the exported state. -/
theorem rewarded_stateRoot_differs : ∃ run, payingBlock 5 = some run ∧
    run.result.stateRoot ≠ (worldStateRoot (arenaWith markedHash) run.exported).1 := by
  have hdiffers : (payingBlock 5).any (fun run => decide (run.result.stateRoot ≠
      (worldStateRoot (arenaWith markedHash) run.exported).1)) = true := by
    decide +kernel
  obtain ⟨run, hrun, hne⟩ := (Option.any_eq_true ..).mp hdiffers
  exact ⟨run, hrun, of_decide_eq_true hne⟩

/-- Whatever the inputs are and whatever code runs, no empty account is exported, not even that
of a coinbase without a reward. -/
theorem exported_not_empty {host : Host} [OnArena host] {lib : Library} {fuel : ℕ}
    {opts : T8nOptions} {preState : StateSnapshot} {env : T8nEnv} {txs : List Tx} {run : T8nRun}
    (hrun : cmdT8n host lib fuel opts preState env txs = some run) (addr : Address) (acc : Account)
    (hacc : worldStateGetAccount host run.exported addr = some acc) : accountIsEmpty acc = false := by
  obtain ⟨hwell, -, -, hexported⟩ := cmdT8n_inv hrun
  have hkept : WellFormed host run.exported := by
    rw [hexported, applyReward]
    split
    · exact (worldStateSetAccount_spec hwell _ _).1
    · exact hwell
  rw [worldStateGetAccount_eq] at hacc
  exact (hkept.get _).2 acc hacc

theorem exported_not_empty_paid : ∃ run acc, payingBlock 0 = some run ∧
    worldStateGetAccount (arenaWith markedHash) run.exported (lowAddress 3) = some acc ∧
    accountIsEmpty acc = false := by
  have hthere : (payingBlock 0).any (fun run => (worldStateGetAccount (arenaWith markedHash)
      run.exported (lowAddress 3)).isSome) = true := by decide +kernel
  obtain ⟨run, hrun, hsome⟩ := (Option.any_eq_true ..).mp hthere
  obtain ⟨acc, hacc⟩ := Option.isSome_iff_exists.mp hsome
  exact ⟨run, acc, hrun, hacc, exported_not_empty hrun _ acc hacc⟩

end Div0.T8nCommand
