import Div0.Conservation

/-!
The transactions of a block, one after the other. A round of the loop either rejects its
transaction, which changes nothing but what is kept for one transaction, or executes it
and adds a receipt. The rounds of a block are listed with the states around them; what
`block_executor_run` reports is read off this list, and the gas adds up along it.
-/

namespace Div0.BlockRuns

open Node Uint256 Transaction WorldState WorldLedger Ledgers Frame Interpreter Validation Executor
open ExecutorEffects GasConservation TxCodec Conservation

/-- One round of the loop of `block_executor_run`. -/
structure Round where
  exec : BlockExecutor
  btx : BlockTx
  before : BlockState
  outcome : TxOutcome
  after : BlockState

namespace Round

def receipt? (r : Round) : Option ExecReceipt :=
  match r.outcome with
  | .receipt receipt => some receipt
  | .rejection _ => none

def rejection? (r : Round) : Option ExecRejected :=
  match r.outcome with
  | .receipt _ => none
  | .rejection rejected => some rejected

def opened (r : Round) : World := wsBeginTransaction r.before.ws

def verdict (host : Host) (r : Round) : TxValidationError :=
  blockExecutorValidateTx host r.exec r.opened r.btx r.before.cumulativeGas

end Round

def rounds (host : Host) (fuel : ℕ) (exec : BlockExecutor) : List BlockTx → BlockState → List Round
  | [], _ => []
  | btx :: rest, st =>
    match processTx host fuel exec st.evm st.ws st.cumulativeGas btx with
    | none => []
    | some out =>
      ⟨exec, btx, st, out.1, st.record btx out⟩ ::
        rounds host fuel exec rest (st.record btx out)

def blockStart (evm : Evm) (ws : World) : BlockState := ⟨ws, evm, 0, 0, [], []⟩

variable {host : Host} {fuel : ℕ} {exec : BlockExecutor} {btx : BlockTx} {l l' : Ledger Hash}

/-- What a round does to the accounts. -/
inductive Processed (host : Host) (r : Round) (l : Ledger Hash) : Ledger Hash → Prop
  | rejected {err : TxValidationError} (hverdict : r.verdict host = err) (hinvalid : err ≠ .valid)
      (houtcome : r.outcome =
        .rejection ⟨r.btx.originalIndex, err, txValidationErrorStr err⟩)
      (hws : r.after.ws = r.opened) : Processed host r l l
  | executed {l' : Ledger Hash} {receipt : ExecReceipt} (hvalid : r.verdict host = .valid)
      (houtcome : r.outcome = .receipt receipt)
      (hexecuted : Executed host r.exec r.btx r.before.cumulativeGas l receipt l') :
      Processed host r l l'

section Inversion

variable {r : Round} (h : Processed host r l l')
include h

theorem Processed.of_receipt {receipt : ExecReceipt} (houtcome : r.outcome = .receipt receipt) :
    r.verdict host = .valid ∧
      Executed host r.exec r.btx r.before.cumulativeGas l receipt l' := by
  cases h with
  | rejected _ _ hrejected _ =>
    rw [houtcome] at hrejected
    cases hrejected
  | executed hvalid hreceipt hexecuted =>
    rw [houtcome] at hreceipt
    cases hreceipt
    exact ⟨hvalid, hexecuted⟩

theorem Processed.of_rejection {rejected : ExecRejected} (houtcome : r.outcome = .rejection rejected) :
    rejected.index = r.btx.originalIndex ∧ rejected.error = r.verdict host ∧
      r.verdict host ≠ .valid ∧ r.after.ws = r.opened := by
  cases h with
  | rejected hverdict hinvalid hrejected hws =>
    rw [houtcome] at hrejected
    cases hrejected
    exact ⟨rfl, hverdict.symm, hverdict ▸ hinvalid, hws⟩
  | executed _ hreceipt _ =>
    rw [houtcome] at hreceipt
    cases hreceipt

end Inversion

theorem processTx_processed [OnArena host] {st : BlockState} {out : TxOutcome × World × Evm}
    (h : Shows host st.ws l)
    (hrun : processTx host fuel exec st.evm st.ws st.cumulativeGas btx = some out) :
    ∃ l', Shows host (st.record btx out).ws l' ∧
      Processed host ⟨exec, btx, st, out.1, st.record btx out⟩ l l' := by
  have hopened := h.beginTransaction
  unfold processTx at hrun
  dsimp only at hrun
  split at hrun
  · next hvalid =>
    have hpasses := (blockExecutorValidateTx_valid_iff ..).mp hvalid
    rw [Option.map_eq_some_iff] at hrun
    obtain ⟨⟨answer, ws', evm'⟩, hexec, hout⟩ := hrun
    obtain ⟨receipt, l', rfl, hshows, hexecuted⟩ := executeTransaction_executed hopened hpasses hexec
    cases hout
    exact ⟨l', hshows, .executed hvalid rfl hexecuted⟩
  · next hinvalid =>
    cases hrun
    exact ⟨l, hopened, .rejected rfl hinvalid rfl rfl⟩

/-- The rounds lead from one ledger to the other. -/
inductive Chain (host : Host) : Ledger Hash → List Round → Ledger Hash → Prop
  | nil (l : Ledger Hash) : Chain host l [] l
  | cons {l l₁ l₂ : Ledger Hash} {r : Round} {rest : List Round} (hbefore : Shows host r.before.ws l)
      (hafter : Shows host r.after.ws l₁) (hround : Processed host r l l₁)
      (hrest : Chain host l₁ rest l₂) : Chain host l (r :: rest) l₂

theorem Chain.append {l l₁ l₂ : Ledger Hash} {rs rs' : List Round} (h : Chain host l rs l₁)
    (h' : Chain host l₁ rs' l₂) : Chain host l (rs ++ rs') l₂ := by
  induction h with
  | nil => exact h'
  | cons hbefore hafter hround _ ih => exact .cons hbefore hafter hround (ih h')

theorem Chain.round {l l₁ : Ledger Hash} {rs : List Round} (h : Chain host l rs l₁) {r : Round}
    (hr : r ∈ rs) : ∃ l l', Shows host r.before.ws l ∧ Shows host r.after.ws l' ∧
      Processed host r l l' := by
  induction h with
  | nil => cases hr
  | cons hbefore hafter hround _ ih =>
    rcases List.mem_cons.mp hr with rfl | hr
    · exact ⟨_, _, hbefore, hafter, hround⟩
    · exact ih hr

variable {st st' : BlockState}

/-- A loop that comes to its end begins with a round and goes on to its end. -/
theorem runTxs_cons {rest : List BlockTx}
    (hrun : runTxs host fuel exec (btx :: rest) st = some st') :
    ∃ out, processTx host fuel exec st.evm st.ws st.cumulativeGas btx = some out ∧
      runTxs host fuel exec rest (st.record btx out) = some st' ∧
      rounds host fuel exec (btx :: rest) st = ⟨exec, btx, st, out.1, st.record btx out⟩ ::
        rounds host fuel exec rest (st.record btx out) := by
  unfold runTxs runTx at hrun
  cases hprocess : processTx host fuel exec st.evm st.ws st.cumulativeGas btx with
  | none =>
    rw [hprocess] at hrun
    cases hrun
  | some out =>
    rw [hprocess] at hrun
    exact ⟨out, rfl, hrun, by rw [rounds, hprocess]⟩

/-- A loop that comes to its end has a round for every transaction. -/
structure Logged (txs : List BlockTx) (rs : List Round) (st st' : BlockState) : Prop where
  txs : rs.map Round.btx = txs
  receipts : st'.receipts = st.receipts ++ rs.filterMap Round.receipt?
  rejected : st'.rejected = st.rejected ++ rs.filterMap Round.rejection?

variable {txs : List BlockTx}

theorem runTxs_logged (hrun : runTxs host fuel exec txs st = some st') :
    Logged txs (rounds host fuel exec txs st) st st' := by
  induction txs generalizing st with
  | nil =>
    cases hrun
    exact ⟨rfl, (List.append_nil _).symm, (List.append_nil _).symm⟩
  | cons btx rest ih =>
    obtain ⟨⟨outcome, ws', evm'⟩, -, hrest, hrounds⟩ := runTxs_cons hrun
    obtain ⟨htxs, hreceipts, hrejected⟩ := ih hrest
    rw [hrounds]
    cases outcome with
    | receipt receipt =>
      exact ⟨congrArg (btx :: ·) htxs, hreceipts.trans (List.append_assoc ..), hrejected⟩
    | rejection rejected =>
      exact ⟨congrArg (btx :: ·) htxs, hreceipts, hrejected.trans (List.append_assoc ..)⟩

/-- The loop ends in a well-formed state. -/
theorem runTxs_chain [OnArena host] (h : Shows host st.ws l)
    (hrun : runTxs host fuel exec txs st = some st') :
    ∃ l', Chain host l (rounds host fuel exec txs st) l' ∧ Shows host st'.ws l' := by
  induction txs generalizing st l with
  | nil =>
    cases hrun
    exact ⟨l, .nil l, h⟩
  | cons btx rest ih =>
    obtain ⟨out, hprocess, hrest, hrounds⟩ := runTxs_cons hrun
    obtain ⟨l₁, hshows, hround⟩ := processTx_processed h hprocess
    obtain ⟨l₂, hchain, hlast⟩ := ih hshows hrest
    rw [hrounds]
    exact ⟨l₂, .cons h hshows hround hchain, hlast⟩

section Gas

def gasTotal (receipts : List ExecReceipt) : ℕ := (receipts.map fun receipt => receipt.gasUsed.toNat).sum

/-- The gas of the receipts adds up, within the limit of the block. -/
structure Accounted (limit : UInt64) (receipts : List ExecReceipt) (gasUsed : UInt64) : Prop where
  cumulative : ∀ before receipt after, receipts = before ++ receipt :: after →
    receipt.cumulativeGas.toNat = gasTotal before + receipt.gasUsed.toNat
  total : gasUsed.toNat = gasTotal receipts
  total_le : gasUsed.toNat ≤ limit.toNat

theorem accounted_nil (limit : UInt64) : Accounted limit [] 0 :=
  ⟨fun before receipt after h => absurd h.symm (by simp), rfl, Nat.zero_le _⟩

theorem gasTotal_concat (receipts : List ExecReceipt) (receipt : ExecReceipt) :
    gasTotal (receipts ++ [receipt]) = gasTotal receipts + receipt.gasUsed.toNat := by
  unfold gasTotal
  rw [List.map_append, List.sum_append, List.map_singleton, List.sum_singleton]

/-- The next receipt: the validation has left room for its gas. -/
theorem Accounted.concat {limit gasUsed : UInt64} {receipts : List ExecReceipt}
    (h : Accounted limit receipts gasUsed) {receipt : ExecReceipt}
    (hcumulative : receipt.cumulativeGas = gasUsed + receipt.gasUsed)
    (hle : gasUsed.toNat + receipt.gasUsed.toNat ≤ limit.toNat) :
    Accounted limit (receipts ++ [receipt]) receipt.cumulativeGas := by
  have hexact : receipt.cumulativeGas.toNat = gasUsed.toNat + receipt.gasUsed.toNat := by
    have hlt := limit.toNat_lt
    rw [hcumulative, UInt64.toNat_add, Nat.mod_eq_of_lt (by omega)]
  refine ⟨fun before last after heq => ?_, ?_, ?_⟩
  · rcases List.eq_nil_or_concat after with rfl | ⟨after, newest, rfl⟩
    · obtain ⟨rfl, hlast⟩ := List.append_inj' heq rfl
      cases hlast
      rw [hexact, h.total]
    · rw [List.concat_eq_append, ← List.cons_append, ← List.append_assoc] at heq
      exact h.cumulative before last after (List.append_inj' heq rfl).1
  · rw [gasTotal_concat, hexact, h.total]
  · rw [hexact]
    exact hle

theorem Accounted.record {st : BlockState} (h : Accounted exec.block.gasLimit st.receipts st.cumulativeGas)
    {out : TxOutcome × World × Evm}
    (hround : Processed host ⟨exec, btx, st, out.1, st.record btx out⟩ l l') :
    Accounted exec.block.gasLimit (st.record btx out).receipts (st.record btx out).cumulativeGas := by
  obtain ⟨outcome, ws', evm'⟩ := out
  cases hround with
  | rejected hverdict hinvalid houtcome hws =>
    dsimp only at houtcome
    subst houtcome
    exact h
  | executed hvalid houtcome hexecuted =>
    dsimp only at houtcome
    subst houtcome
    have hpasses := (blockExecutorValidateTx_valid_iff ..).mp hvalid
    have hused := UInt64.le_iff_toNat_le.mp hexecuted.gasUsed_le
    exact h.concat hexecuted.cumulative (le_trans (Nat.add_le_add_left hused _) hpasses.blockGas)

theorem runTxs_accounted [OnArena host] (hshows : Shows host st.ws l)
    (h : Accounted exec.block.gasLimit st.receipts st.cumulativeGas)
    (hrun : runTxs host fuel exec txs st = some st') :
    Accounted exec.block.gasLimit st'.receipts st'.cumulativeGas := by
  induction txs generalizing st l with
  | nil =>
    cases hrun
    exact h
  | cons btx rest ih =>
    obtain ⟨out, hprocess, hrest, -⟩ := runTxs_cons hrun
    obtain ⟨l₁, hshows', hround⟩ := processTx_processed hshows hprocess
    exact ih hshows' (h.record hround) hrest

end Gas

section Block

variable {evm evm' : Evm} {ws ws' : World} {txs : List BlockTx} {ok : Bool} {result : BlockExecResult}

/-- `block_executor_run` reports what the loop has collected, or does not start it. -/
theorem blockExecutorRun_inv
    (hrun : blockExecutorRun host fuel exec evm ws txs = some (ok, result, ws', evm')) :
    (ok = false ∧ result.receipts = [] ∧ result.gasUsed = 0 ∧ ws' = ws) ∨
      (ok = true ∧ ∃ st, runTxs host fuel exec txs (blockStart evm ws) = some st ∧
        result = ⟨st.receipts, st.rejected, st.cumulativeGas, st.blobGasUsed,
          (worldStateRoot host st.ws).1⟩ ∧
        ws' = (worldStateRoot host st.ws).2) := by
  unfold blockExecutorRun at hrun
  dsimp only at hrun
  split at hrun
  · next hempty =>
    rw [List.length_eq_zero_iff] at hempty
    subst hempty
    cases hrun
    exact Or.inr ⟨rfl, blockStart evm ws, rfl, rfl, rfl⟩
  · split at hrun
    · cases hrun
      exact Or.inl ⟨rfl, rfl, rfl, rfl⟩
    · split at hrun
      · split at hrun
        · cases hrun
        · next st hloop =>
          cases hrun
          exact Or.inr ⟨rfl, st, hloop, rfl, rfl⟩
      · cases hrun
        exact Or.inl ⟨rfl, rfl, rfl, rfl⟩

/-- The subtractions of `execute_transaction` do not wrap around, and the gas of the block
adds up. -/
theorem blockExecutorRun_accounted (host : Host) [OnArena host] (hws : WellFormed host ws)
    (hrun : blockExecutorRun host fuel exec evm ws txs = some (ok, result, ws', evm')) :
    Accounted exec.block.gasLimit result.receipts result.gasUsed ∧
      (ok = true → result.receipts = (rounds host fuel exec txs
          (blockStart evm ws)).filterMap Round.receipt? ∧
        ∀ r ∈ rounds host fuel exec txs (blockStart evm ws),
          ∀ receipt, r.outcome = .receipt receipt →
            txIntrinsicGas r.btx.tx ≤ transactionGasLimit r.btx.tx ∧
              receipt.gasUsed ≤ transactionGasLimit r.btx.tx) := by
  rcases blockExecutorRun_inv hrun with ⟨rfl, hreceipts, hgas, -⟩ | ⟨rfl, st, hloop, rfl, -⟩
  · rw [hreceipts, hgas]
    exact ⟨accounted_nil _, fun hok => absurd hok Bool.false_ne_true⟩
  · have hstart : Shows host (blockStart evm ws).ws _ := hws.shows
    refine ⟨runTxs_accounted hstart (accounted_nil _) hloop, fun _ => ?_⟩
    refine ⟨(runTxs_logged hloop).receipts, fun r hr receipt houtcome => ?_⟩
    obtain ⟨l', hchain, -⟩ := runTxs_chain hstart hloop
    obtain ⟨l₁, l₂, -, -, hround⟩ := hchain.round hr
    obtain ⟨hvalid, hexecuted⟩ := hround.of_receipt houtcome
    have hpasses := (blockExecutorValidateTx_valid_iff ..).mp hvalid
    exact ⟨UInt64.le_iff_toNat_le.mpr hpasses.intrinsic, hexecuted.gasUsed_le⟩

def mixedBlock : List BlockTx :=
  [paymentTx, { paymentTx with originalIndex := 1 },
    ⟨.legacy ⟨1, uint256FromU64 3, 100000, none, uint256FromU64 5, [], 27, uint256Zero,
      uint256Zero⟩, lowAddress 1, true, 2⟩]

theorem mixedBlock_run : ∃ result ws' evm', blockExecutorRun paddedHost 100 plainExecutor
      (evmInit .cancun) fundedWorld mixedBlock = some (true, result, ws', evm') ∧
    result.receipts.length = 2 ∧ result.rejected.map (·.index) = [1] := by
  have hdone : (blockExecutorRun paddedHost 100 plainExecutor (evmInit .cancun) fundedWorld
      mixedBlock).map (fun out => (out.1, out.2.1.receipts.length,
        out.2.1.rejected.map (·.index))) = some (true, 2, [1]) := by decide +kernel
  rw [Option.map_eq_some_iff] at hdone
  obtain ⟨⟨ok, result, ws', evm'⟩, hrun, hsummary⟩ := hdone
  obtain ⟨rfl, hreceipts, hrejected⟩ : ok = true ∧ result.receipts.length = 2 ∧
    result.rejected.map (·.index) = [1] := by simpa only [Prod.mk.injEq] using hsummary
  exact ⟨result, ws', evm', hrun, hreceipts, hrejected⟩

theorem blockExecutorRun_accounted_mixed :
    ∃ result ws' evm', blockExecutorRun paddedHost 100 plainExecutor (evmInit .cancun)
        fundedWorld mixedBlock = some (true, result, ws', evm') ∧ result.receipts.length = 2 ∧
      Accounted plainExecutor.block.gasLimit result.receipts result.gasUsed := by
  obtain ⟨result, ws', evm', hrun, hreceipts, -⟩ := mixedBlock_run
  obtain ⟨l, hshows, -⟩ := shows_fundedWorld
  exact ⟨result, ws', evm', hrun, hreceipts,
    (blockExecutorRun_accounted paddedHost hshows.wellFormed hrun).1⟩

/-- A round names its transaction; a rejection is the answer of the validation and changes no
account; behind the validation no exit is taken before the execution. -/
structure Faithful (host : Host) (r : Round) : Prop where
  receipt : ∀ receipt, r.outcome = .receipt receipt →
    receipt.txHash = transactionHash host.alloc host.keccak256 r.btx.tx
  rejection : ∀ rejected, r.outcome = .rejection rejected →
    rejected.index = r.btx.originalIndex ∧ rejected.error = r.verdict host ∧
      r.verdict host ≠ .valid ∧ SameAccounts host r.before.ws r.after.ws
  launch : r.verdict host = .valid → (deductGas host r.exec r.opened r.btx).1 = true ∧
    (transferred host r.exec r.opened r.btx).1 = true ∧
    (callParams host (transferred host r.exec r.opened r.btx).2 r.btx
      (createdContract host r.exec r.opened r.btx)).isSome = true

theorem faithful_of_processed [OnArena host] {r : Round} (hshows : Shows host r.before.ws l)
    (h : Processed host r l l') : Faithful host r where
  receipt receipt houtcome := (h.of_receipt houtcome).2.txHash
  rejection rejected houtcome := by
    obtain ⟨hindex, herror, hinvalid, hws⟩ := h.of_rejection houtcome
    refine ⟨hindex, herror, hinvalid, ?_⟩
    rw [hws]
    exact sameAccounts_of_stores rfl rfl rfl
  launch hvalid := by
    have hpasses := (blockExecutorValidateTx_valid_iff ..).mp hvalid
    obtain ⟨call, ws₁, l₁, hlaunched⟩ := launched_of_passes hshows.beginTransaction hpasses
    refine ⟨hlaunched.paid, hlaunched.sent, ?_⟩
    rw [Round.opened, hlaunched.params, Option.isSome_some]

/-- Every transaction has one round, in order, and the receipts and rejections are those of
the rounds. -/
theorem blockExecutorRun_partition (host : Host) [OnArena host] (hws : WellFormed host ws)
    (hrun : blockExecutorRun host fuel exec evm ws txs = some (true, result, ws', evm')) :
    ∃ rs, rs = rounds host fuel exec txs (blockStart evm ws) ∧
      rs.map Round.btx = txs ∧ result.receipts = rs.filterMap Round.receipt? ∧
      result.rejected = rs.filterMap Round.rejection? ∧
      ∀ r ∈ rs, Faithful host r := by
  rcases blockExecutorRun_inv hrun with ⟨hok, -⟩ | ⟨-, st, hloop, rfl, -⟩
  · cases hok
  · have hstart : Shows host (blockStart evm ws).ws _ := hws.shows
    obtain ⟨htxs, hreceipts, hrejected⟩ := runTxs_logged hloop
    refine ⟨_, rfl, htxs, hreceipts, hrejected, fun r hr => ?_⟩
    obtain ⟨l', hchain, -⟩ := runTxs_chain hstart hloop
    obtain ⟨l₁, l₂, hbefore, -, hround⟩ := hchain.round hr
    exact faithful_of_processed hbefore hround

theorem blockExecutorRun_partition_mixed :
    ∃ result ws' evm', ∃ rs : List Round, blockExecutorRun paddedHost 100 plainExecutor
        (evmInit .cancun) fundedWorld mixedBlock = some (true, result, ws', evm') ∧
      result.rejected.map (·.index) = [1] ∧ rs.map Round.btx = mixedBlock ∧
      result.rejected = rs.filterMap Round.rejection? ∧ ∀ r ∈ rs, Faithful paddedHost r := by
  obtain ⟨result, ws', evm', hrun, -, hindex⟩ := mixedBlock_run
  obtain ⟨l, hshows, -⟩ := shows_fundedWorld
  obtain ⟨rs, -, htxs, -, hrejected, hfaithful⟩ :=
    blockExecutorRun_partition paddedHost hshows.wellFormed hrun
  exact ⟨result, ws', evm', rs, hrun, hindex, htxs, hrejected, hfaithful⟩

end Block

end Div0.BlockRuns
