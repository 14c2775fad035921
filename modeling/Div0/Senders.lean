import Div0.BlockRuns

/-!
The senders of executed transactions. The nonce of an executed transaction is the one of
its sender, and afterwards the sender's nonce is one higher: then no later transaction of
the sender has the same nonce, in this block or in a later one on the same state. At the
limit of the nonce `ws_increment_nonce` does not count, and the same transaction can be
executed again. Whether a sender has been recovered from the signature is not looked at.
-/

namespace Div0.Senders

open Node Uint256 Transaction WorldState WorldLedger Ledgers Frame Interpreter Validation Executor
open ExecutorEffects Conservation BlockRuns

variable {host : Host} {fuel : ℕ} {exec : BlockExecutor} {btx : BlockTx} {l l' : Ledger Hash}

section Nonces

variable {cumulativeGas : UInt64} {receipt : ExecReceipt}
  (h : Executed host exec btx cumulativeGas l receipt l')
include h

theorem Executed.nonce_sender : l'.nonce (addressToKey host btx.sender) =
    nextNonce (l.nonce (addressToKey host btx.sender)) := by
  obtain ⟨mid, hmid, rfl⟩ := h.ledger
  have hcharged : (charged host exec btx l).nonce (addressToKey host btx.sender) =
      nextNonce (l.nonce (addressToKey host btx.sender)) := Ledger.sign_nonce_self ..
  have hpos : 0 < nextNonce (l.nonce (addressToKey host btx.sender)) := by
    unfold nextNonce
    split <;> omega
  rw [Ledger.deposit_nonce, Ledger.deposit_nonce, hmid.nonce_eq _ (hcharged ▸ hpos), hcharged]

theorem Executed.nonce_le (key : Hash) : l.nonce key ≤ l'.nonce key := by
  by_cases hkey : key = addressToKey host btx.sender
  · subst hkey
    rw [Executed.nonce_sender h]
    unfold nextNonce
    split <;> omega
  · obtain ⟨mid, hmid, rfl⟩ := h.ledger
    have hcharged : (charged host exec btx l).nonce key = l.nonce key := by
      rw [charged, Ledger.sign_nonce_ne hkey, Ledger.withdraw_nonce]
    rw [Ledger.deposit_nonce, Ledger.deposit_nonce, ← hcharged]
    exact hmid.nonce_le key

end Nonces

def ticket (r : Round) : Option (Address × UInt64) :=
  r.receipt?.map fun _ => (r.btx.sender, transactionNonce r.btx.tx)

/-- No transaction at the limit of the nonce is accepted. -/
def BelowLimit (host : Host) (rs : List Round) : Prop :=
  ∀ r ∈ rs, r.verdict host = .valid → (transactionNonce r.btx.tx).toNat < 2 ^ 64 - 2

instance (host : Host) (rs : List Round) : Decidable (BelowLimit host rs) :=
  inferInstanceAs (Decidable (∀ r ∈ rs, _ → _))

/-- An accepted transaction has the nonce of its sender. -/
theorem nonce_of_valid {r : Round} (hshows : Shows host r.before.ws l)
    (hvalid : r.verdict host = .valid) :
    transactionNonce r.btx.tx = wsGetNonce host r.before.ws r.btx.sender ∧
      (transactionNonce r.btx.tx).toNat = l.nonce (addressToKey host r.btx.sender) := by
  have hnonce := ((blockExecutorValidateTx_valid_iff ..).mp hvalid).nonce
  refine ⟨hnonce, ?_⟩
  rw [hnonce, wsGetNonce_eq]
  exact hshows.beginTransaction.nonce_eq r.btx.sender

/-- Along a chain the nonces of the tickets start at the nonces of the ledger, and no ticket
is given twice. -/
theorem Chain.tickets {rs : List Round} (h : Chain host l rs l') (hbelow : BelowLimit host rs) :
    (rs.filterMap ticket).Nodup ∧
      ∀ t ∈ rs.filterMap ticket, l.nonce (addressToKey host t.1) ≤ t.2.toNat := by
  induction h with
  | nil => exact ⟨List.nodup_nil, fun t ht => absurd ht List.not_mem_nil⟩
  | @cons l l₁ l₂ r rest hbefore hafter hround hrest ih =>
    obtain ⟨hnodup, hfrom⟩ := ih fun r hr => hbelow r (List.mem_cons_of_mem _ hr)
    cases hround with
    | rejected _ _ houtcome _ =>
      have hnone : ticket r = none := by rw [ticket, Round.receipt?, houtcome, Option.map_none]
      rw [List.filterMap_cons_none hnone]
      exact ⟨hnodup, hfrom⟩
    | @executed _ receipt hvalid houtcome hexecuted =>
      have hsome : ticket r = some (r.btx.sender, transactionNonce r.btx.tx) := by
        rw [ticket, Round.receipt?, houtcome, Option.map_some]
      have hlimit := hbelow r (List.mem_cons_self ..) hvalid
      obtain ⟨-, hnonce⟩ := nonce_of_valid hbefore hvalid
      have hnext := Executed.nonce_sender hexecuted
      rw [nextNonce, if_pos (hnonce ▸ hlimit), ← hnonce] at hnext
      rw [List.filterMap_cons_some hsome, List.nodup_cons]
      refine ⟨⟨fun hagain => ?_, hnodup⟩, fun t ht => ?_⟩
      · have hlow := hfrom _ hagain
        rw [hnext] at hlow
        exact absurd hlow (Nat.not_succ_le_self _)
      · rcases List.mem_cons.mp ht with rfl | ht
        · exact hnonce.ge
        · exact le_trans (Executed.nonce_le hexecuted _) (hfrom t ht)

section Blocks

def history (host : Host) (fuel : ℕ) : List (BlockExecutor × List BlockTx) → Evm → World → List Round
  | [], _, _ => []
  | (exec, txs) :: rest, evm, ws =>
    match blockExecutorRun host fuel exec evm ws txs with
    | none => []
    | some (ok, _, ws', evm') =>
      (if ok then rounds host fuel exec txs (blockStart evm ws) else []) ++
        history host fuel rest evm' ws'

theorem history_chain [OnArena host] (fuel : ℕ) (blocks : List (BlockExecutor × List BlockTx))
    (evm : Evm) {ws : World} (h : Shows host ws l) :
    ∃ l', Chain host l (history host fuel blocks evm ws) l' := by
  induction blocks generalizing evm ws l with
  | nil => exact ⟨l, .nil l⟩
  | cons block rest ih =>
    obtain ⟨exec, txs⟩ := block
    unfold history
    split
    · exact ⟨l, .nil l⟩
    · next ok result ws' evm' hrun =>
      rcases blockExecutorRun_inv hrun with ⟨rfl, -, -, rfl⟩ | ⟨rfl, st, hloop, -, rfl⟩
      · exact ih evm' h
      · have hstart : Shows host (blockStart evm ws).ws l := h
        obtain ⟨l₁, hchain, hshows⟩ := runTxs_chain hstart hloop
        obtain ⟨l₂, hrest⟩ := ih evm' (hshows.root)
        exact ⟨l₂, hchain.append hrest⟩

/-- The receipt is for the nonce of the sender, which is counted up. -/
def Counted (host : Host) (r : Round) : Prop :=
  ∀ receipt, r.outcome = .receipt receipt →
    transactionNonce r.btx.tx = wsGetNonce host r.before.ws r.btx.sender ∧
    (wsGetNonce host r.after.ws r.btx.sender).toNat =
      (wsGetNonce host r.before.ws r.btx.sender).toNat + 1

theorem counted_iff {r : Round} (hbefore : Shows host r.before.ws l) (hafter : Shows host r.after.ws l')
    (hround : Processed host r l l') : Counted host r ↔
      (r.verdict host = .valid → (transactionNonce r.btx.tx).toNat < 2 ^ 64 - 2) := by
  have hlast : (wsGetNonce host r.after.ws r.btx.sender).toNat =
      l'.nonce (addressToKey host r.btx.sender) := by rw [wsGetNonce_eq, hafter.nonce_eq]
  cases hround with
  | rejected hverdict hinvalid houtcome _ =>
    exact ⟨fun _ hvalid => absurd (hverdict.symm.trans hvalid) hinvalid,
      fun _ receipt hreceipt => by rw [houtcome] at hreceipt; cases hreceipt⟩
  | executed hvalid houtcome hexecuted =>
    obtain ⟨hnonce, hkey⟩ := nonce_of_valid hbefore hvalid
    rw [Executed.nonce_sender hexecuted, ← hkey, nextNonce] at hlast
    constructor
    · intro hcounted _
      obtain ⟨-, hsucc⟩ := hcounted _ houtcome
      rw [hlast, ← hnonce] at hsucc
      split at hsucc
      · assumption
      · omega
    · intro hbelow receipt _
      rw [if_pos (hbelow hvalid)] at hlast
      exact ⟨hnonce, by rw [hlast, hnonce]⟩

/-- Every receipt counts the nonce of its sender exactly if no transaction at the limit is
accepted; then no transaction is executed twice. -/
theorem history_counted (host : Host) [OnArena host] (fuel : ℕ)
    (blocks : List (BlockExecutor × List BlockTx)) (evm : Evm) {ws : World}
    (hws : WellFormed host ws) :
    ((∀ r ∈ history host fuel blocks evm ws, Counted host r) ↔
      BelowLimit host (history host fuel blocks evm ws)) ∧
    (BelowLimit host (history host fuel blocks evm ws) →
      ((history host fuel blocks evm ws).filterMap ticket).Nodup) := by
  obtain ⟨l', hchain⟩ := history_chain fuel blocks evm hws.shows
  refine ⟨forall₂_congr fun r hr => ?_, fun hbelow => (Chain.tickets hchain hbelow).1⟩
  obtain ⟨l₁, l₂, hbefore, hafter, hround⟩ := hchain.round hr
  exact counted_iff hbefore hafter hround

def zeroFunded (nonce : UInt64) : World :=
  wsSetNonce zeroHost
    (wsSetBalance zeroHost worldStateCreate addressZero (uint256FromU64 1000000)) addressZero nonce

def zeroTx (nonce : UInt64) (recovered : Bool) : BlockTx :=
  ⟨.legacy ⟨nonce, uint256FromU64 1, 21000, some addressZero, uint256Zero, [], 27, uint256Zero,
    uint256Zero⟩, addressZero, recovered, 0⟩

instance : OnArena zeroHost := ⟨rfl⟩

theorem wellFormed_zeroFunded (nonce : UInt64) : WellFormed zeroHost (zeroFunded nonce) := by
  have hcreated := (wellFormed_create zeroHost).shows
  have hfunded := hcreated.setAccount addressZero
    { accountOrEmpty zeroHost worldStateCreate addressZero with balance := uint256FromU64 1000000 }
  exact (hfunded.setAccount addressZero _).wellFormed

def twoOfOneBlock : List Round :=
  history zeroHost 10 [(plainExecutor, [zeroTx 0 true, zeroTx 1 true])] (evmInit .cancun)
    (zeroFunded 0)

theorem history_counted_twice :
    WellFormed zeroHost (zeroFunded 0) ∧
      twoOfOneBlock.filterMap ticket = [(addressZero, 0), (addressZero, 1)] ∧
      (twoOfOneBlock.filterMap ticket).Nodup := by
  have hruns : twoOfOneBlock.filterMap ticket = [(addressZero, 0), (addressZero, 1)] ∧
      BelowLimit zeroHost twoOfOneBlock := by decide +kernel
  exact ⟨wellFormed_zeroFunded 0, hruns.1,
    (history_counted zeroHost 10 _ _ (wellFormed_zeroFunded 0)).2 hruns.2⟩

/-- At the limit the nonce is not counted: the same transaction gets a receipt in each of two
blocks. -/
theorem history_replay :
    (history zeroHost 10
        [(plainExecutor, [zeroTx 0xfffffffffffffffe true]),
          (plainExecutor, [zeroTx 0xfffffffffffffffe true])]
        (evmInit .cancun) (zeroFunded 0xfffffffffffffffe)).filterMap ticket =
      [(addressZero, 0xfffffffffffffffe), (addressZero, 0xfffffffffffffffe)] := by
  decide +kernel

end Blocks

section Recovery

variable {evm evm' : Evm} {ws ws' : World} {txs : List BlockTx} {result : BlockExecResult}

/-- The transactions without a recovered sender are rejected, and nothing changes, exactly if
each of them fails a check of the validation when its turn comes. -/
theorem unrecovered_rejected_iff (host : Host) [OnArena host] (hws : WellFormed host ws)
    (hrun : blockExecutorRun host fuel exec evm ws txs = some (true, result, ws', evm')) :
    (∀ r ∈ rounds host fuel exec txs (blockStart evm ws),
      r.btx.senderRecovered = false → ∃ rejected ∈ result.rejected,
        r.outcome = .rejection rejected ∧ rejected.index = r.btx.originalIndex ∧
          SameAccounts host r.before.ws r.after.ws) ↔
    ∀ r ∈ rounds host fuel exec txs (blockStart evm ws),
      r.btx.senderRecovered = false →
        ¬Passes host r.exec r.opened r.btx r.before.cumulativeGas := by
  rcases blockExecutorRun_inv hrun with ⟨hok, -⟩ | ⟨-, st, hloop, rfl, -⟩
  · cases hok
  have hstart : Shows host (blockStart evm ws).ws _ := hws.shows
  have hrejected := (runTxs_logged hloop).rejected
  obtain ⟨l', hchain, -⟩ := runTxs_chain hstart hloop
  refine forall₃_congr fun r hr _ => ?_
  obtain ⟨l₁, l₂, hbefore, -, hround⟩ := hchain.round hr
  constructor
  · rintro ⟨rejected, -, houtcome, -⟩ hpasses
    obtain ⟨-, -, hinvalid, -⟩ := hround.of_rejection houtcome
    exact hinvalid ((blockExecutorValidateTx_valid_iff ..).mpr hpasses)
  · intro hfails
    cases houtcome : r.outcome with
    | receipt receipt =>
      exact absurd ((blockExecutorValidateTx_valid_iff ..).mp (hround.of_receipt houtcome).1) hfails
    | rejection rejected =>
      obtain ⟨hindex, -, -, hsame⟩ := (faithful_of_processed hbefore hround).rejection _ houtcome
      refine ⟨rejected, ?_, rfl, hindex, hsame⟩
      rw [hrejected]
      refine List.mem_append_right _ (List.mem_filterMap.mpr ⟨r, hr, ?_⟩)
      rw [Round.rejection?, houtcome]

/-- The nonce is not the one of the zero address. -/
theorem unrecovered_rejected_nonce :
    ∃ result ws' evm', blockExecutorRun zeroHost 10 plainExecutor (evmInit .cancun) (zeroFunded 0)
        [zeroTx 5 false] = some (true, result, ws', evm') ∧
      ∀ r ∈ rounds zeroHost 10 plainExecutor [zeroTx 5 false]
          (blockStart (evmInit .cancun) (zeroFunded 0)),
        r.btx.senderRecovered = false → ∃ rejected ∈ result.rejected,
          r.outcome = .rejection rejected ∧ rejected.index = r.btx.originalIndex ∧
            SameAccounts zeroHost r.before.ws r.after.ws := by
  have hruns : (blockExecutorRun zeroHost 10 plainExecutor (evmInit .cancun) (zeroFunded 0)
        [zeroTx 5 false]).map (·.1) = some true ∧
      ∀ r ∈ rounds zeroHost 10 plainExecutor [zeroTx 5 false]
        (blockStart (evmInit .cancun) (zeroFunded 0)), r.verdict zeroHost ≠ .valid := by
    decide +kernel
  obtain ⟨hdone, hinvalid⟩ := hruns
  obtain ⟨⟨ok, result, ws', evm'⟩, hrun, rfl⟩ := Option.map_eq_some_iff.mp hdone
  refine ⟨result, ws', evm', hrun, ?_⟩
  refine (unrecovered_rejected_iff zeroHost (wellFormed_zeroFunded 0) hrun).mpr ?_
  intro r hr _ hpasses
  exact hinvalid r hr ((blockExecutorValidateTx_valid_iff ..).mpr hpasses)

/-- The flag is not read: with funds at the zero address, which stands for a sender that could
not be recovered, the transaction is executed. -/
theorem unrecovered_executed :
    plainExecutor.skipSignatureValidation = false ∧ (zeroTx 0 false).senderRecovered = false ∧
      (blockExecutorRun zeroHost 10 plainExecutor (evmInit .cancun) (zeroFunded 0)
        [zeroTx 0 false]).map (fun out => (out.1, out.2.1.receipts.length,
          out.2.1.rejected.length)) = some (true, 1, 0) := by
  decide +kernel

end Recovery

end Div0.Senders
