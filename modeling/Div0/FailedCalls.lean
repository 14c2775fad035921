import Div0.InstructionCosts

/-!
Calls that do not start. The three exits of the call opcodes push zero and go on with the
caller: at the maximal depth, for want of balance, and for want of a frame. What earlier
parts of the opcode have done stays: the gas of the child is gone, the value has moved when
only the frame was missing, and the return buffer is what the call before left in it.
-/

namespace Div0.FailedCalls

open BigEndian Effects Memory Node Uint256 Uint256Ops WorldState Ledgers WorldLedger Frame Opcodes
open CallOps Interpreter CallEffects GasConservation MemoryInstructions CallSetups

variable {host : Host} {ws : World}

section Exits

/-- Only the stack of the frame differs, of what a call can touch. -/
structure Still (s s' : Active) : Prop where
  evm : s'.evm = s.evm
  gas : s'.frame.gas = s.frame.gas

theorem giveUp_still {s s' : Active} {started : Bool} (h : giveUp s = .ok started s') :
    Still s s' := by
  unfold giveUp push at h
  obtain ⟨_, s₁, hpush, h⟩ := bind_ok h
  obtain ⟨_, s₂, hframe, hpush⟩ := bind_ok hpush
  cases hframe
  obtain ⟨stack, s₃, hdefined, hpush⟩ := bind_ok hpush
  cases hstack : evmStackPush s.frame.stack uint256Zero with
  | none =>
    rw [hstack] at hdefined
    cases hdefined
  | some grown =>
    rw [hstack] at hdefined
    cases hdefined
    cases hpush
    cases h
    exact ⟨rfl, rfl⟩

variable {s s' : Active}

/-- A child that is not entered for want of a frame. -/
theorem enterChild_false {setup : CallSetup} {params : ChildFrameParams}
    (h : enterChild setup params s = .ok false s') : Still s s' := by
  unfold enterChild at h
  obtain ⟨ws, -, h⟩ := requireState_ok h
  obtain ⟨_, _, ⟨⟩, h⟩ := bind_ok h
  split at h
  · split at h
    · obtain ⟨_, _, _, h⟩ := bind_ok h
      obtain ⟨_, _, _, h⟩ := bind_ok h
      obtain ⟨_, _, _, ⟨⟩⟩ := bind_ok h
    · cases h
  · exact giveUp_still h

def transferred (host : Host) (transfers : Bool) (setup : CallSetup) (s : Active) : Active :=
  withState (if transfers then transferValue host s.frame.address setup.target setup.value else id)
    s

theorem sendValue_eq (host : Host) (transfers : Bool) (setup : CallSetup)
    (hws : s.evm.state = some ws) :
    sendValue host transfers setup s =
      if affords host ws s.frame.address setup.value then
        .ok true (transferred host transfers setup s)
      else .ok false s := by
  have hread := requireState_eq .invalidOpcode s
  rw [hws] at hread
  unfold sendValue
  rw [bind_of_ok hread, bind_of_ok (getFrame_eq s)]
  split <;> rfl

/-- A prepared call does not start for want of balance, or for want of a frame after the
transfer. -/
theorem startCall_false {transfers : Bool} {params : ParamsOf} {setup : CallSetup}
    (hws : s.evm.state = some ws)
    (h : startCall host transfers params setup s = .ok false s') :
    (affords host ws s.frame.address setup.value = false ∧ Still s s') ∨
      (affords host ws s.frame.address setup.value = true ∧
        Still (transferred host transfers setup s) s') := by
  have hsend := sendValue_eq host transfers setup hws
  unfold startCall at h
  cases hafford : affords host ws s.frame.address setup.value with
  | false =>
    rw [hafford] at hsend
    rw [bind_of_ok hsend] at h
    exact Or.inl ⟨rfl, giveUp_still h⟩
  | true =>
    rw [hafford] at hsend
    rw [bind_of_ok hsend, if_pos rfl] at h
    obtain ⟨_, _, ⟨⟩, h⟩ := bind_ok h
    exact Or.inr ⟨rfl, enterChild_false h⟩

end Exits

section Balances

def balanceOf (host : Host) (evm : Evm) (addr : Address) : Word :=
  match evm.state with
  | some ws => wsGetBalance host ws addr
  | none => uint256Zero

variable {l : Ledger Hash}

theorem wsGetBalance_toNat (h : Shows host ws l) (addr : Address) :
    (wsGetBalance host ws addr).toNat = l.balance (addressToKey host addr) := by
  rw [wsGetBalance_eq, h.balance_eq]

/-- A transfer that can be paid leaves all balances as they are if and only if it moves
nothing, or ends in the account it started from. -/
theorem transferValue_balances_iff [OnArena host] (h : Shows host ws l)
    {sender : Address} (target : Address) {value : Word}
    (hafford : affords host ws sender value = true) :
    (∀ addr, wsGetBalance host (transferValue host sender target value ws) addr =
      wsGetBalance host ws addr) ↔
      value.toNat = 0 ∨ addressToKey host target = addressToKey host sender := by
  have hle := affords_le h hafford
  by_cases hzero : value.toNat = 0
  · have hsame : transferValue host sender target value ws = ws :=
      if_pos ((isZero_iff value).mpr hzero)
    rw [hsame]
    exact iff_of_true (fun _ => rfl) (Or.inl hzero)
  have hmoved : Shows host (transferValue host sender target value ws)
      ((l.withdraw (addressToKey host sender) value.toNat).deposit (2 ^ 256)
        (addressToKey host target) value.toNat) := by
    rw [transferValue, if_neg (isZero_false hzero)]
    exact ((h.subBalance sender value).2).addBalance target value
  rw [Ledger.withdraw, if_pos hle] at hmoved
  rw [or_iff_right hzero]
  constructor
  · intro hsame
    by_contra hne
    -- the sender's balance has dropped
    have hsender := congrArg Word.toNat (hsame sender)
    rw [wsGetBalance_toNat hmoved, wsGetBalance_toNat h, Ledger.deposit_balance_ne (Ne.symm hne),
      Ledger.debit_balance_self] at hsender
    omega
  · intro hkey addr
    apply Word.toNat_injective
    have hlt := (wsGetBalance host ws sender).toNat_lt
    rw [wsGetBalance_toNat h] at hlt
    rw [wsGetBalance_toNat hmoved, hkey, Ledger.deposit_debit hle hlt, wsGetBalance_toNat h]

end Balances

section Failures

def overheadOf (host : Host) (kind : CallKind) (s : Active) : ℕ :=
  match s.evm.state, callMemoryCost s.frame.memory
      (operandRegions (kind.args s.frame.stack.items)) with
  | some ws, some memCost => (callOverhead host kind.chargesNewAccount ws
      (kind.args s.frame.stack.items) memCost).toNat
  | _, _ => 0

/-- The call takes nothing but its overhead: no balance changes, the gas of the child is given
back, and the return buffer is empty. -/
structure CostsOverhead (host : Host) (kind : CallKind) (s s' : Active) : Prop where
  balances : ∀ addr, balanceOf host s'.evm addr = balanceOf host s.evm addr
  gas : s.frame.gas.toNat ≤ s'.frame.gas.toNat + overheadOf host kind s
  returnData : s'.evm.returnData = []

variable {s s' : Active}

def warmedWorld (host : Host) (kind : CallKind) (s : Active) (ws : World) : World :=
  (wsWarmAddress host ws (addressFromUint256 (kind.args s.frame.stack.items).addr)).2

/-- The state a call leaves that does not start although it was prepared: the value has moved
if the opcode moves it and the sender could pay it. -/
def leftWorld (host : Host) (kind : CallKind) (s : Active) (ws : World) : World :=
  if kind.transfers && affords host (warmedWorld host kind s ws) s.frame.address
      (kind.args s.frame.stack.items).value then
    transferValue host s.frame.address
      (addressFromUint256 (kind.args s.frame.stack.items).addr)
      (kind.args s.frame.stack.items).value (warmedWorld host kind s ws)
  else warmedWorld host kind s ws

/-- The ways a call does not start. -/
inductive FailedCase (host : Host) (kind : CallKind) (s s' : Active) (ws : World) : Prop
  | deep (hdepth : maxCallDepth ≤ s.frame.depth) (hevm : s'.evm = s.evm)
      (hgas : s'.frame.gas = s.frame.gas)
  | prepared (left : UInt64) (hdepth : s.frame.depth < maxCallDepth)
      (hpaid : left.toNat + overheadOf host kind s = s.frame.gas.toNat)
      (hgas : s'.frame.gas =
        left - setAside left (kind.args s.frame.stack.items).requestedGas)
      (hdata : s'.evm.returnData = s.evm.returnData)
      (hstate : s'.evm.state = some (leftWorld host kind s ws))

theorem startCall_left {kind : CallKind} {params : ParamsOf} {regions : CallRegions} {left : UInt64}
    {mem : EvmMemory} (hws : s.evm.state = some ws)
    (h : startCall host kind.transfers params (madeSetup (kind.args s.frame.stack.items) regions left)
      (withMemory mem (paid host (kind.args s.frame.stack.items) left (dropItems kind.count s))) =
        .ok false s') :
    s'.frame.gas = left - setAside left (kind.args s.frame.stack.items).requestedGas ∧
      s'.evm.returnData = s.evm.returnData ∧
      s'.evm.state = some (leftWorld host kind s ws) := by
  have hwarm : (withMemory mem (paid host (kind.args s.frame.stack.items) left
      (dropItems kind.count s))).evm.state = some (warmedWorld host kind s ws) := by
    change s.evm.state.map _ = _
    rw [hws]
    rfl
  unfold leftWorld
  rcases startCall_false hwarm h with ⟨hpoor, hstill⟩ | ⟨hrich, hstill⟩
  · have hpoor' : affords host (warmedWorld host kind s ws) s.frame.address
        (kind.args s.frame.stack.items).value = false := hpoor
    rw [hpoor', Bool.and_false]
    exact ⟨hstill.gas, (congrArg Evm.returnData hstill.evm).trans rfl,
      (congrArg Evm.state hstill.evm).trans hwarm⟩
  · have hrich' : affords host (warmedWorld host kind s ws) s.frame.address
        (kind.args s.frame.stack.items).value = true := hrich
    rw [hrich', Bool.and_true]
    refine ⟨hstill.gas, (congrArg Evm.returnData hstill.evm).trans rfl,
      (congrArg Evm.state hstill.evm).trans ?_⟩
    change Option.map _ (withMemory mem (paid host (kind.args s.frame.stack.items) left
      (dropItems kind.count s))).evm.state = _
    rw [hwarm]
    cases kind.transfers <;> rfl

theorem op_false {kind : CallKind} (h : kind.op host s = .ok false s') :
    ∃ ws, s.evm.state = some ws ∧ FailedCase host kind s s' ws := by
  obtain ⟨params, hop⟩ := kind.op_eq host
  rw [hop] at h
  unfold callWith at h
  obtain ⟨ws, hws, h⟩ := requireState_ok h
  obtain ⟨made, s₁, hprepare, h⟩ := bind_ok h
  refine ⟨ws, hws, ?_⟩
  have hcases := kind.prepare_cases host ws s
  rw [hprepare] at hcases
  cases hcases with
  | deep hitems hdepth =>
    have hstill := giveUp_still h
    exact .deep hdepth hstill.evm hstill.gas
  | @made regions memCost left mem hadmitted hcost hgas hleft hmem =>
    obtain rfl := validateMemoryArgs_inv hadmitted.valid
    obtain ⟨hafter, hdata, hleftState⟩ := startCall_left hws h
    refine .prepared left hadmitted.depth ?_ hafter hdata hleftState
    have hspent := UInt64.toNat_sub_of_le _ _ hgas
    have henough := UInt64.le_iff_toNat_le.mp hgas
    rw [hleft] at hspent
    rw [overheadOf, hws, hcost]
    dsimp only
    omega

theorem gasCapCall_eq_zero_iff (left : UInt64) : gasCapCall left = 0 ↔ left = 0 := by
  have hle : left / 64 ≤ left := by
    rw [UInt64.le_iff_toNat_le, UInt64.toNat_div]
    exact Nat.div_le_self _ _
  rw [← UInt64.toNat_inj, ← UInt64.toNat_inj, gasCapCall, UInt64.toNat_sub_of_le _ _ hle,
    UInt64.toNat_div]
  simp only [UInt64.reduceToNat]
  omega

/-- Nothing is set aside for the child only if nothing is asked for or nothing is left. -/
theorem setAside_eq_zero_iff (left : UInt64) (requested : Word) :
    setAside left requested = 0 ↔ requested.toNat = 0 ∨ left = 0 := by
  have hasked : (if uint256FitsU64 requested then uint256ToU64Unsafe requested else uint64Max) = 0 ↔
      requested.toNat = 0 := by
    by_cases hfits : requested.toNat < 2 ^ 64
    · rw [if_pos ((fitsU64_iff requested).mpr hfits), ← UInt64.toNat_inj, toU64_toNat _ hfits]
      rfl
    · rw [if_neg (mt (fitsU64_iff requested).mp hfits)]
      exact iff_of_false (by decide) (by omega)
  rw [← gasCapCall_eq_zero_iff left, ← hasked]
  unfold setAside callChildGas
  generalize (if uint256FitsU64 requested then uint256ToU64Unsafe requested else uint64Max) = asked
  generalize gasCapCall left = cap
  simp only [← UInt64.toNat_inj, UInt64.lt_iff_toNat_lt, UInt64.reduceToNat]
  split <;> omega

theorem affords_iff (host : Host) (ws : World) (sender : Address) (value : Word) :
    affords host ws sender value = true ↔ value.toNat ≤ (wsGetBalance host ws sender).toNat := by
  rw [affords, Bool.or_eq_true, isZero_iff, Bool.not_eq_true', ← Bool.not_eq_true, lt_iff, not_lt]
  omega

/-- What must hold in front of a call that does not start, for it to take nothing but its
overhead: the return buffer is empty, and below the maximal depth nothing is set aside for the
child and no value moves to another account. -/
structure LeavesNothing (host : Host) (kind : CallKind) (s : Active) : Prop where
  returnData : s.evm.returnData = []
  childGas : s.frame.depth < maxCallDepth →
    (kind.args s.frame.stack.items).requestedGas.toNat = 0 ∨
      s.frame.gas.toNat = overheadOf host kind s
  value : s.frame.depth < maxCallDepth → kind.transfers = true →
    (kind.args s.frame.stack.items).value.toNat ≤ (balanceOf host s.evm s.frame.address).toNat →
      (kind.args s.frame.stack.items).value.toNat = 0 ∨
        addressToKey host (addressFromUint256 (kind.args s.frame.stack.items).addr) =
          addressToKey host s.frame.address

theorem balanceOf_eq (host : Host) {evm : Evm} (h : evm.state = some ws) (addr : Address) :
    balanceOf host evm addr = wsGetBalance host ws addr := by
  rw [balanceOf, h]

theorem wsGetBalance_warmed (host : Host) (kind : CallKind) (s : Active) (ws : World)
    (addr : Address) :
    wsGetBalance host (warmedWorld host kind s ws) addr = wsGetBalance host ws addr := by
  have htrie : (warmedWorld host kind s ws).stateTrie = ws.stateTrie := by
    unfold warmedWorld wsWarmAddress
    split <;> rfl
  unfold wsGetBalance worldStateGetAccount
  rw [htrie]

/-- The balances after a prepared call that does not start. -/
theorem leftWorld_balances_iff [OnArena host] (kind : CallKind) (s : Active)
    (hwell : WellFormed host ws) :
    (∀ addr, wsGetBalance host (leftWorld host kind s ws) addr = wsGetBalance host ws addr) ↔
      (kind.transfers = true →
        (kind.args s.frame.stack.items).value.toNat ≤
          (wsGetBalance host ws s.frame.address).toNat →
        (kind.args s.frame.stack.items).value.toNat = 0 ∨
          addressToKey host (addressFromUint256 (kind.args s.frame.stack.items).addr) =
            addressToKey host s.frame.address) := by
  have hshows : Shows host (warmedWorld host kind s ws) (ledger host ws) :=
    hwell.shows.warmAddress _
  have hafford := affords_iff host (warmedWorld host kind s ws) s.frame.address
    (kind.args s.frame.stack.items).value
  rw [wsGetBalance_warmed] at hafford
  unfold leftWorld
  split
  · next hmoves =>
    rw [Bool.and_eq_true] at hmoves
    have hiff := transferValue_balances_iff hshows
      (addressFromUint256 (kind.args s.frame.stack.items).addr) hmoves.2
    simp only [wsGetBalance_warmed] at hiff
    rw [hiff]
    exact ⟨fun h _ _ => h, fun h => h hmoves.1 (hafford.mp hmoves.2)⟩
  · next hkeeps =>
    rw [Bool.and_eq_true, not_and] at hkeeps
    refine iff_of_true (wsGetBalance_warmed host kind s ws) fun htransfers hrich => ?_
    exact absurd (hafford.mpr hrich) (hkeeps htransfers)

/-- A state whose world state is well formed, as every operation of the interface leaves it. -/
abbrev SoundState (host : Host) :=
  { s : Active // ∀ ws, s.evm.state = some ws → WellFormed host ws }

/-- A call that does not start costs only its overhead if and only if there was nothing to
leave behind. -/
theorem failed_call_costs_iff (host : Host) [OnArena host] (kind : CallKind)
    (s : SoundState host) (s' : Active) (h : kind.op host s.val = .ok false s') :
    CostsOverhead host kind s.val s' ↔ LeavesNothing host kind s.val := by
  obtain ⟨s, hsound⟩ := s
  dsimp only at h ⊢
  obtain ⟨ws, hws, hcase⟩ := op_false h
  cases hcase with
  | deep hdepth hevm hgas =>
    constructor
    · intro hcosts
      have hdata := hcosts.returnData
      rw [hevm] at hdata
      exact ⟨hdata, fun hlow => absurd hlow (not_lt.mpr hdepth),
        fun hlow => absurd hlow (not_lt.mpr hdepth)⟩
    · intro hnothing
      exact ⟨fun addr => by rw [hevm], by rw [hgas]; exact Nat.le_add_right _ _,
        by rw [hevm]; exact hnothing.returnData⟩
  | prepared left hdepth hpaid hgas hdata hstate =>
    have hbalances := leftWorld_balances_iff kind s (hsound ws hws)
    have hbefore := balanceOf_eq host hws
    have hafter := balanceOf_eq host hstate
    have haside := setAside_eq_zero_iff left (kind.args s.frame.stack.items).requestedGas
    have hle := setAside_le left (kind.args s.frame.stack.items).requestedGas
    have hspent := UInt64.toNat_sub_of_le _ _ hle
    rw [← hgas] at hspent
    have hleft : setAside left (kind.args s.frame.stack.items).requestedGas = 0 ↔
        (kind.args s.frame.stack.items).requestedGas.toNat = 0 ∨
          s.frame.gas.toNat = overheadOf host kind s := by
      rw [haside, ← UInt64.toNat_inj]
      exact or_congr_right ⟨fun hzero => by rw [← hpaid, hzero]; exact Nat.zero_add _,
        fun hall => by change _ = 0; omega⟩
    have hleNat := UInt64.le_iff_toNat_le.mp hle
    constructor
    · intro hcosts
      have hgiven := hcosts.gas
      refine ⟨hdata.symm.trans hcosts.returnData, fun _ => hleft.mp ?_, fun _ => ?_⟩
      · rw [← UInt64.toNat_inj]
        change _ = 0
        omega
      · rw [hbefore]
        refine hbalances.mp fun addr => ?_
        rw [← hafter, ← hbefore]
        exact hcosts.balances addr
    · intro hnothing
      refine ⟨fun addr => ?_, ?_, hdata.trans hnothing.returnData⟩
      · rw [hafter, hbefore]
        refine hbalances.mpr ?_ addr
        have hvalue := hnothing.value hdepth
        rwa [hbefore] at hvalue
      · have hzero := hleft.mpr (hnothing.childGas hdepth)
        rw [← UInt64.toNat_inj] at hzero
        change _ = 0 at hzero
        omega

def onEmptyWorld (n : ℕ) (code : Bytes) : SoundState paddedHost where
  val := { afterSteps n code with
    evm := { (afterSteps n code).evm with state := some worldStateCreate } }
  property := by
    rintro ws h
    cases h
    exact wellFormed_create _

def poorCall : SoundState paddedHost :=
  onEmptyWorld 7 [0x5f, 0x5f, 0x5f, 0x5f, 0x60, 0x01, 0x5f, 0x5f]

def poorCallWithGas : SoundState paddedHost :=
  onEmptyWorld 7 [0x5f, 0x5f, 0x5f, 0x5f, 0x60, 0x01, 0x5f, 0x61, 0xff, 0xff]

theorem failed_call_costs_poor : ∃ s',
    CallKind.call.op paddedHost poorCall.val = .ok false s' ∧
    CostsOverhead paddedHost .call poorCall.val s' := by
  refine ⟨_, rfl, (failed_call_costs_iff paddedHost .call poorCall _ rfl).mpr
    ⟨rfl, fun _ => Or.inl (by decide +kernel), fun _ _ hrich => absurd hrich (by decide +kernel)⟩⟩

theorem failed_call_keeps_gas : ∃ s',
    CallKind.call.op paddedHost poorCallWithGas.val = .ok false s' ∧
    ¬CostsOverhead paddedHost .call poorCallWithGas.val s' :=
  ⟨_, rfl, fun h => absurd h.gas (by decide +kernel)⟩

end Failures

end Div0.FailedCalls
