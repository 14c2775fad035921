import Div0.MemoryPricing
import Div0.OpEffects

/-!
What the call opcodes do. The overhead of a call with value is larger than the stipend
that the child gets for free, so the gas of the caller and of the child together is at
most what the caller had. This needs the cost of the memory expansion not to wrap round:
the memory of a frame fits a block of the arena, and below 2^32 words the price is a
growing function.
-/

namespace Div0.CallEffects

open Effects EvmContext Memory Node Uint256 WorldState WorldLedger Ledgers Frame Opcodes StateOps
open CallOps Interpreter OpEffects MemoryPricing

variable {host : Host}

section Gas

/-- The price of a memory within a block does not exceed that of a larger memory, even
where the square of the latter wraps round. -/
theorem memoryPrice_le {current new : UInt64} (hcurrent : current.toNat ≤ 2048)
    (hnew : new.toNat < 2 ^ 59) (hlt : current.toNat < new.toNat) :
    (memoryPrice current).toNat ≤ (memoryPrice new).toNat := by
  rw [memoryPrice_toNat (by omega), memoryPrice_toNat hnew]
  have hsmall : current.toNat * current.toNat ≤ 2048 * 2048 := Nat.mul_le_mul hcurrent hcurrent
  by_cases hwide : new.toNat < 2 ^ 32
  · have hexact : new.toNat * new.toNat < 2 ^ 64 := by
      calc new.toNat * new.toNat < 2 ^ 32 * 2 ^ 32 := Nat.mul_lt_mul'' hwide hwide
        _ = 2 ^ 64 := by norm_num
    have hsquares : current.toNat * current.toNat ≤ new.toNat * new.toNat :=
      Nat.mul_le_mul (le_of_lt hlt) (le_of_lt hlt)
    omega
  · omega

theorem expansionCost_lt {current new : UInt64} (hcurrent : current.toNat ≤ 2048)
    (hnew : new.toNat < 2 ^ 59) : (evmMemoryExpansionCost current new).toNat < 2 ^ 62 := by
  unfold evmMemoryExpansionCost
  split
  · decide
  · next hgrows =>
    have hlt : current.toNat < new.toNat := by
      rwa [UInt64.le_iff_toNat_le, not_le] at hgrows
    have hle := memoryPrice_le hcurrent hnew hlt
    have hprice := memoryPrice_toNat hnew
    rw [UInt64.toNat_sub_of_le _ _ (UInt64.le_iff_toNat_le.mpr hle)]
    omega

theorem inBlock_words_le {mem : EvmMemory} (h : InBlock mem) :
    (evmMemorySize mem / 32).toNat ≤ 2048 := by
  have hfits := mem.fits
  unfold InBlock at h
  rw [UInt64.toNat_div, evmMemorySize_toNat]
  simp only [UInt64.reduceToNat]
  omega

theorem callMemoryCost_lt {mem : EvmMemory} (h : InBlock mem) {r : CallRegions} {cost : UInt64}
    (hcost : callMemoryCost mem r = some cost) : cost.toNat < 2 ^ 62 := by
  unfold callMemoryCost at hcost
  split at hcost
  · cases hcost
  split at hcost
  · cases hcost
    decide
  · cases hcost
    exact expansionCost_lt (inBlock_words_le h) (div32_lt _)

/-- Every call costs at least a hundred, and a call with value that much more than the
stipend. -/
theorem stipend_lt_callGasCost {wasCold transfersValue isNewAccount : Bool} {memCost : UInt64}
    (h : memCost.toNat < 2 ^ 62) :
    (stipend transfersValue).toNat + 100 ≤
      (callGasCost wasCold transfersValue isNewAccount memCost).toNat := by
  cases transfersValue <;> cases wasCold <;> cases isNewAccount <;>
    simp only [stipend, callGasCost, accountAccessCost, gasCallStipend, gasCallValue,
      gasNewAccount, gasColdAccountAccess, gasWarmAccess, UInt64.toNat_add, if_true,
      Bool.false_eq_true, if_false, UInt64.reduceToNat] <;> omega

theorem callChildGas_le (gasLeft requested : UInt64) : callChildGas gasLeft requested ≤ gasLeft := by
  have hcap : gasCapCall gasLeft ≤ gasLeft := UInt64.sub_le (by
    rw [UInt64.le_iff_toNat_le, UInt64.toNat_div]
    exact Nat.div_le_self _ _)
  unfold callChildGas
  dsimp only
  split
  · next hlt => exact UInt64.le_trans (UInt64.le_of_lt hlt) hcap
  · exact hcap

end Gas

variable {s s' : Active} {error : EvmStatus} {setup : CallSetup} {popArgs : Op CallStackArgs}

variable {α : Type} {items : ℕ}

section Prepare

/-- The caller and the child together have what the caller had, without the overhead and
with the stipend. -/
theorem divideGas_exact {overhead : UInt64} {requested : Word} {transfersValue : Bool}
    {childGas : UInt64} (hoverhead : (stipend transfersValue).toNat ≤ overhead.toNat)
    (h : divideGas overhead requested transfersValue s = .ok childGas s') :
    s'.frame.gas.toNat + childGas.toNat + overhead.toNat =
      s.frame.gas.toNat + (stipend transfersValue).toNat := by
  unfold divideGas at h
  obtain ⟨_, s₁, hfirst, h⟩ := bind_ok h
  obtain ⟨henough, rfl⟩ := charge_inv hfirst
  obtain ⟨_, _, ⟨⟩, h⟩ := bind_ok h
  obtain ⟨_, s₃, hsecond, h⟩ := bind_ok h
  obtain ⟨-, rfl⟩ := charge_inv hsecond
  cases h
  dsimp only
  generalize (if uint256FitsU64 requested then uint256ToU64Unsafe requested else uint64Max) = asked
  have hchild := UInt64.le_iff_toNat_le.mp (callChildGas_le (s.frame.gas - overhead) asked)
  have hleft := UInt64.toNat_sub_of_le _ _ henough
  have hlt := s.frame.gas.toNat_lt
  have hle := UInt64.le_iff_toNat_le.mp henough
  generalize callChildGas (s.frame.gas - overhead) asked = child at hchild ⊢
  generalize s.frame.gas - overhead = left at hchild hleft ⊢
  -- the stipend fits, because the overhead that was paid is larger
  have hsum : (child + stipend transfersValue).toNat =
      child.toNat + (stipend transfersValue).toNat := by
    rw [UInt64.toNat_add]
    omega
  have hback : child + stipend transfersValue - stipend transfersValue = child :=
    UInt64.add_sub_cancel child _
  have henoughLeft : ¬left < child := UInt64.not_lt.mpr (UInt64.le_iff_toNat_le.mpr hchild)
  rw [hback, if_neg henoughLeft, hsum,
    UInt64.toNat_sub_of_le _ _ (UInt64.le_iff_toNat_le.mpr hchild)]
  omega

variable {ws : World}

theorem calculateCallGas_gas {target : Address} {requested : Word} {r : CallRegions}
    {transfersValue isNewAccount : Bool} {childGas : UInt64} (hmem : InBlock s.frame.memory)
    (h : calculateCallGas host ws target requested r transfersValue isNewAccount s =
      .ok childGas s') :
    s'.frame.gas.toNat + childGas.toNat + 100 ≤ s.frame.gas.toNat := by
  unfold calculateCallGas at h
  obtain ⟨_, _, ⟨⟩, h⟩ := bind_ok h
  obtain ⟨_, _, ⟨⟩, h⟩ := bind_ok h
  dsimp only at h
  cases hcost : callMemoryCost s.frame.memory r with
  | none =>
    rw [hcost] at h
    cases h
  | some memCost =>
    rw [hcost] at h
    have hpaid : ∀ wasCold, (stipend transfersValue).toNat + 100 ≤
        (callGasCost wasCold transfersValue isNewAccount memCost).toNat :=
      fun _ => stipend_lt_callGasCost (callMemoryCost_lt hmem hcost)
    have hexact := divideGas_exact (le_of_add_le_left (hpaid _)) h
    have hoverhead := hpaid (wsWarmAddress host ws target).1
    dsimp only at hexact
    omega

variable [OnArena host]

instance (r : CallRegions) : Every (Kept Forward) (expandCallMemory host r) := by
  refine ⟨keeps_getFrame fun s => ?_⟩
  dsimp only
  split
  · cases hexpand : evmMemoryExpand host.alloc s.frame.memory 0 (maxEnd r) with
    | expanded cost mem => exact forward_memory fun hmem => hmem.expand hexpand
    | refused => exact refl_of Forward s
    | diverges => exact refl_of Forward s
  · exact refl_of Forward s

/-- What a set-up call leaves: the gas is divided, and in a static frame no value is sent. -/
structure Prepared (s s' : Active) (setup : CallSetup) (args : CallStackArgs) : Prop where
  forward : Forward s s'
  gas : InBlock s.frame.memory →
    s'.frame.gas.toNat + setup.childGas.toNat + 100 ≤ s.frame.gas.toNat
  value : setup.value = args.value
  static : s.frame.isStatic = true → uint256IsZero args.value = true

theorem require_inv {c : Bool} {u : Unit} (h : require c error s = .ok u s') :
    c = true ∧ s = s' := by
  cases c with
  | false => cases h
  | true =>
    cases h
    exact ⟨rfl, rfl⟩

theorem setUpCall_prepared {chargesNewAccount : Bool} {args : CallStackArgs}
    {regions : CallRegions}
    (h : setUpCall host chargesNewAccount ws args regions s = .ok setup s') :
    Prepared s s' setup args := by
  have hforward : Forward s s' := Keeps.ok inferInstance h
  unfold setUpCall at h
  obtain ⟨_, _, ⟨⟩, h⟩ := bind_ok h
  obtain ⟨_, s₂, hstatic, h⟩ := bind_ok h
  obtain ⟨hallowed, rfl⟩ := require_inv hstatic
  obtain ⟨childGas, s₃, hgas, h⟩ := bind_ok h
  obtain ⟨_, s₄, hexpand, h⟩ := bind_ok h
  have hexpanded : Forward s₃ s₄ := Keeps.ok inferInstance hexpand
  cases h
  refine ⟨hforward, fun hmem => ?_, rfl, fun hset => ?_⟩
  · have hsplit := calculateCallGas_gas hmem hgas
    have hafter := UInt64.le_iff_toNat_le.mp hexpanded.gas
    dsimp only
    omega
  · rw [hset] at hallowed
    simpa using hallowed

theorem hasItems_inv {n : ℕ} {u : Unit} (h : hasItems n s = .ok u s') :
    evmStackHasItems s.frame.stack n = true ∧ s = s' := by
  obtain ⟨_, _, ⟨⟩, h⟩ := bind_ok h
  exact require_inv h

theorem hasItems_ok {n : ℕ} {f : Unit → Op α} {a : α} (h : (hasItems n >>= f) s = .ok a s') :
    n ≤ s.frame.stack.items.length ∧ f () s = .ok a s' := by
  obtain ⟨_, s₁, hitems, h⟩ := bind_ok h
  obtain ⟨henough, rfl⟩ := hasItems_inv hitems
  exact ⟨of_decide_eq_true henough, h⟩

/-- A call that is set up was issued below the maximal depth. -/
theorem prepare_prepared {chargesNewAccount : Bool} [hpop : Every (Kept Forward) popArgs]
    (h : prepare host items popArgs chargesNewAccount ws s = .ok (some setup) s') :
    s.frame.depth < maxCallDepth ∧
      ∃ args s₁, popArgs s = .ok args s₁ ∧ Prepared s s' setup args := by
  unfold prepare at h
  obtain ⟨-, h⟩ := hasItems_ok h
  obtain ⟨_, _, ⟨⟩, h⟩ := bind_ok h
  split at h
  · obtain ⟨_, _, _, ⟨⟩⟩ := bind_ok h
  · next hdepth =>
    obtain ⟨args, s₃, hargs, h⟩ := bind_ok h
    have hkept : Forward s s₃ := hpop.holds.ok hargs
    cases hregions : validateMemoryArgs args with
    | none =>
      rw [hregions] at h
      cases h
    | some regions =>
      rw [hregions] at h
      obtain ⟨made, s₄, hsetup, h⟩ := bind_ok h
      cases h
      have hmade := setUpCall_prepared hsetup
      refine ⟨not_le.mp hdepth, args, s₃, hargs, trans_of Forward hkept hmade.forward, ?_, hmade.value,
        fun hset => hmade.static (hkept.isStatic.trans hset)⟩
      intro hmem
      exact le_trans (hmade.gas (hkept.memory hmem)) (UInt64.le_iff_toNat_le.mp hkept.gas)

end Prepare

variable {value : Word}

section Value

variable {ws : World} {l : Ledger Hash}

theorem affords_le (h : Shows host ws l) {sender : Address}
    (hafford : affords host ws sender value = true) :
    value.toNat ≤ l.balance (addressToKey host sender) := by
  rw [affords, Bool.or_eq_true, isZero_iff, Bool.not_eq_true'] at hafford
  rcases hafford with hzero | henough
  · omega
  · rw [wsGetBalance_eq] at henough
    rw [← h.balance_eq sender]
    by_contra hlt
    rw [(lt_iff _ _).mpr (not_le.mp hlt)] at henough
    cases henough

theorem transferValue_shows [OnArena host] (h : Shows host ws l)
    {sender : Address} (target : Address)
    (hle : value.toNat ≤ l.balance (addressToKey host sender)) :
    ∃ l', Shows host (transferValue host sender target value ws) l' ∧ l.Rearranged (2 ^ 256) l' := by
  unfold transferValue
  split
  · exact ⟨l, h, .refl _ l⟩
  · exact ⟨_, ((h.subBalance sender value).2).addBalance target value,
      Ledger.rearranged_transfer _ hle⟩

theorem requireState_eq (error : EvmStatus) (s : Active) :
    requireState error s =
      match s.evm.state with
      | some ws => .ok ws s
      | none => .error (.status error) s := by
  change (match s.evm.state with
    | some ws => pure ws
    | none => fail error : Op World) s = _
  cases s.evm.state <;> rfl

theorem requireState_inv (h : requireState error s = .ok ws s') :
    s.evm.state = some ws ∧ s = s' := by
  rw [requireState_eq] at h
  cases hstate : s.evm.state with
  | none =>
    rw [hstate] at h
    cases h
  | some found =>
    rw [hstate] at h
    cases h
    exact ⟨rfl, rfl⟩

theorem requireState_ok {f : World → Op α} {a : α} (h : (requireState error >>= f) s = .ok a s') :
    ∃ ws, s.evm.state = some ws ∧ f ws s = .ok a s' := by
  obtain ⟨ws, s₁, hstate, h⟩ := bind_ok h
  obtain ⟨hws, rfl⟩ := requireState_inv hstate
  exact ⟨ws, hws, h⟩

/-- A program that reads the state access first; its effect may depend on what it read. -/
theorem keeps_requireState {R : Active → Active → Prop} [Std.Refl R] {f : World → Op α}
    (h : ∀ (s : Active) (ws : World), s.evm.state = some ws → R s (after (f ws) s)) :
    Keeps R (requireState error >>= f) where
  keeps s := by
    have hread := requireState_eq error s
    cases hstate : s.evm.state with
    | none =>
      rw [hstate] at hread
      have hrun : (requireState error >>= f) s = .error (.status error) s := by
        rw [bind_apply, hread]
      rw [after_of_error hrun]
      exact refl_of R s
    | some ws =>
      rw [hstate] at hread
      have hafter : after (requireState error >>= f) s = after (f ws) s := by
        simp only [after, bind_apply, hread]
      rw [hafter]
      exact h s ws hstate

instance [OnArena host] (transfers : Bool) (setup : CallSetup) :
    Keeps (Ordinary host) (sendValue host transfers setup) := by
  apply keeps_requireState
  intro s ws hstate
  change Ordinary host s (after (if affords host ws s.frame.address setup.value then _ else _) s)
  split
  · next hafford =>
    have hmoves : ∀ ws' l, s.evm.state = some ws' → Shows host ws' l → ∃ l',
        Shows host ((if transfers then transferValue host s.frame.address setup.target setup.value
          else id) ws') l' ∧ l.Rearranged (2 ^ 256) l' := by
      intro ws' l hws' hshows
      obtain rfl : ws = ws' := Option.some.inj (hstate.symm.trans hws')
      cases transfers with
      | false => exact ⟨l, hshows, .refl _ l⟩
      | true => exact transferValue_shows hshows _ (affords_le hshows hafford)
    exact ordinary_state hmoves
  · exact refl_of (Ordinary host) s

/-- Without value to transfer, nothing is written. -/
theorem sendValue_forward {transfers : Bool}
    (h : transfers = false ∨ uint256IsZero setup.value = true) :
    Keeps Forward (sendValue host transfers setup) := by
  have hnothing : ∀ sender : Address, (if transfers then
      transferValue host sender setup.target setup.value else id) = id := by
    intro sender
    rcases h with rfl | hzero
    · rfl
    · cases transfers with
      | false => rfl
      | true =>
        funext ws
        simp only [transferValue, hzero, if_true, id_eq]
  have hupdate : Keeps Forward (updateState id) := keeps_updateState fun _ => rfl
  unfold sendValue
  simp only [hnothing]
  infer_instance

end Value

section Start

instance {R : Active → Active → Prop} (child : CallFrame) (r : CallRegions) :
    KeepsUnless R true (switchTo child r >>= fun _ => pure true : Op Bool) :=
  keepsUnless_of_returns fun _ => ⟨_, rfl⟩

instance (setup : CallSetup) (params : ChildFrameParams) :
    KeepsUnless Forward true (enterChild setup params) := by
  unfold enterChild
  infer_instance

theorem enterChild_inv {params : ChildFrameParams} (h : enterChild setup params s = .ok true s') :
    s.evm.framePoolDepth < evmMaxCallDepth ∧ s.evm.memoryPoolDepth < evmMaxCallDepth ∧
      ∃ s₁ code input, Forward s s₁ ∧
        s' = after (switchTo (childFrame s₁.frame setup code input params) setup.regions) s₁ := by
  unfold enterChild at h
  obtain ⟨ws, -, h⟩ := requireState_ok h
  obtain ⟨_, _, ⟨⟩, h⟩ := bind_ok h
  split at h
  · next hframes =>
    split at h
    · next hmemories =>
      obtain ⟨input, s₃, hinput, h⟩ := bind_ok h
      obtain ⟨_, _, ⟨⟩, h⟩ := bind_ok h
      obtain ⟨_, s₅, hswitch, h⟩ := bind_ok h
      cases h
      exact ⟨hframes, hmemories, s₃, _, input, Keeps.ok inferInstance hinput,
        (after_of_ok hswitch).symm⟩
    · cases h
  · obtain ⟨_, _, _, ⟨⟩⟩ := bind_ok h

/-- A call that starts is prepared, can be paid for, and finds a frame for the child. -/
theorem callWith_true {prep : World → Op (Option CallSetup)} {transfers : Bool}
    {params : ParamsOf} (h : callWith host prep transfers params s = .ok true s') :
    ∃ ws setup s₁ s₂, prep ws s = .ok (some setup) s₁ ∧
      sendValue host transfers setup s₁ = .ok true s₂ ∧
      enterChild setup (params s₂.frame setup) s₂ = .ok true s' := by
  obtain ⟨ws, -, h⟩ := requireState_ok h
  obtain ⟨made, s₁, hmade, h⟩ := bind_ok h
  cases made with
  | none =>
    obtain ⟨_, _, _, ⟨⟩⟩ := bind_ok h
  | some setup =>
    obtain ⟨sent, s₂, hsend, h⟩ := bind_ok h
    cases sent with
    | false =>
      obtain ⟨_, _, _, ⟨⟩⟩ := bind_ok h
    | true =>
      obtain ⟨_, _, ⟨⟩, h⟩ := bind_ok h
      exact ⟨ws, setup, s₁, s₂, hmade, hsend, h⟩

/-- A call that transfers nothing, is made in a static frame, or names the value 0. -/
def Calm (popArgs : Op CallStackArgs) (transfers : Bool) (s : Active) : Prop :=
  transfers = false ∨ s.frame.isStatic = true ∨
    ∀ args s₁, popArgs s = .ok args s₁ → uint256IsZero args.value = true

theorem Prepared.unpaid {s₁ : Active} {args : CallStackArgs} {transfers : Bool}
    (h : Prepared s s' setup args) (hargs : popArgs s = .ok args s₁)
    (hcalm : Calm popArgs transfers s) :
    transfers = false ∨ uint256IsZero setup.value = true := by
  rw [h.value]
  rcases hcalm with hnone | hset | hvalue
  · exact Or.inl hnone
  · exact Or.inr (h.static hset)
  · exact Or.inr (hvalue args s₁ hargs)

/-- What a call leaves behind that starts. Where it is `calm`, no value is sent. -/
structure Starts (host : Host) (calm : Prop) (s s' : Active) (child : CallFrame) : Prop where
  entered : ∃ s₁ r, Ordinary host s s₁ ∧ (calm → Forward s s₁) ∧ s' = after (switchTo child r) s₁
  gas : InBlock s.frame.memory →
    s'.frame.gas.toNat + child.gas.toNat + 100 ≤ s.frame.gas.toNat
  limit : s.frame.depth < maxCallDepth
  pools : s.evm.framePoolDepth < evmMaxCallDepth ∧ s.evm.memoryPoolDepth < evmMaxCallDepth
  depth : child.depth = s.frame.depth + 1
  static : s.frame.isStatic = true → child.isStatic = true
  stack : child.stack = evmStackInit
  memory : child.memory = evmMemoryInit
  entry : child.pc = 0 ∧ child.jumpdestBitmap = none

variable [OnArena host]

instance (transfers : Bool) (params : ParamsOf) (setup : CallSetup) :
    KeepsUnless (Ordinary host) true (startCall host transfers params setup) := by
  have hfinal : ∀ params, KeepsUnless (Ordinary host) true (enterChild setup params) :=
    fun _ => KeepsUnless.mono (R := Forward) (fun _ _ h => h.ordinary) inferInstance
  unfold startCall
  infer_instance

instance (prep : World → Op (Option CallSetup)) (transfers : Bool) (params : ParamsOf)
    [∀ ws, Keeps Forward (prep ws)] :
    KeepsUnless (Ordinary host) true (callWith host prep transfers params) := by
  unfold callWith
  refine keepsUnless_then fun ws => keepsUnless_then fun made => ?_
  split <;> infer_instance

/-- The opcodes for calls: those that start a child, with the state just before. -/
theorem callWith_starts {chargesNewAccount transfers : Bool} {params : ParamsOf} {calm : Prop}
    [Every (Kept Forward) popArgs]
    (hstatic : ∀ frame setup, frame.isStatic = true → (params frame setup).isStatic = true)
    (hcalm : calm → Calm popArgs transfers s)
    (h : callWith host (prepare host items popArgs chargesNewAccount) transfers params s =
      .ok true s') : ∃ child, Starts host calm s s' child := by
  obtain ⟨ws, setup, s₂, s₃, hmade, hsend, h⟩ := callWith_true h
  obtain ⟨hlimit, args, s₀, hargs, hprepared⟩ := prepare_prepared hmade
  have hsent : Ordinary host s₂ s₃ := Keeps.ok inferInstance hsend
  obtain ⟨hframes, hmemories, s₅, code, input, hlast, rfl⟩ := enterChild_inv h
  have hbefore : Ordinary host s s₃ := trans_of (Ordinary host) hprepared.forward.ordinary hsent
  have hentered : Ordinary host s s₅ := trans_of (Ordinary host) hbefore hlast.ordinary
  have hforward : calm → Forward s s₅ := by
    intro hc
    have hnothing : Keeps Forward (sendValue host transfers setup) :=
      sendValue_forward (hprepared.unpaid hargs (hcalm hc))
    exact trans_of Forward (trans_of Forward hprepared.forward (hnothing.ok hsend)) hlast
  have hpools := congrArg Evm.framePoolDepth hbefore.evm
  have hmemoryPools := congrArg Evm.memoryPoolDepth hbefore.evm
  refine ⟨_, ⟨s₅, _, hentered, hforward, rfl⟩, fun hmem => ?_, hlimit, ?_, ?_, ?_, rfl, rfl,
    rfl, rfl⟩
  · have hsplit := hprepared.gas hmem
    have hsendGas := UInt64.le_iff_toNat_le.mp hsent.gas
    have hlastGas := UInt64.le_iff_toNat_le.mp hlast.gas
    change s₅.frame.gas.toNat + setup.childGas.toNat + 100 ≤ _
    omega
  · exact ⟨hpools ▸ hframes, hmemoryPools ▸ hmemories⟩
  · change s₅.frame.depth + 1 = _
    rw [hentered.depth]
  · intro hset
    have hkept : s₃.frame.isStatic = s.frame.isStatic :=
      (congrArg CallFrame.isStatic hbefore.frame :)
    exact hstatic _ _ (hkept.trans hset)

end Start

section Dispatch

/-- The opcode that is dispatched next; `none` at the end of the code. -/
def nextOpcode (frame : CallFrame) : Option Opcode := (frame.code[frame.pc]?).map dispatchTable

def carriesValue (stack : EvmStack) : Bool :=
  (stack.items[2]?).any fun value => !uint256IsZero value

def writesNext (frame : CallFrame) : Bool :=
  match nextOpcode frame with
  | some .call => carriesValue frame.stack
  | some opcode => isWriteOp opcode
  | none => false

/-- The byte of the next opcode is read. -/
abbrev fetched (s : Active) : Active := { s with frame := { s.frame with pc := s.frame.pc + 1 } }

/-- A dispatch is the handler of the next opcode, one byte further. -/
theorem dispatch_eq (host : Host) (s : Active) : dispatch host s =
    match nextOpcode s.frame with
    | none => .ok (some .stop) s
    | some opcode => handler host (gasTable s.evm.fork) (gasSchedule s.evm.fork) opcode
        (fetched s) := by
  have hget : (get : Op Active) s = .ok s s := rfl
  unfold dispatch nextOpcode
  rw [bind_of_ok hget]
  cases s.frame.code[s.frame.pc]? <;> rfl

theorem after_dispatch (host : Host) (s : Active) : after (dispatch host) s =
    match nextOpcode s.frame with
    | none => s
    | some opcode => after (handler host (gasTable s.evm.fork) (gasSchedule s.evm.fork) opcode)
        (fetched s) := by
  unfold after
  rw [dispatch_eq]
  cases nextOpcode s.frame <;> rfl

/-- Only the end of the code stops a frame without an instruction. -/
theorem dispatch_inv {result : Option FrameResult}
    (h : dispatch host s = .ok result s') (hresult : result ≠ some .stop) :
    ∃ opcode, nextOpcode s.frame = some opcode ∧
      handler host (gasTable s.evm.fork) (gasSchedule s.evm.fork) opcode (fetched s) =
        .ok result s' := by
  rw [dispatch_eq] at h
  cases hop : nextOpcode s.frame with
  | none =>
    rw [hop] at h
    cases h
    exact absurd rfl hresult
  | some opcode =>
    rw [hop] at h
    exact ⟨opcode, rfl, h⟩

theorem pop_inv (h : pop s = .ok value s') :
    s.frame.stack.items = value :: s'.frame.stack.items := by
  obtain ⟨_, _, ⟨⟩, h⟩ := bind_ok h
  obtain ⟨⟨top, stack⟩, s₂, hpop, h⟩ := bind_ok h
  obtain ⟨_, _, ⟨⟩, h⟩ := bind_ok h
  cases h
  rcases hstack : s.frame.stack with ⟨items, capacity, fits, bounded⟩
  rw [hstack] at hpop
  cases items with
  | nil => cases hpop
  | cons first rest =>
    cases hpop
    rfl

theorem popCallArgs_value {args : CallStackArgs} (h : popCallArgs s = .ok args s')
    (hnone : carriesValue s.frame.stack = false) : uint256IsZero args.value = true := by
  unfold popCallArgs at h
  obtain ⟨_, s₁, hgas, h⟩ := bind_ok h
  obtain ⟨_, s₂, haddr, h⟩ := bind_ok h
  obtain ⟨value, s₃, hvalue, h⟩ := bind_ok h
  obtain ⟨_, _, _, h⟩ := bind_ok h
  obtain ⟨_, _, _, h⟩ := bind_ok h
  obtain ⟨_, _, _, h⟩ := bind_ok h
  obtain ⟨_, _, _, ⟨⟩⟩ := bind_ok h
  simpa [carriesValue, pop_inv hgas, pop_inv haddr, pop_inv hvalue] using hnone

variable [OnArena host]

theorem next_ok {op : Op Unit} {result : Option FrameResult} (h : next op s = .ok result s') :
    result = none := by
  obtain ⟨_, _, _, ⟨⟩⟩ := bind_ok h
  rfl

theorem nextCall_ok {op : Op Bool} (h : nextCall op s = .ok (some .call) s') :
    op s = .ok true s' := by
  obtain ⟨called, s₁, hop, h⟩ := bind_ok h
  cases called with
  | false => cases h
  | true =>
    cases h
    exact hop

instance {R : Active → Active → Prop} (op : Op Bool) [hop : KeepsUnless R true op] :
    KeepsUnless R (some .call) (nextCall op) where
  keeps s hnot := by
    cases hrun : op s with
    | error e s' =>
      have heq : nextCall op s = .error e s' := by rw [nextCall, bind_apply, hrun]
      rw [after_of_error heq]
      exact hop.error hrun
    | ok called s' =>
      cases called with
      | true => exact absurd (by rw [nextCall, bind_apply, hrun]; rfl) (hnot s')
      | false =>
        have heq : nextCall op s = .ok none s' := by rw [nextCall, bind_apply, hrun]; rfl
        rw [after_of_ok heq]
        exact hop.ok hrun Bool.false_ne_true

variable {opcode : Opcode} {cost : Opcode → UInt64} {schedule : GasSchedule}

theorem handler_keepsUnless :
    KeepsUnless (Ordinary host) (some .call) (handler host cost schedule opcode) := by
  cases hcall : isCallOp opcode with
  | false =>
    have hkept : Keeps (Ordinary host) (handler host cost schedule opcode) :=
      handler_ordinary hcall
    infer_instance
  | true =>
    cases opcode <;> simp only [isCallOp, Bool.false_eq_true] at hcall <;>
      simp only [handler] <;> infer_instance

omit [OnArena host] in
/-- Only the call opcodes leave a frame for a child. -/
theorem isCallOp_of_handler
    (h : handler host cost schedule opcode s = .ok (some .call) s') : isCallOp opcode = true := by
  cases opcode
  case call | callcode | delegatecall | staticcall => rfl
  case stop | invalid => cases h
  case return_ | revert =>
    obtain ⟨_, _, _, ⟨⟩⟩ := bind_ok h
  all_goals exact absurd (next_ok h) (Option.some_ne_none _)

theorem handler_starts (h : handler host cost schedule opcode s = .ok (some .call) s') :
    isCallOp opcode = true ∧ ∃ child, Starts host
      (s.frame.isStatic = true ∨ opcode ≠ .call ∨ carriesValue s.frame.stack = false) s s' child := by
  have hcall := isCallOp_of_handler h
  refine ⟨hcall, ?_⟩
  cases opcode <;> simp only [isCallOp, Bool.false_eq_true] at hcall
  case call =>
    refine callWith_starts (fun _ _ => id) ?_ (nextCall_ok h)
    rintro (hstatic | hother | hnone)
    · exact Or.inr (Or.inl hstatic)
    · exact absurd rfl hother
    · exact Or.inr (Or.inr fun args s₁ hargs => popCallArgs_value hargs hnone)
  case callcode | delegatecall =>
    exact callWith_starts (fun _ _ => id) (fun _ => Or.inl rfl) (nextCall_ok h)
  case staticcall => exact callWith_starts (fun _ _ _ => rfl) (fun _ => Or.inl rfl) (nextCall_ok h)

def Sealed (s s' : Active) : Prop := s.frame.isStatic = true → Quiet s s'

instance : IsPreorder Active Sealed where
  refl s _ := refl_of Quiet s
  trans _ _ _ h h' hstatic :=
    trans_of Quiet (h hstatic) (h' ((h hstatic).isStatic.trans hstatic))

instance (priority := low) keeps_sealed (m : Op α) [h : Keeps Quiet m] : Keeps Sealed m :=
  ⟨fun s _ => h.keeps s⟩

instance (error : EvmStatus) (rest : Op α) :
    Keeps Sealed (getFrame >>= fun frame => require (!frame.isStatic) error >>= fun _ => rest) := by
  apply keeps_getFrame
  intro s hstatic
  have hfails : (require (!s.frame.isStatic) error >>= fun _ => rest) s =
      .error (.status error) s := by
    rw [hstatic]
    rfl
  rw [after_of_error hfails]
  exact refl_of Quiet s

theorem handler_sealed (hcall : isCallOp opcode = false) :
    Keeps Sealed (handler host cost schedule opcode) := by
  cases hwrite : isWriteOp opcode with
  | false =>
    have hquiet : Keeps Quiet (handler host cost schedule opcode) :=
      handler_quiet hcall hwrite
    infer_instance
  | true =>
    cases opcode <;> simp only [isWriteOp, Bool.false_eq_true] at hwrite <;>
      simp only [handler, next, opSstore, opLogN] <;> infer_instance

variable {s : Active}

/-- A call that sends no value and does not start. -/
theorem callWith_quiet {chargesNewAccount transfers : Bool} {params : ParamsOf}
    [Every (Kept Forward) popArgs] (hcalm : Calm popArgs transfers s)
    (hnot : ∀ s', callWith host (prepare host items popArgs chargesNewAccount) transfers params s ≠
      .ok true s') :
    Quiet s (after (callWith host (prepare host items popArgs chargesNewAccount) transfers params) s) := by
  refine Forward.toQuiet (after_bind (Keeps.keeps s) ?_ hnot)
  intro ws s₁ hstate
  obtain ⟨-, rfl⟩ := requireState_inv hstate
  refine after_bind (Keeps.keeps s) ?_
  intro made s₂ hmade
  cases made with
  | none => exact KeepsUnless.keeps (v := true) (m := giveUp) s₂
  | some setup =>
    obtain ⟨-, args, s₀, hargs, hprepared⟩ := prepare_prepared hmade
    have hsend : Keeps Forward (sendValue host transfers setup) :=
      sendValue_forward (hprepared.unpaid hargs hcalm)
    have hstart : KeepsUnless Forward true (startCall host transfers params setup) := by
      unfold startCall
      infer_instance
    exact hstart.keeps s₂

theorem nextCall_quiet {op : Op Bool} (h : (∀ s', op s ≠ .ok true s') → Quiet s (after op s))
    (hnot : ∀ s', nextCall op s ≠ .ok (some .call) s') : Quiet s (after (nextCall op) s) := by
  refine after_bind (v := some FrameResult.call) ?_ ?_ hnot
  · apply h
    intro s' hrun
    exact hnot s' (by rw [nextCall, bind_apply, hrun]; rfl)
  · intro called s₁ _ _
    cases called <;> exact refl_of Quiet s₁

/-- An instruction that does not write, or is dispatched in a static frame. -/
theorem handler_calm (hcalm : s.frame.isStatic = true ∨
      (isWriteOp opcode = false ∧ (opcode = .call → carriesValue s.frame.stack = false)))
    (hnot : ∀ s', handler host cost schedule opcode s ≠ .ok (some .call) s') :
    Quiet s (after (handler host cost schedule opcode) s) := by
  cases hcall : isCallOp opcode with
  | false =>
    rcases hcalm with hstatic | ⟨hwrite, -⟩
    · exact (handler_sealed hcall).keeps s hstatic
    · exact (handler_quiet hcall hwrite).keeps s
  | true =>
    cases opcode <;> simp only [isCallOp, Bool.false_eq_true] at hcall
    case callcode | delegatecall | staticcall =>
      exact nextCall_quiet (callWith_quiet (Or.inl rfl)) hnot
    case call =>
      refine nextCall_quiet (callWith_quiet ?_) hnot
      rcases hcalm with hstatic | ⟨-, hvalue⟩
      · exact Or.inr (Or.inl hstatic)
      · exact Or.inr (Or.inr fun args s₁ hargs => popCallArgs_value hargs (hvalue rfl))

/-- Going on to the next byte. -/
theorem forward_advance (s : Active) : Forward s (fetched s) :=
  forward_frame (UInt64.le_refl _) (le_refl _) (Nat.le_succ _) id rfl

theorem ordinary_dispatch (s : Active) (hnot : ∀ s', dispatch host s ≠ .ok (some .call) s') :
    Ordinary host s (after (dispatch host) s) := by
  rw [dispatch_eq] at hnot
  rw [after_dispatch]
  cases hop : nextOpcode s.frame with
  | none => exact refl_of (Ordinary host) s
  | some opcode =>
    rw [hop] at hnot
    exact trans_of (Ordinary host) (forward_advance s).ordinary
      (handler_keepsUnless.keeps _ hnot)

theorem quiet_dispatch (s : Active) (hcalm : s.frame.isStatic = true ∨ writesNext s.frame = false)
    (hnot : ∀ s', dispatch host s ≠ .ok (some .call) s') : Quiet s (after (dispatch host) s) := by
  rw [dispatch_eq] at hnot
  rw [after_dispatch]
  cases hop : nextOpcode s.frame with
  | none => exact refl_of Quiet s
  | some opcode =>
    rw [hop] at hnot
    refine trans_of Quiet (forward_advance s).toQuiet (handler_calm ?_ hnot)
    rcases hcalm with hstatic | hwrites
    · exact Or.inl hstatic
    · unfold writesNext at hwrites
      rw [hop] at hwrites
      refine Or.inr ⟨?_, ?_⟩
      · cases opcode <;> first | rfl | exact hwrites
      · rintro rfl
        exact hwrites

/-- Only a call opcode leaves the frame for a child. -/
theorem dispatch_starts (h : dispatch host s = .ok (some .call) s') :
    (nextOpcode s.frame).any isCallOp = true ∧ ∃ child,
      Starts host (s.frame.isStatic = true ∨ writesNext s.frame = false) s s' child := by
  obtain ⟨opcode, hop, h⟩ := dispatch_inv h (by simp)
  obtain ⟨hcall, child, hstarts⟩ := handler_starts h
  obtain ⟨s₁, r, hordinary, hforward, rfl⟩ := hstarts.entered
  rw [hop]
  refine ⟨hcall, child, ⟨s₁, r, ?_, ?_, rfl⟩, hstarts.gas, hstarts.limit, hstarts.pools,
    hstarts.depth, hstarts.static, hstarts.stack, hstarts.memory, hstarts.entry⟩
  · exact trans_of (Ordinary host) (forward_advance s).ordinary hordinary
  · intro hcalm
    refine trans_of Forward (forward_advance s) ?_
    apply hforward
    rcases hcalm with hstatic | hwrites
    · exact Or.inl hstatic
    · unfold writesNext at hwrites
      rw [hop] at hwrites
      by_cases hplain : opcode = .call
      · subst hplain
        exact Or.inr (Or.inr hwrites)
      · exact Or.inr (Or.inl hplain)

end Dispatch

end Div0.CallEffects
