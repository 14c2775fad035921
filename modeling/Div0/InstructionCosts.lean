import Div0.CallSetups

/-!
What an instruction takes from the gas of its frame at least. A program pays what one of its
parts pays, because no part gives gas back; so for most handlers instance search finds the
charge. The handlers of ADD and of the block opcodes are the ones that pay nothing, the first
because it is written out in the dispatch loop without a charge, the others because the cost
table has no entry for them.
-/

namespace Div0.InstructionCosts

open Effects EvmContext Memory Node Uint256 Uint256Ops WorldState Frame Opcodes FrameOps StateOps
open CallOps Interpreter OpEffects CallEffects GasConservation MemoryPricing MemoryInstructions
open CallSetups

variable {host : Host} {s s' : Active}

section Paying

/-- Where the program returns, it has taken at least `c` from the gas of the frame. -/
class Pays (host : Host) (c : UInt64) {α : Type} (m : Op α) : Prop where
  pays : ∀ {s s' : Active} {a : α}, InBlock s.frame.memory → m s = .ok a s' →
    s'.frame.gas.toNat + c.toNat ≤ s.frame.gas.toNat

variable {c : UInt64} {α β : Type}

theorem paid_of_ok (host : Host) {m : Op α} [hm : Pays host c m] {a : α}
    (hrun : m s = .ok a s') (hmem : InBlock s.frame.memory) :
    s'.frame.gas.toNat + c.toNat ≤ s.frame.gas.toNat := hm.pays hmem hrun

theorem pays_charge {cost : UInt64} (h : c.toNat ≤ cost.toNat) : Pays host c (charge cost) where
  pays {s s' a} _ hrun := by
    obtain ⟨henough, rfl⟩ := charge_inv hrun
    have hle := UInt64.le_iff_toNat_le.mp henough
    change (s.frame.gas - cost).toNat + c.toNat ≤ s.frame.gas.toNat
    rw [UInt64.toNat_sub_of_le _ _ henough]
    omega

instance : Pays host c (charge c) := pays_charge le_rfl

instance (m : Op α) (f : α → Op β) [hm : Pays host c m] [hf : ∀ a, Keeps (Ordinary host) (f a)] :
    Pays host c (m >>= f) where
  pays {s s' b} hmem hrun := by
    obtain ⟨a, s₁, hfirst, hrest⟩ := bind_ok hrun
    have hpaid := hm.pays hmem hfirst
    have hkept := UInt64.le_iff_toNat_le.mp ((hf a).ok hrest).gas
    omega

theorem pays_bind {m : Op α} {f : α → Op β} [hm : Keeps (Ordinary host) m]
    (hf : ∀ a, Pays host c (f a)) : Pays host c (m >>= f) where
  pays {s s' b} hmem hrun := by
    obtain ⟨a, s₁, hfirst, hrest⟩ := bind_ok hrun
    have hkept := hm.ok hfirst
    have hpaid := (hf a).pays (hkept.memory hmem) hrest
    have hgas := UInt64.le_iff_toNat_le.mp hkept.gas
    omega

instance (m : Op α) (f : α → Op β) [Keeps (Ordinary host) m] [hf : ∀ a, Pays host c (f a)] :
    Pays host c (m >>= f) := pays_bind hf

/-- Behind a test the rest may rely on it. -/
theorem pays_require {test : Bool} {error : EvmStatus} {f : Unit → Op β}
    (hf : test = true → Pays host c (f ())) : Pays host c (require test error >>= f) where
  pays {s s' b} hmem hrun := by
    obtain ⟨_, s₁, htest, hrest⟩ := bind_ok hrun
    obtain ⟨hpassed, rfl⟩ := require_inv htest
    exact (hf hpassed).pays hmem hrest

instance (p : Prop) [Decidable p] (m₁ m₂ : Op α) [Pays host c m₁] [Pays host c m₂] :
    Pays host c (if p then m₁ else m₂) := by
  split <;> infer_instance

end Paying

section Charges

variable {cost : UInt64}

/-- A sum that passes its test for overflow. -/
theorem le_add_of_tested {a b : UInt64} (h : decide (b ≤ uint64Max - a) = true) :
    a.toNat ≤ (a + b).toNat := by
  have hfits := (fits_iff b a).mp (UInt64.not_lt.mpr (of_decide_eq_true h))
  rw [add_toNat (by omega)]
  exact Nat.le_add_right _ _

instance : Pays host 10 chargeExp := by
  unfold chargeExp
  refine pays_bind fun frame => pays_bind fun exponent => pays_require fun htest => ?_
  refine pays_charge ?_
  have hlimit : ((uint64Max - gasExpBase) / gasExpByte).toNat = (2 ^ 64 - 11) / 50 := by decide
  have hlength := UInt64.le_iff_toNat_le.mp (of_decide_eq_true htest)
  rw [hlimit] at hlength
  have hbytes : (gasExpByte * UInt64.ofNat (uint256ByteLength exponent)).toNat =
      50 * (UInt64.ofNat (uint256ByteLength exponent)).toNat :=
    mul_toNat (by change 50 * _ < _; omega)
  rw [add_toNat (by rw [hbytes]; change 10 + _ < _; omega)]
  exact Nat.le_add_right _ _

/-- The price of an expansion stays far below 2^64. -/
theorem expandMemory_cost_lt {offset size memCost : UInt64}
    (hmem : InBlock s.frame.memory) (h : expandMemory host offset size s = .ok memCost s') :
    memCost.toNat < 2 ^ 62 := by
  rw [expandMemory_eq] at h
  cases hexpand : evmMemoryExpand host.alloc s.frame.memory offset size with
  | refused =>
    rw [hexpand] at h
    cases h
  | diverges =>
    rw [hexpand] at h
    cases h
  | expanded cost mem =>
    rw [hexpand] at h
    cases h
    by_cases hsize : size = 0
    · rw [evmMemoryExpand, if_pos hsize] at hexpand
      cases hexpand
      decide
    · obtain ⟨-, rfl, -⟩ := evmMemoryExpand_inv hsize hexpand
      exact expansionCost_lt (inBlock_words_le hmem) (div32_lt _)

variable [OnArena host]

instance (offset : Word) (width : UInt64) :
    Pays host cost (accessMemory host offset width cost) := by
  unfold accessMemory
  refine pays_bind fun offset => pays_require fun _ => pays_bind fun memCost =>
    pays_require fun htest => ?_
  have hcharge : Pays host cost (charge (cost + memCost)) := pays_charge (le_add_of_tested htest)
  infer_instance

instance (offset size : UInt64) : Pays host cost (chargeKeccak256 host offset size cost) := by
  unfold chargeKeccak256
  refine pays_require fun _ => pays_bind fun memCost => pays_require fun _ => pays_require fun _ =>
    pays_require fun hwords => pays_require fun hmemory => ?_
  exact pays_charge (le_trans (le_add_of_tested hwords) (le_add_of_tested hmemory))

/-- The copy opcodes add up their price without a test, but it stays far below 2^64. -/
theorem pays_chargeCopy {destOffset : Word} {size : UInt64} (hcost : cost.toNat < 2 ^ 62) :
    Pays host cost (chargeCopy host destOffset size cost) where
  pays {s s' a} hmem hrun := by
    unfold chargeCopy at hrun
    obtain ⟨dest, s₁, hdest, hrun⟩ := bind_ok hrun
    have hkept : Forward s s₁ := Keeps.ok inferInstance hdest
    obtain ⟨_, s₂, hrange, hrun⟩ := bind_ok hrun
    obtain ⟨-, rfl⟩ := require_inv hrange
    obtain ⟨memCost, s₃, hexpand, hrun⟩ := bind_ok hrun
    have hgrown : Forward s₁ s₃ := Keeps.ok inferInstance hexpand
    have hlow := expandMemory_cost_lt (hkept.memory hmem) hexpand
    have hwords := div32_lt (size + 31)
    have hcopy : (gasCopy * ((size + 31) / 32)).toNat = 3 * ((size + 31) / 32).toNat :=
      mul_toNat (by change 3 * _ < _; omega)
    have hfirst : (cost + gasCopy * ((size + 31) / 32)).toNat =
        cost.toNat + 3 * ((size + 31) / 32).toNat := by
      rw [add_toNat (by rw [hcopy]; omega), hcopy]
    have hcharge : Pays host cost (charge (cost + gasCopy * ((size + 31) / 32) + memCost)) := by
      refine pays_charge ?_
      rw [add_toNat (by rw [hfirst]; omega), hfirst]
      omega
    have hrest : Pays host cost (do
        charge (cost + gasCopy * ((size + 31) / 32) + memCost)
        return dest : Op UInt64) := inferInstance
    have hpaid := hrest.pays (hgrown.memory (hkept.memory hmem)) hrun
    have hbefore := UInt64.le_iff_toNat_le.mp hkept.gas
    have hafter := UInt64.le_iff_toNat_le.mp hgrown.gas
    omega

instance (topicCount : ℕ) (offset size : UInt64) :
    Pays host (gasLog + UInt64.ofNat topicCount * gasLogTopic)
      (chargeLog host topicCount offset size) := by
  unfold chargeLog
  refine pays_require fun _ => pays_require fun _ => pays_require fun hdata =>
    pays_bind fun memCost => pays_require fun hmemory => ?_
  have hsum := (fits_iff _ _).mp (UInt64.not_lt.mpr (of_decide_eq_true hdata))
  have htotal := (fits_iff _ _).mp (UInt64.not_lt.mpr (of_decide_eq_true hmemory))
  refine pays_charge ?_
  rw [add_toNat htotal, add_toNat hsum]
  omega

/-- A write to storage costs at least a read of a warm slot. -/
theorem sstoreCostShanghai_ge (isCold : Bool) (current original new : Word) :
    (if isCold then 2200 else 100) ≤ (sstoreCostShanghai isCold current original new).toNat := by
  unfold sstoreCostShanghai
  dsimp only
  generalize (!uint256Eq current new && uint256Eq original current) = changes
  generalize uint256IsZero original = isFresh
  revert isCold changes isFresh
  decide

end Charges

variable {opcode : Opcode}

section Handlers

set_option synthInstance.maxSize 1024

variable [OnArena host] {cost : Opcode → UInt64}

instance {c : UInt64} (op : Op Unit) [Pays host c op] : Pays host c (next op) := by
  unfold next
  infer_instance

def isTableOp : Opcode → Bool
  | .mul | .sub | .div | .sdiv | .mod | .smod | .addmod | .mulmod | .signextend
  | .lt | .gt | .slt | .sgt | .eq | .iszero | .and | .or | .xor | .not | .byte | .shl | .shr | .sar
  | .keccak256 | .address | .origin | .caller | .callvalue | .calldataload | .calldatasize
  | .calldatacopy | .codesize | .codecopy | .gasprice | .returndatasize | .returndatacopy
  | .pop | .mload | .mstore | .mstore8 | .jump | .jumpi | .pc | .msize | .gas | .jumpdest | .push0
  | .push _ | .dup _ | .swap _ => true
  | _ => false

theorem handler_pays (host : Host) [OnArena host] (schedule : GasSchedule)
    (hsmall : ∀ opcode, (cost opcode).toNat < 2 ^ 62) (h : isTableOp opcode = true) :
    Pays host (cost opcode) (handler host cost schedule opcode) := by
  have hcopy : ∀ opcode dest size,
      Pays host (cost opcode) (chargeCopy host dest size (cost opcode)) :=
    fun opcode _ _ => pays_chargeCopy (hsmall opcode)
  cases opcode <;> simp only [isTableOp, Bool.false_eq_true] at h
  case push n => simp only [handler, opPushN]; infer_instance
  case dup n => simp only [handler, opDup]; infer_instance
  case swap n => simp only [handler, opSwap]; infer_instance
  all_goals
    simp only [handler, opPush0, opPop, opMload, opMstore, opMstore8, opKeccak256, copyOp,
      opReturndatacopy, opJump, opJumpi, binaryOp, unaryOp, ternaryOp, pushOp, lookupOp]
    infer_instance

def accessCost (s : Active) (addr : Word) : ℕ :=
  match s.evm.state with
  | some ws => if !wsIsAddressWarm ws (addressFromUint256 addr) then 2600 else 100
  | none => 100

def slotCost (s : Active) (slot : Word) : ℕ :=
  match s.evm.state with
  | some ws => if !wsIsSlotWarm ws s.frame.address slot then 2100 else 100
  | none => 100

def writeCost (s : Active) (slot : Word) : ℕ :=
  match s.evm.state with
  | some ws => if !wsIsSlotWarm ws s.frame.address slot then 2200 else 100
  | none => 100

theorem accountAccessCost_toNat (isCold : Bool) :
    (accountAccessCost isCold).toNat = if isCold then 2600 else 100 := by
  cases isCold <;> rfl

variable {u : Unit}

theorem accountOp_pays (host : Host) {f : World → Address → Word}
    (h : accountOp host f s = .ok u s') (hmem : InBlock s.frame.memory) :
    s'.frame.gas.toNat + accessCost s (operand s 0) ≤ s.frame.gas.toNat := by
  unfold accountOp at h
  obtain ⟨ws, hws, h⟩ := requireState_ok h
  obtain ⟨henough, h⟩ := hasItems_ok h
  rw [bind_of_ok (pop_first henough), bind_of_ok (updateState_eq _ _)] at h
  have hpaid := paid_of_ok host
    (c := accountAccessCost (wsWarmAddress host ws (addressFromUint256 (operand s 0))).1) h hmem
  rw [accountAccessCost_toNat, wsWarmAddress_fst] at hpaid
  rw [accessCost, hws]
  exact hpaid

theorem opExtcodecopy_pays (h : opExtcodecopy host s = .ok u s') (hmem : InBlock s.frame.memory) :
    s'.frame.gas.toNat + accessCost s (operand s 0) ≤ s.frame.gas.toNat := by
  unfold opExtcodecopy at h
  obtain ⟨ws, hws, h⟩ := requireState_ok h
  obtain ⟨henough, h⟩ := hasItems_ok h
  rw [popTwo_eq (by omega),
    bind_of_ok (pop_next (by omega)), bind_of_ok (pop_next (by omega)),
    bind_of_ok (updateState_eq _ _)] at h
  have hcopy : ∀ isCold dest size, Pays host (accountAccessCost isCold)
      (chargeCopy host dest size (accountAccessCost isCold)) := fun isCold _ _ =>
    pays_chargeCopy (by cases isCold <;> decide)
  have hpaid := paid_of_ok host
    (c := accountAccessCost (wsWarmAddress host ws (addressFromUint256 (operand s 0))).1) h hmem
  rw [accountAccessCost_toNat, wsWarmAddress_fst] at hpaid
  rw [accessCost, hws]
  exact hpaid

omit [OnArena host] in
theorem opSload_pays (fork : Fork) (h : opSload host (gasSchedule fork) s = .ok u s')
    (hmem : InBlock s.frame.memory) :
    s'.frame.gas.toNat + slotCost s (operand s 0) ≤ s.frame.gas.toNat := by
  unfold opSload at h
  obtain ⟨ws, hws, h⟩ := requireState_ok h
  obtain ⟨henough, h⟩ := hasItems_ok h
  rw [bind_of_ok (pop_first henough), bind_of_ok (getFrame_eq _),
    bind_of_ok (updateState_eq _ _)] at h
  have hprice : ∀ isCold, ((gasSchedule fork).sload isCold).toNat =
      if isCold then 2100 else 100 := by
    cases fork <;> decide
  have hpaid := paid_of_ok host
    (c := (gasSchedule fork).sload
      (wsWarmSlot host ws (dropItems 1 s).frame.address (operand s 0)).1) h hmem
  rw [hprice, wsWarmSlot_fst] at hpaid
  rw [slotCost, hws]
  exact hpaid

omit [OnArena host] in
theorem opSstore_pays (fork : Fork) (h : opSstore host (gasSchedule fork) s = .ok u s')
    (hmem : InBlock s.frame.memory) :
    s'.frame.gas.toNat + writeCost s (operand s 0) ≤ s.frame.gas.toNat := by
  unfold opSstore at h
  obtain ⟨ws, hws, h⟩ := requireState_ok h
  rw [bind_of_ok (getFrame_eq _)] at h
  obtain ⟨_, s₂, hstatic, h⟩ := bind_ok h
  obtain ⟨-, rfl⟩ := require_inv hstatic
  obtain ⟨henough, h⟩ := hasItems_ok h
  rw [popTwo_eq (by omega),
    bind_of_ok (getFrame_eq _), bind_of_ok (updateState_eq _ _)] at h
  unfold writeStorage at h
  generalize hprice : (gasSchedule fork).sstore _ _ _ _ = price at h
  have hpaid := paid_of_ok host (c := price) h hmem
  have hleast : ∀ isCold current original new, (if isCold then 2200 else 100) ≤
      ((gasSchedule fork).sstore isCold current original new).toNat := by
    cases fork <;> exact sstoreCostShanghai_ge
  rw [writeCost, hws]
  refine le_trans (Nat.add_le_add_left ?_ _) hpaid
  rw [← hprice, wsWarmSlot_fst]
  exact hleast _ _ _ _

end Handlers

section Free

def SameGas (s s' : Active) : Prop := s'.frame.gas = s.frame.gas

instance : IsPreorder Active SameGas where
  refl _ := rfl
  trans _ _ _ h₁ h₂ := Eq.trans h₂ h₁

instance (stack : EvmStack) : Every (Kept SameGas) (setStack stack) :=
  ⟨keeps_modify fun _ => rfl⟩

instance : Every (Kept SameGas) (charge 0) := by
  refine ⟨⟨fun s => ?_⟩⟩
  rw [after_of_ok (charge_ok (UInt64.zero_le))]
  exact UInt64.sub_zero _

def isFreeOp : Opcode → Bool
  | .add | .blockhash | .coinbase | .timestamp | .number | .prevrandao | .gaslimit | .chainid
  | .selfbalance | .basefee | .blobhash | .blobbasefee => true
  | _ => false

theorem handler_free {schedule : GasSchedule} (fork : Fork)
    (h : isFreeOp opcode = true) :
    Keeps SameGas (handler host (gasTable fork) schedule opcode) := by
  have hcost : gasTable fork opcode = 0 ∨ opcode = .add := by
    cases opcode <;> first | cases h; done | exact Or.inr rfl | (cases fork <;> exact Or.inl rfl)
  cases opcode <;> simp only [isFreeOp, Bool.false_eq_true] at h
  case add =>
    simp only [handler, opAdd]
    infer_instance
  all_goals
    have hzero := hcost.resolve_right (by rintro ⟨⟩)
    simp only [handler, opSelfbalance, hzero]
    infer_instance

end Free

section Calls

set_option synthInstance.maxSize 1024

instance (f : World → World) : Every (Kept SameGas) (updateState f) :=
  ⟨keeps_modify fun _ => rfl⟩

instance (child : CallFrame) (r : CallRegions) : Every (Kept SameGas) (switchTo child r) :=
  ⟨keeps_modify fun _ => rfl⟩

variable {started : Bool}

/-- A call that returns has read the state, and has taken its gas while it was prepared. -/
theorem callWith_ok {prep : World → Op (Option CallSetup)} {transfers : Bool} {params : ParamsOf}
    (h : callWith host prep transfers params s = .ok started s') :
    ∃ ws made s₁, s.evm.state = some ws ∧ prep ws s = .ok made s₁ ∧ SameGas s₁ s' := by
  unfold callWith at h
  obtain ⟨ws, hws, h⟩ := requireState_ok h
  obtain ⟨made, s₁, hprepare, h⟩ := bind_ok h
  refine ⟨ws, made, s₁, hws, hprepare, ?_⟩
  cases made with
  | none => exact Keeps.ok inferInstance h
  | some setup => exact Keeps.ok inferInstance h

theorem op_ok {kind : CallKind} (h : kind.op host s = .ok started s') :
    ∃ ws made s₁, s.evm.state = some ws ∧ kind.prepare host ws s = .ok made s₁ ∧
      SameGas s₁ s' := by
  obtain ⟨params, hop⟩ := kind.op_eq host
  rw [hop] at h
  exact callWith_ok h

/-- At the maximal depth a call costs nothing. -/
theorem op_deep (kind : CallKind) (h : kind.op host s = .ok started s')
    (hdepth : maxCallDepth ≤ s.frame.depth) : SameGas s s' := by
  obtain ⟨ws, made, s₁, -, hprepare, hsame⟩ := op_ok h
  have hcases := kind.prepare_cases host ws s
  rw [hprepare] at hcases
  cases hcases with
  | deep => exact hsame
  | made hadmitted => exact absurd hadmitted.depth (not_lt.mpr hdepth)

theorem accessCost_le_callOverhead (host : Host) (chargesNewAccount : Bool) {ws : World}
    (args : CallStackArgs) {memCost : UInt64} (hws : s.evm.state = some ws) (hlow : memCost.toNat < 2 ^ 62) :
    accessCost s args.addr ≤ (callOverhead host chargesNewAccount ws args memCost).toNat := by
  rw [accessCost, hws]
  dsimp only
  rw [← accountAccessCost_toNat, ← wsWarmAddress_fst host]
  unfold callOverhead
  generalize (wsWarmAddress host ws (addressFromUint256 args.addr)).1 = isCold
  generalize movesValue args = moves
  generalize makesAccount host chargesNewAccount ws args = makes
  rw [callGasCost_toNat hlow]
  have hfixed : (accountAccessCost isCold).toNat ≤ (callGasCost isCold moves makes 0).toNat := by
    revert isCold moves makes
    decide
  omega

theorem op_pays (kind : CallKind) (h : kind.op host s = .ok started s')
    (hmem : InBlock s.frame.memory) (hdepth : s.frame.depth < maxCallDepth) :
    s'.frame.gas.toNat + accessCost s (operand s 1) ≤ s.frame.gas.toNat := by
  obtain ⟨ws, made, s₁, hws, hprepare, hsame⟩ := op_ok h
  have hcases := kind.prepare_cases host ws s
  rw [hprepare] at hcases
  cases hcases with
  | deep _ hdeep => exact absurd hdepth (not_lt.mpr hdeep)
  | @made regions memCost left mem hadmitted hcost hgas hleft _ =>
    have haddr : (kind.args s.frame.stack.items).addr = operand s 1 := by cases kind <;> rfl
    have hleast := accessCost_le_callOverhead host kind.chargesNewAccount
      (kind.args s.frame.stack.items) hws (callMemoryCost_lt hmem hcost)
    have haside := setAside_le left (kind.args s.frame.stack.items).requestedGas
    have hafter : s'.frame.gas = left - setAside left (kind.args s.frame.stack.items).requestedGas :=
      hsame
    have hspent := UInt64.toNat_sub_of_le _ _ hgas
    have henough := UInt64.le_iff_toNat_le.mp hgas
    rw [hleft] at hspent
    rw [hafter, UInt64.toNat_sub_of_le _ _ haside]
    rw [haddr] at hleast
    omega

end Calls

section Documented

set_option synthInstance.maxSize 1024

/-- The base cost of an opcode, as the cost table, the constants and the comments of the
handlers give it. -/
def documentedCost (s : Active) : Opcode → ℕ
  | .blockhash => 20
  | .coinbase | .timestamp | .number | .prevrandao | .gaslimit | .chainid | .basefee
  | .blobbasefee => 2
  | .selfbalance => 5
  | .blobhash => 3
  | .exp => 10
  | .balance | .extcodesize | .extcodehash | .extcodecopy => accessCost s (operand s 0)
  | .sload => slotCost s (operand s 0)
  | .sstore => writeCost s (operand s 0)
  | .log topicCount => 375 + 375 * topicCount
  | .call | .callcode | .delegatecall | .staticcall => accessCost s (operand s 1)
  | opcode => (gasTable s.evm.fork opcode).toNat

def isEndOp : Opcode → Bool
  | .stop | .return_ | .revert => true
  | _ => false

theorem accessCost_pos (addr : Word) : 0 < accessCost s addr := by
  unfold accessCost
  split
  · split <;> decide
  · decide

theorem slotCost_pos (slot : Word) : 0 < slotCost s slot := by
  unfold slotCost
  split
  · split <;> decide
  · decide

theorem writeCost_pos (slot : Word) : 0 < writeCost s slot := by
  unfold writeCost
  split
  · split <;> decide
  · decide

/-- Every opcode with a handler that goes on has a price. -/
theorem documentedCost_pos (hend : isEndOp opcode = false) (hvalid : opcode ≠ .invalid) :
    0 < documentedCost s opcode := by
  have htable : ∀ fork, isTableOp opcode = true → 0 < (gasTable fork opcode).toNat := by
    intro fork h
    cases opcode <;> first | cases h; done | (cases fork <;> exact Nat.succ_pos _)
  cases opcode
  case stop | return_ | revert => cases hend
  case invalid => exact absurd rfl hvalid
  case add => cases hfork : s.evm.fork <;> simp only [documentedCost, hfork] <;> decide
  case balance | extcodesize | extcodehash | extcodecopy | call | callcode | delegatecall |
    staticcall => exact accessCost_pos _
  case sload => exact slotCost_pos _
  case sstore => exact writeCost_pos _
  case log n => exact Nat.lt_of_lt_of_le (by decide : 0 < 375) (Nat.le_add_right _ _)
  all_goals first | exact htable s.evm.fork rfl | exact Nat.succ_pos _

variable {result : Option FrameResult}

theorem next_ok {op : Op Unit} (h : next op s = .ok result s') : op s = .ok () s' := by
  unfold next at h
  obtain ⟨_, s₁, hop, h⟩ := bind_ok h
  cases h
  exact hop

theorem nextCall_ok {op : Op Bool} (h : nextCall op s = .ok result s') :
    ∃ started, op s = .ok started s' := by
  unfold nextCall at h
  obtain ⟨started, s₁, hop, h⟩ := bind_ok h
  cases started <;> cases h <;> exact ⟨_, hop⟩

theorem opLogN_pays [OnArena host] {topicCount : ℕ} {u : Unit}
    (h : opLogN host topicCount s = .ok u s') (hmem : InBlock s.frame.memory) :
    s'.frame.gas.toNat + (375 + 375 * topicCount) ≤ s.frame.gas.toNat := by
  have hpays : Pays host (gasLog + UInt64.ofNat topicCount * gasLogTopic)
      (opLogN host topicCount) := by
    unfold opLogN
    infer_instance
  have hpaid := hpays.pays hmem h
  unfold opLogN at h
  obtain ⟨henough, -⟩ := hasItems_ok h
  have hbounded := le_trans s.frame.stack.fits s.frame.stack.bounded
  unfold stackMaxDepth at hbounded
  rwa [logCost_toNat topicCount (by omega)] at hpaid

theorem gasTable_small (fork : Fork) (opcode : Opcode) : (gasTable fork opcode).toNat < 2 ^ 62 := by
  have htable : gasTable fork = gasTableInitShanghai := by cases fork <;> rfl
  rw [htable]
  unfold gasTableInitShanghai
  split <;> decide

/-- Every instruction that is charged for pays its documented base cost. -/
theorem handler_paid [OnArena host]
    (h : handler host (gasTable s.evm.fork) (gasSchedule s.evm.fork) opcode s = .ok result s')
    (hmem : InBlock s.frame.memory) (hend : isEndOp opcode = false)
    (hfree : isFreeOp opcode = false)
    (hdepth : isCallOp opcode = true → s.frame.depth < maxCallDepth) :
    s'.frame.gas.toNat + documentedCost s opcode ≤ s.frame.gas.toNat := by
  cases htable : isTableOp opcode with
  | true =>
    have hcost : documentedCost s opcode = (gasTable s.evm.fork opcode).toNat := by
      cases opcode <;> first | rfl | cases htable
    have hpays := handler_pays host (gasSchedule s.evm.fork) (gasTable_small s.evm.fork) htable
    rw [hcost]
    exact hpays.pays hmem h
  | false =>
    cases opcode <;> simp only [isTableOp, Bool.true_eq_false] at htable
    case stop | return_ | revert => cases hend
    case invalid => cases h
    case exp =>
      have hpays : Pays host 10 opExp := by
        unfold opExp
        infer_instance
      exact hpays.pays hmem (next_ok h)
    case balance | extcodesize | extcodehash => exact accountOp_pays host (next_ok h) hmem
    case extcodecopy => exact opExtcodecopy_pays (next_ok h) hmem
    case sload => exact opSload_pays s.evm.fork (next_ok h) hmem
    case sstore => exact opSstore_pays s.evm.fork (next_ok h) hmem
    case log n => exact opLogN_pays (next_ok h) hmem
    case call =>
      obtain ⟨started, hop⟩ := nextCall_ok h
      exact op_pays .call hop hmem (hdepth rfl)
    case callcode =>
      obtain ⟨started, hop⟩ := nextCall_ok h
      exact op_pays .callcode hop hmem (hdepth rfl)
    case delegatecall =>
      obtain ⟨started, hop⟩ := nextCall_ok h
      exact op_pays .delegatecall hop hmem (hdepth rfl)
    case staticcall =>
      obtain ⟨started, hop⟩ := nextCall_ok h
      exact op_pays .staticcall hop hmem (hdepth rfl)
    all_goals cases hfree

/-- An instruction that is carried out pays its documented base cost if and only if it is
neither ADD nor one of the block opcodes, nor a call at the maximal depth. -/
theorem instructions_paid_iff (host : Host) [OnArena host] (s : ArenaState) (opcode : Opcode)
    (result : Option FrameResult) (s' : Active) (hnext : nextOpcode s.val.frame = some opcode)
    (hend : isEndOp opcode = false)
    (h : dispatch host s.val = .ok result s') :
    (0 < documentedCost s.val opcode ∧
      s'.frame.gas.toNat + documentedCost s.val opcode ≤ s.val.frame.gas.toNat) ↔
    isFreeOp opcode = false ∧ (isCallOp opcode = true → s.val.frame.depth < maxCallDepth) := by
  obtain ⟨s, hmem⟩ := s
  dsimp only
  rw [dispatch_eq, hnext] at h
  change handler _ _ _ opcode (fetched s) = _ at h
  have hvalid : opcode ≠ .invalid := by
    rintro rfl
    cases h
  have hpos : 0 < documentedCost s opcode := documentedCost_pos hend hvalid
  constructor
  · rintro ⟨-, hpaid⟩
    have hunpaid : ¬SameGas (fetched s) s' := by
      intro hsame
      have hgas : s'.frame.gas = s.frame.gas := hsame
      rw [hgas] at hpaid
      omega
    constructor
    · by_contra hfree
      exact hunpaid ((handler_free s.evm.fork (Bool.not_eq_false _ ▸ hfree)).ok h)
    · intro hcall
      by_contra hdepth
      have hdeep : maxCallDepth ≤ (fetched s).frame.depth := not_lt.mp hdepth
      cases opcode <;> simp only [isCallOp, Bool.false_eq_true] at hcall <;>
        obtain ⟨started, hop⟩ := nextCall_ok h
      · exact hunpaid (op_deep .call hop hdeep)
      · exact hunpaid (op_deep .callcode hop hdeep)
      · exact hunpaid (op_deep .delegatecall hop hdeep)
      · exact hunpaid (op_deep .staticcall hop hdeep)
  · rintro ⟨hfree, hdepth⟩
    refine ⟨hpos, ?_⟩
    have hsame : documentedCost (fetched s) opcode = documentedCost s opcode := by
      cases opcode <;> rfl
    rw [← hsame]
    exact handler_paid (s := fetched s) h hmem hend hfree hdepth

theorem instructions_paid_near :
    nextOpcode nearLoad.val.frame = some .mload ∧ isEndOp .mload = false ∧
    ∃ result s', dispatch paddedHost nearLoad.val = .ok result s' ∧
      s'.frame.gas.toNat + 3 ≤ nearLoad.val.frame.gas.toNat := by
  have hnext : nextOpcode nearLoad.val.frame = some .mload := by decide +kernel
  refine ⟨hnext, rfl, _, _, rfl, ?_⟩
  exact ((instructions_paid_iff paddedHost nearLoad .mload _ _ hnext rfl rfl).mpr
    ⟨rfl, nofun⟩).2

def freeAdd : ArenaState := ⟨afterSteps 2 [0x5f, 0x5f, 0x01], by unfold InBlock; decide +kernel⟩

def freeCoinbase : ArenaState := ⟨afterSteps 0 [0x41], by unfold InBlock; decide +kernel⟩

theorem instructions_unpaid :
    (documentedCost freeAdd.val .add = 3 ∧ ∃ result s',
      dispatch paddedHost freeAdd.val = .ok result s' ∧
        s'.frame.gas = freeAdd.val.frame.gas) ∧
    (documentedCost freeCoinbase.val .coinbase = 2 ∧ ∃ result s',
      dispatch paddedHost freeCoinbase.val = .ok result s' ∧
        s'.frame.gas = freeCoinbase.val.frame.gas) :=
  ⟨⟨by decide +kernel, _, _, rfl, by decide +kernel⟩,
    ⟨by decide +kernel, _, _, rfl, by decide +kernel⟩⟩

end Documented

end Div0.InstructionCosts
