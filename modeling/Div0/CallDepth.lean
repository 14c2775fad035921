import Div0.CallSetups
import Div0.FramePools

/-!
Calls nested down to the limit. An account that does nothing but call itself with all its
gas gets from the start of one frame to the start of the next one in seven instructions,
and with the largest amount of gas it comes to depth 1023. There the pools are full, and
its call is prepared all the same.
-/

namespace Div0.CallDepth

open BigEndian Effects EvmContext Memory Node Uint256 Uint256Ops WorldState Frame Opcodes FrameOps
open CallOps Interpreter CallEffects GasConservation FramePools MemoryInstructions CallSetups

def selfCode : Bytes := [0x5f, 0x5f, 0x5f, 0x5f, 0x30, 0x5a, 0xfa]

def paid (s : Active) (cost : UInt64) : Active :=
  { s with frame := { s.frame with gas := s.frame.gas - cost } }

def Room (s : Active) : Prop := s.frame.stack.items.length < s.frame.stack.capacity

def pushed (s : Active) (h : Room s) (value : Word) : Active :=
  { s with frame := { s.frame with
    stack := ⟨value :: s.frame.stack.items, s.frame.stack.capacity, h, s.frame.stack.bounded⟩ } }

variable {s : Active}

theorem ensureSpace_room (h : Room s) : ensureSpace 1 s = .ok () s := by
  have hspace : evmStackEnsureSpace s.frame.stack 1 = some s.frame.stack := by
    have hle := s.frame.stack.bounded
    have hlt : s.frame.stack.items.length + 1 ≤ s.frame.stack.capacity := h
    rw [evmStackEnsureSpace, evmStackHasSpace, if_pos (decide_eq_true (by omega)), growUntil,
      if_pos hlt]
  have hframe : getFrame s = .ok s.frame s := rfl
  unfold ensureSpace
  rw [bind_of_ok hframe, hspace]
  rfl

theorem push_room (h : Room s) (value : Word) : push value s = .ok () (pushed s h value) := by
  have hpush : evmStackPush s.frame.stack value =
      some ⟨value :: s.frame.stack.items, s.frame.stack.capacity, h, s.frame.stack.bounded⟩ := dif_pos h
  change (defined .stack (evmStackPush s.frame.stack value) >>= setStack) s = _
  rw [hpush]
  rfl

theorem pushOp_room (h : Room s) {cost : UInt64} (hgas : cost ≤ s.frame.gas)
    (value : Active → Word) :
    pushOp value cost s = .ok () (pushed (paid s cost) h (value (paid s cost))) := by
  unfold pushOp
  rw [bind_of_ok (ensureSpace_room h), bind_of_ok (charge_ok hgas)]
  exact push_room (s := paid s cost) h _

theorem opPush0_room (h : Room s) {cost : UInt64} (hgas : cost ≤ s.frame.gas) :
    opPush0 cost s = .ok () (pushed (paid s cost) h uint256Zero) := by
  unfold opPush0
  have hframe : getFrame s = .ok s.frame s := rfl
  have hrequired : require (decide (cost ≤ s.frame.gas)) .outOfGas s = .ok () s := by
    rw [decide_eq_true hgas]
    rfl
  rw [bind_of_ok hframe, bind_of_ok hrequired, bind_of_ok (ensureSpace_room h),
    bind_of_ok (charge_ok hgas)]
  exact push_room (s := paid s cost) h _

variable {opcode : Opcode}

/-- The instruction at the front is the next one. -/
theorem step_push {host : Host} {m : Machine} {op : Op Unit}
    (hop : nextOpcode m.active.frame = some opcode)
    (hhandler : handler host (gasTable m.active.evm.fork) (gasSchedule m.active.evm.fork) opcode = next op)
    (hrun : op (fetched m.active) = .ok () s) :
    step host m = .running { m with active := s } := by
  unfold step
  rw [dispatch_eq, hop]
  simp only [hhandler, next]
  rw [bind_of_ok hrun]
  rfl


/-- The world in which the account calls itself; it is warm. -/
def selfWorld : World :=
  (wsWarmAddress paddedHost
    (wsSetCode paddedHost worldStateCreate (lowAddress 2) selfCode) (lowAddress 2)).2

def zeroRegions : CallRegions := ⟨0, 0, 0, 0⟩

def selfArgs (gas : UInt64) : CallStackArgs :=
  ⟨uint256FromU64 gas, addressToUint256 (lowAddress 2), uint256Zero, uint256Zero, uint256Zero,
    uint256Zero, uint256Zero⟩

theorem selfTarget : addressFromUint256 (addressToUint256 (lowAddress 2)) = lowAddress 2 := by
  decide +kernel

theorem selfWorld_warm :
    wsWarmAddress paddedHost selfWorld (lowAddress 2) = (false, selfWorld) := by
  have hmem : lowAddress 2 ∈ selfWorld.warmAddresses := by decide +kernel
  rw [wsWarmAddress, if_pos hmem]

theorem warmed_self (hstate : s.evm.state = some selfWorld) (gas : UInt64) :
    warmed paddedHost (selfArgs gas) s = s := by
  have hkept : s.evm.state.map
      (fun ws => (wsWarmAddress paddedHost ws (lowAddress 2)).2) = s.evm.state := by
    rw [hstate, Option.map_some, selfWorld_warm]
  rw [warmed, withState]
  change { s with evm := { s.evm with state := s.evm.state.map fun ws =>
    (wsWarmAddress paddedHost ws
      (addressFromUint256 (addressToUint256 (lowAddress 2)))).2 } } = s
  rw [selfTarget, hkept]

theorem movesValue_self (gas : UInt64) : movesValue (selfArgs gas) = false := by
  have hzero : (!uint256IsZero uint256Zero) = false := by decide
  exact hzero

/-- The caller asks for all its gas; a part of one in 64 stays with it. -/
theorem madeSetup_self {gas : UInt64} (h : 100 ≤ gas) :
    madeSetup (selfArgs gas) zeroRegions (gas - 100) =
      ⟨lowAddress 2, uint256Zero, gasCapCall (gas - 100), zeroRegions⟩ := by
  have hcap : gasCapCall (gas - 100) ≤ gas - 100 := by
    refine UInt64.sub_le ?_
    rw [UInt64.le_iff_toNat_le, UInt64.toNat_div]
    exact Nat.div_le_self _ _
  have hfits : uint256FitsU64 (uint256FromU64 gas) = true := by
    simp [uint256FitsU64, uint256FromU64]
  have haside : setAside (gas - 100) (uint256FromU64 gas) = gasCapCall (gas - 100) := by
    rw [setAside, if_pos hfits]
    exact if_neg (UInt64.not_lt.mpr (UInt64.le_trans hcap (UInt64.sub_le h)))
  rw [madeSetup, movesValue_self, stipend, if_neg Bool.false_ne_true, UInt64.add_zero]
  change CallSetup.mk (addressFromUint256 (addressToUint256 (lowAddress 2))) uint256Zero
    (setAside (gas - 100) (uint256FromU64 gas)) zeroRegions = _
  rw [selfTarget, haside]

theorem callOverhead_self (gas : UInt64) :
    callOverhead paddedHost false selfWorld (selfArgs gas) 0 = 100 := by
  rw [callOverhead, movesValue_self]
  change callGasCost (wsWarmAddress paddedHost selfWorld
    (addressFromUint256 (addressToUint256 (lowAddress 2)))).1 false false 0 = 100
  rw [selfTarget, selfWorld_warm]
  rfl

theorem validateMemoryArgs_self (gas : UInt64) :
    validateMemoryArgs (selfArgs gas) = some zeroRegions := by
  have hfits : uint256FitsU64 uint256Zero = true := by decide
  simp only [validateMemoryArgs, selfArgs, hfits, Bool.and_self, if_true]
  rfl

/-- The preparation of the call succeeds at every depth below the limit. -/
theorem prepareStaticcall_self (hstate : s.evm.state = some selfWorld)
    (hdepth : s.frame.depth < maxCallDepth) (hmemory : s.frame.memory = evmMemoryInit)
    (hcost : 100 ≤ s.frame.gas)
    (hstack : s.frame.stack.items = uint256FromU64 s.frame.gas :: addressToUint256 (lowAddress 2) ::
      List.replicate 4 uint256Zero) :
    ∃ gas stack, prepareStaticcall paddedHost selfWorld s =
      .ok (some ⟨lowAddress 2, uint256Zero, gasCapCall (s.frame.gas - 100), zeroRegions⟩)
        { s with frame := { s.frame with gas := gas, stack := stack } } := by
  have hitems : 6 ≤ s.frame.stack.items.length := by rw [hstack]; exact le_rfl
  have hargs : plainArgs s.frame.stack.items = selfArgs s.frame.gas := by rw [hstack]; rfl
  have hmem : callMemory paddedHost.alloc (dropItems 6 s).frame.memory zeroRegions =
      some s.frame.memory := by
    change callMemory _ s.frame.memory _ = _
    rw [hmemory]
    rfl
  have hsetup := @setUpCall_paid paddedHost (dropItems 6 s) false selfWorld
    (selfArgs s.frame.gas) zeroRegions 0 (s.frame.gas - 100)
    (by rw [movesValue_self, Bool.and_false]) rfl (by rw [callOverhead_self]; exact hcost)
    (by rw [callOverhead_self]; rfl)
  have hwarmed := @warmed_self (dropItems 6 s) hstate s.frame.gas
  rw [hmem, madeSetup_self hcost, CallSetups.paid, hwarmed] at hsetup
  refine ⟨s.frame.gas - 100 - setAside (s.frame.gas - 100) (uint256FromU64 s.frame.gas),
    dropStack 6 s.frame.stack, ?_⟩
  unfold prepareStaticcall
  rw [prepare_eq hitems hdepth, hargs, validateMemoryArgs_self]
  exact bind_of_ok hsetup

/-- The frame starts to execute the code that calls itself. -/
structure Nested (m : Machine) (depth : ℕ) : Prop where
  state : m.active.evm.state = some selfWorld
  fork : m.active.evm.fork = .cancun
  pc : m.active.frame.pc = 0
  code : m.active.frame.code = selfCode
  depth : m.active.frame.depth = depth
  address : m.active.frame.address = lowAddress 2
  memory : m.active.frame.memory = evmMemoryInit
  stack : m.active.frame.stack = evmStackInit

def gasAfter (gas : UInt64) : ℕ → UInt64
  | 0 => gas
  | n + 1 => gasAfter gas n - 2

theorem toNat_gasAfter {gas : UInt64} {n : ℕ} (h : 2 * n ≤ gas.toNat) :
    (gasAfter gas n).toNat = gas.toNat - 2 * n := by
  induction n with
  | zero => rfl
  | succ n ih =>
    have hbefore := ih (by omega)
    have hle : 2 ≤ gasAfter gas n := by
      rw [UInt64.le_iff_toNat_le, hbefore]
      change 2 ≤ _
      omega
    rw [gasAfter, UInt64.toNat_sub_of_le _ _ hle, hbefore]
    change _ - 2 = _
    omega

def pushing (m : Machine) (n : ℕ) (stack : EvmStack) : Machine :=
  { m with active := { m.active with frame := { m.active.frame with
    pc := n
    gas := gasAfter m.active.frame.gas n
    stack := stack } } }

variable {host : Host} {m : Machine} {depth : ℕ}

/-- One more instruction that pushes. -/
theorem step_pushing {n : ℕ} {stack : EvmStack} (hroom : stack.items.length < stack.capacity)
    (hgas : 2 * n + 2 ≤ m.active.frame.gas.toNat) {op : Op Unit}
    (hop : (m.active.frame.code[n]?).map dispatchTable = some opcode)
    (hhandler : handler host (gasTable m.active.evm.fork) (gasSchedule m.active.evm.fork) opcode =
      next op) (value : Active → Word)
    (hrun : ∀ (s : Active) (hroom : Room s), 2 ≤ s.frame.gas →
      op s = .ok () (pushed (paid s 2) hroom (value (paid s 2)))) :
    step host (pushing m n stack) = .running (pushing m (n + 1)
      ⟨value (pushing m (n + 1) stack).active :: stack.items, stack.capacity, hroom,
        stack.bounded⟩) := by
  have henough : 2 ≤ gasAfter m.active.frame.gas n := by
    rw [UInt64.le_iff_toNat_le, toNat_gasAfter (by omega)]
    change 2 ≤ _
    omega
  have hpushed := hrun { m.active with frame := { m.active.frame with
    pc := n + 1, gas := gasAfter m.active.frame.gas n, stack := stack } } hroom henough
  exact step_push (m := pushing m n stack) hop hhandler hpushed

/-- The operands of the call are pushed. -/
theorem Nested.operands (host : Host) (h : Nested m depth) (hgas : 12 ≤ m.active.frame.gas.toNat) :
    ∃ stack : EvmStack, stack.items = uint256FromU64 (gasAfter m.active.frame.gas 6) ::
        addressToUint256 (lowAddress 2) :: List.replicate 4 uint256Zero ∧
      Reaches (step host) m (pushing m 6 stack) := by
  have hcode : ∀ n : ℕ, (m.active.frame.code[n]?).map dispatchTable =
      (selfCode[n]?).map dispatchTable := by rw [h.code]; exact fun _ => rfl
  have hzero : ∀ (n : ℕ) (stack : EvmStack) (hroom : stack.items.length < stack.capacity), n < 4 →
      step host (pushing m n stack) = .running (pushing m (n + 1)
        ⟨uint256Zero :: stack.items, stack.capacity, hroom, stack.bounded⟩) := by
    intro n stack hroom hn
    have hop : ∀ n < 4, (selfCode[n]?).map dispatchTable = some .push0 := by decide
    exact step_pushing hroom (by omega) ((hcode n).trans (hop n hn)) (by rw [h.fork]; rfl)
      (fun _ => uint256Zero) fun s hroom hgas => opPush0_room hroom hgas
  have haddress : ∀ (stack : EvmStack) (hroom : stack.items.length < stack.capacity),
      step host (pushing m 4 stack) = .running (pushing m 5
        ⟨addressToUint256 (lowAddress 2) :: stack.items, stack.capacity, hroom, stack.bounded⟩) := by
    intro stack hroom
    rw [← h.address]
    exact step_pushing hroom (by omega) ((hcode 4).trans rfl) (by rw [h.fork]; rfl) _
      fun s hroom hgas => pushOp_room hroom hgas _
  have hrest : ∀ (stack : EvmStack) (hroom : stack.items.length < stack.capacity),
      step host (pushing m 5 stack) = .running (pushing m 6
        ⟨uint256FromU64 (gasAfter m.active.frame.gas 6) :: stack.items, stack.capacity, hroom,
          stack.bounded⟩) := by
    intro stack hroom
    exact step_pushing hroom (by omega) ((hcode 5).trans rfl) (by rw [h.fork]; rfl) _
      fun s hroom hgas => pushOp_room hroom hgas _
  have hstart : pushing m 0 evmStackInit = m := by
    rw [pushing, gasAfter, ← h.pc, ← h.stack]
  have hfits : ∀ items : List Word, items.length ≤ 6 → items.length ≤ 32 := fun _ h => by omega
  refine ⟨⟨_, 32, hfits _ le_rfl, by decide⟩, rfl, ?_⟩
  have hrun : Reaches (step host) (pushing m 0 evmStackInit) _ :=
    .head (hzero 0 _ (by decide) (by decide)) <| .head (hzero 1 _ (by decide) (by decide)) <|
    .head (hzero 2 _ (by decide) (by decide)) <| .head (hzero 3 _ (by decide) (by decide)) <|
    .head (haddress _ (by decide)) <| .single (hrest _ (by decide))
  rwa [hstart] at hrun

theorem requireState_ok {ws : World} (h : s.evm.state = some ws) (error : EvmStatus) :
    requireState error s = .ok ws s := by
  rw [requireState_eq, h]

variable {childGas : UInt64}

/-- Without value nothing is moved. -/
theorem sendValue_self (hstate : s.evm.state = some selfWorld) :
    sendValue paddedHost false ⟨lowAddress 2, uint256Zero, childGas, zeroRegions⟩ s =
      .ok true s := by
  have hframe : getFrame s = .ok s.frame s := rfl
  have haffords : affords paddedHost selfWorld s.frame.address uint256Zero = true := rfl
  have hupdate : updateState id s = .ok () s := by
    change EStateM.Result.ok () { s with evm := { s.evm with state := s.evm.state.map id } } = _
    rw [Option.map_id, id]
  unfold sendValue
  rw [bind_of_ok (requireState_ok hstate _), bind_of_ok hframe, if_pos haffords,
    if_neg Bool.false_ne_true, bind_of_ok hupdate]
  rfl

theorem enterChild_self (hstate : s.evm.state = some selfWorld)
    (hframes : s.evm.framePoolDepth < evmMaxCallDepth)
    (hmemories : s.evm.memoryPoolDepth < evmMaxCallDepth) (params : ChildFrameParams) :
    enterChild ⟨lowAddress 2, uint256Zero, childGas, zeroRegions⟩ params s =
      .ok true (after (switchTo (childFrame s.frame ⟨lowAddress 2, uint256Zero, childGas, zeroRegions⟩
        selfCode [] params) zeroRegions) s) := by
  have hevm : getEvm s = .ok s.evm s := rfl
  have hframe : getFrame s = .ok s.frame s := rfl
  have hinput : callInput zeroRegions s = .ok [] s := rfl
  have hcode : wsGetCode selfWorld (lowAddress 2) = selfCode := by decide +kernel
  unfold enterChild
  rw [bind_of_ok (requireState_ok hstate _), bind_of_ok hevm, if_pos hframes, if_pos hmemories,
    bind_of_ok hinput, bind_of_ok hframe, hcode]
  rfl

/-- The operands are on the stack, and the call is prepared whatever the pools are. -/
theorem Nested.prepared (h : Nested m depth) (hdepth : depth < maxCallDepth)
    (hgas : 112 ≤ m.active.frame.gas.toNat) {stack : EvmStack}
    (hstack : stack.items = uint256FromU64 (gasAfter m.active.frame.gas 6) ::
      addressToUint256 (lowAddress 2) :: List.replicate 4 uint256Zero) :
    ∃ gas rest, prepareStaticcall paddedHost selfWorld
        { m.active with frame := { m.active.frame with
          pc := 7, gas := gasAfter m.active.frame.gas 6, stack := stack } } =
      .ok (some ⟨lowAddress 2, uint256Zero, gasCapCall (gasAfter m.active.frame.gas 6 - 100),
        zeroRegions⟩)
        { m.active with frame := { m.active.frame with pc := 7, gas := gas, stack := rest } } := by
  have hcost : 100 ≤ gasAfter m.active.frame.gas 6 := by
    rw [UInt64.le_iff_toNat_le, toNat_gasAfter (by omega)]
    change 100 ≤ _
    omega
  exact prepareStaticcall_self h.state (h.depth ▸ hdepth) h.memory hcost hstack

def childGasOf (gas : ℕ) : ℕ := gas - 112 - (gas - 112) / 64

theorem toNat_childGas {gas : UInt64} (hgas : 112 ≤ gas.toNat) :
    (gasCapCall (gasAfter gas 6 - 100)).toNat = childGasOf gas.toNat := by
  have hafter : (gasAfter gas 6).toNat = gas.toNat - 12 := toNat_gasAfter (by omega)
  have hcost : 100 ≤ gasAfter gas 6 := by
    rw [UInt64.le_iff_toNat_le, hafter]
    change 100 ≤ _
    omega
  have hleft : (gasAfter gas 6 - 100).toNat = gas.toNat - 112 := by
    rw [UInt64.toNat_sub_of_le _ _ hcost, hafter]
    change _ - 100 = _
    omega
  have hpart : ((gasAfter gas 6 - 100) / 64).toNat = (gas.toNat - 112) / 64 := by
    rw [UInt64.toNat_div, hleft]
    rfl
  have hle : (gasAfter gas 6 - 100) / 64 ≤ gasAfter gas 6 - 100 := by
    rw [UInt64.le_iff_toNat_le, hpart, hleft]
    exact Nat.div_le_self _ _
  rw [gasCapCall, UInt64.toNat_sub_of_le _ _ hle, hpart, hleft, childGasOf]

/-- A call that is prepared starts when the pools have room. -/
theorem opStaticcall_self {s' : Active}
    (hprepared : prepareStaticcall paddedHost selfWorld s =
      .ok (some ⟨lowAddress 2, uint256Zero, childGas, zeroRegions⟩) s')
    (hstate : s.evm.state = some selfWorld) (hstate' : s'.evm.state = some selfWorld)
    (hframes : s'.evm.framePoolDepth < evmMaxCallDepth)
    (hmemories : s'.evm.memoryPoolDepth < evmMaxCallDepth) :
    opStaticcall paddedHost s = .ok true (after (switchTo (childFrame s'.frame
      ⟨lowAddress 2, uint256Zero, childGas, zeroRegions⟩ selfCode []
      ⟨.staticcall, true, s'.frame.address, lowAddress 2, uint256Zero⟩) zeroRegions) s') := by
  have hframe : getFrame s' = .ok s'.frame s' := rfl
  unfold opStaticcall callWith
  rw [bind_of_ok (requireState_ok hstate _), bind_of_ok hprepared]
  dsimp only
  unfold startCall
  rw [bind_of_ok (sendValue_self hstate'), if_pos rfl, bind_of_ok hframe]
  exact enterChild_self hstate' hframes hmemories _

theorem dispatch_call {s s' : Active} {op : Op Bool} (hop : nextOpcode s.frame = some opcode)
    (hhandler : handler host (gasTable s.evm.fork) (gasSchedule s.evm.fork) opcode = nextCall op)
    (hrun : op (fetched s) = .ok true s') :
    dispatch host s = .ok (some .call) s' := by
  rw [dispatch_eq, hop]
  simp only [hhandler, nextCall]
  rw [bind_of_ok hrun]
  rfl

/-- From the start of one frame to the start of the next one. -/
theorem Nested.round (h : Nested m depth) (hlock : LockStep m) (hdepth : depth < 1023)
    (hgas : 112 ≤ m.active.frame.gas.toNat) :
    ∃ m', Reaches (step paddedHost) m m' ∧ Nested m' (depth + 1) ∧
      m'.active.frame.gas.toNat = childGasOf m.active.frame.gas.toNat := by
  have hmax : maxCallDepth = 1024 := rfl
  have hpools : evmMaxCallDepth = 1024 := rfl
  have hlevel := hlock.depth
  rw [h.depth] at hlevel
  obtain ⟨stack, hstack, hreach⟩ := h.operands paddedHost (by omega)
  obtain ⟨gas, rest, hprepared⟩ := h.prepared (by omega) hgas hstack
  have hframes : m.active.evm.framePoolDepth < evmMaxCallDepth := by rw [hlock.framePool]; omega
  have hmemories : m.active.evm.memoryPoolDepth < evmMaxCallDepth := by rw [hlock.memoryPool]; omega
  have hcalled := opStaticcall_self hprepared h.state h.state hframes hmemories
  have hop : nextOpcode (pushing m 6 stack).active.frame = some .staticcall := by
    change (m.active.frame.code[6]?).map dispatchTable = _
    rw [h.code]
    rfl
  have hdispatch := dispatch_call (s := (pushing m 6 stack).active) hop rfl hcalled
  have hroom : ¬evmMaxCallDepth ≤ (pushing m 6 stack).parents.length := by
    change ¬evmMaxCallDepth ≤ m.parents.length
    omega
  have hstep : ∃ m', step paddedHost (pushing m 6 stack) = .running m' ∧
      Nested m' (depth + 1) ∧ m'.active.frame.gas = gasCapCall (gasAfter m.active.frame.gas 6 - 100) := by
    unfold step
    rw [hdispatch]
    dsimp only [settle]
    rw [if_neg hroom]
    exact ⟨_, rfl, ⟨h.state, h.fork, rfl, rfl, congrArg (· + 1) h.depth, rfl, rfl, rfl⟩, rfl⟩
  obtain ⟨m', hrun, hnested, hchild⟩ := hstep
  exact ⟨m', hreach.tail hrun, hnested, by rw [hchild, toNat_childGas hgas]⟩

def lasts : ℕ → ℕ → Bool
  | 0, gas => 112 ≤ gas
  | n + 1, gas => 112 ≤ gas && lasts n (childGasOf gas)

theorem Nested.deeper (h : Nested m depth) (hlock : LockStep m) (n : ℕ) (hdepth : depth + n ≤ 1023)
    (hgas : lasts n m.active.frame.gas.toNat = true) :
    ∃ m', Reaches (step paddedHost) m m' ∧ Nested m' (depth + n) ∧
      112 ≤ m'.active.frame.gas.toNat := by
  induction n generalizing m depth with
  | zero => exact ⟨m, .refl, h, of_decide_eq_true hgas⟩
  | succ n ih =>
    rw [lasts, Bool.and_eq_true, decide_eq_true_eq] at hgas
    obtain ⟨m₁, hreach, hnested, hchild⟩ := h.round hlock (by omega) hgas.1
    have hlock₁ : LockStep m₁ :=
      reaches_invariant (fun _ _ hm hstep => LockStep.step hm hstep) hlock hreach
    obtain ⟨m₂, hrest, hdeep, hleft⟩ := ih hnested hlock₁ (by omega) (hchild ▸ hgas.2)
    exact ⟨m₂, hreach.trans hrest, by rwa [Nat.add_right_comm] at hdeep, hleft⟩

def selfStart : Machine :=
  start { evmReset (evmInit .cancun) with state := some selfWorld }
    (running 0xffffffffffffffff selfCode)

/-- At depth 1023 the pools are full, and the call is prepared all the same: what comes next is
`call_frame_pool_rent`. -/
theorem pools_full_at_limit :
    ∃ m, Reaches (step paddedHost) selfStart m ∧ m.active.frame.depth = 1023 ∧
      m.active.evm.framePoolDepth = 1024 ∧ ¬PoolsLeft m.active.evm ∧
      nextOpcode m.active.frame = some .staticcall ∧
      ∃ setup s, prepareStaticcall paddedHost selfWorld
        (fetched m.active) = .ok (some setup) s := by
  have hnested : Nested selfStart 0 := ⟨rfl, rfl, rfl, rfl, rfl, rfl, rfl, rfl⟩
  obtain ⟨m, hreach, hdeep, hgas⟩ := hnested.deeper (lockStep_start _ _ _) 1023 (by decide)
    (by decide +kernel)
  rw [Nat.zero_add] at hdeep
  obtain ⟨stack, hstack, hoperands⟩ := hdeep.operands paddedHost (by omega)
  obtain ⟨gas, rest, hprepared⟩ := hdeep.prepared (by decide) hgas hstack
  have hlock : LockStep m := reaches_invariant (fun _ _ hm hstep => LockStep.step hm hstep)
    (lockStep_start _ _ _) hreach
  have hfull : m.active.evm.framePoolDepth = 1024 := by
    rw [hlock.framePool, ← hlock.depth, hdeep.depth]
  refine ⟨pushing m 6 stack, hreach.trans hoperands, hdeep.depth, hfull, ?_, ?_, _, _, hprepared⟩
  · rintro ⟨hleft, -⟩
    exact absurd (hfull ▸ hleft) (by decide)
  · change (m.active.frame.code[6]?).map dispatchTable = _
    rw [hdeep.code]
    rfl

end Div0.CallDepth
