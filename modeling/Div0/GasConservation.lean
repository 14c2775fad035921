import Div0.RunEffects

/-!
Gas over whole executions. In every machine state that a run reaches, the gas of all frames
together is at most what the run started with, and no step makes it grow: the stipend of a
call with value comes out of the surcharge. The differences that are taken on the way, the
charges, the price of a larger memory, the division between caller and child and the
reported gas, are differences of integers and never wrap round.
-/

namespace Div0.GasConservation

open BigEndian Effects EvmContext Memory Node Uint256 WorldState Frame CallOps Interpreter OpEffects
open CallEffects RunEffects

/-- What is said about the gas in a state of a run that started with `gas`. -/
structure GasSafe (host : Host) (gas : UInt64) (m : Machine) : Prop where
  /-- The frames together have at most the gas of the run. -/
  total_le : gasOf (frames m) ≤ gas.toNat
  /-- No step makes gas. -/
  step_le : ∀ m', step host m = .running m' → gasOf (frames m') ≤ gasOf (frames m)
  /-- A charge takes its cost from the gas. -/
  charge_exact : ∀ cost s', charge cost m.active = .ok () s' →
    s'.frame.gas.toNat + cost.toNat = m.active.frame.gas.toNat
  /-- A larger memory costs more than the one the frame has. -/
  price_le : ∀ words, evmMemorySize m.active.frame.memory / 32 < words → words.toNat < 2 ^ 59 →
    memoryPrice (evmMemorySize m.active.frame.memory / 32) ≤ memoryPrice words
  /-- Caller and child have the caller's gas, without the cost of the call and with the
  stipend. -/
  call_exact : ∀ r memCost wasCold transfersValue isNewAccount requested childGas s',
    callMemoryCost m.active.frame.memory r = some memCost →
    divideGas (callGasCost wasCold transfersValue isNewAccount memCost) requested transfersValue
      m.active = .ok childGas s' →
    s'.frame.gas.toNat + childGas.toNat +
        (callGasCost wasCold transfersValue isNewAccount memCost).toNat =
      m.active.frame.gas.toNat + (stipend transfersValue).toNat
  /-- The gas that is reported is what the root frame does not have any more, or all of it. -/
  report_exact : ∀ out, step host m = .finished out → out.1.gasUsed ≤ gas ∧
    (out.1.gasUsed.toNat + (after (dispatch host) m.active).frame.gas.toNat = gas.toNat ∨
      out.1.result = .error ∧ out.1.gasUsed = gas)

variable {host : Host} [OnArena host] {gas : UInt64} {m : Machine}

theorem report_exact_of_metered (h : Metered gas m) {out : Outcome}
    (hstep : step host m = .finished out) : out.1.gasUsed ≤ gas ∧
    (out.1.gasUsed.toNat + (after (dispatch host) m.active).frame.gas.toNat = gas.toNat ∨
      out.1.result = .error ∧ out.1.gasUsed = gas) := by
  cases moves_of_step hstep with
  | finishes hlast hcall hs hdepth hcopied hsuccess hgas =>
    rcases hgas with heq | ⟨herror, heq⟩
    · have hleft := UInt64.le_trans (ordinary_of_ending hlast hcall hs).gas h.active_le
      rw [heq, h.initial, ← hs]
      refine ⟨UInt64.sub_le hleft, Or.inl ?_⟩
      rw [UInt64.toNat_sub_of_le _ _ hleft]
      exact Nat.sub_add_cancel (UInt64.le_iff_toNat_le.mp hleft)
    · rw [heq, h.initial]
      exact ⟨UInt64.le_refl _, Or.inr ⟨herror, rfl⟩⟩
  | refuses hdispatch hfull =>
    refine ⟨?_, Or.inr ⟨rfl, h.initial⟩⟩
    change m.initialGas ≤ gas
    rw [h.initial]
    exact UInt64.le_refl _

theorem gasSafe_of_metered (h : Metered gas m) : GasSafe host gas m where
  total_le := h.gas_le
  step_le _ hstep := gasOf_step (h.memory _ (List.mem_cons_self ..)) hstep
  charge_exact cost s' hcharge := by
    obtain ⟨henough, rfl⟩ := charge_inv hcharge
    dsimp only
    rw [UInt64.toNat_sub_of_le _ _ henough]
    exact Nat.sub_add_cancel (UInt64.le_iff_toNat_le.mp henough)
  price_le words hlt hwords := by
    have hblock := inBlock_words_le (h.memory _ (List.mem_cons_self ..))
    exact UInt64.le_iff_toNat_le.mpr
      (memoryPrice_le hblock hwords (UInt64.lt_iff_toNat_lt.mp hlt))
  call_exact r memCost wasCold transfersValue isNewAccount requested childGas s' hcost hdivide := by
    have hmem := callMemoryCost_lt (h.memory _ (List.mem_cons_self ..)) hcost
    exact divideGas_exact (le_of_add_le_left (stipend_lt_callGasCost hmem)) hdivide
  report_exact _ hstep := report_exact_of_metered h hstep

/-- Gas is conserved in every run, whatever the code, the input, the state and the gas. -/
theorem gasSafe_of_reaches (host : Host) [OnArena host] (evm : Evm) (env : ExecutionEnv)
    {m : Machine} (h : Reaches (step host) (start evm env) m) : GasSafe host env.call.gas m :=
  gasSafe_of_metered
    (reaches_invariant (fun _ _ hs hstep => Metered.step hs hstep) (metered_start evm env) h)

def lowAddress (n : UInt8) : Address := ⟨List.replicate 19 0 ++ [n], rfl⟩

abbrev paddedHost : Host := arenaWith padded

/-- The machine after `n` instructions. -/
abbrev stepped (n : ℕ) (m : Machine) : Machine := advance (step paddedHost) n m

/-- A call in which account 2 runs `code`. -/
def running (gas : UInt64) (code : Bytes) : ExecutionEnv :=
  ⟨blockContextInit, ⟨lowAddress 1, uint256Zero, []⟩,
    ⟨uint256Zero, gas, code, [], lowAddress 1, lowAddress 2, false⟩⟩

def payerCode : Bytes :=
  [0x60, 32, 0x5f, 0x5f, 0x5f, 0x60, 7, 0x60, 3, 0x61, 0xff, 0xff, 0xf1, 0x60, 32, 0x5f, 0xf3]

def payeeCode : Bytes := [0x34, 0x5f, 0x52, 0x60, 32, 0x5f, 0xf3]

def paymentWorld : World :=
  wsSetCode paddedHost
    (wsSetBalance paddedHost worldStateCreate (lowAddress 2) (uint256FromU64 100))
    (lowAddress 3) payeeCode

def payment (gas : UInt64) : ExecutionEnv := running gas payerCode

def paymentStart : Machine :=
  start { evmInit .cancun with state := some paymentWorld } (payment 100000)

/-- In the child of a call with value. -/
theorem gasSafe_of_reaches_payment :
    (stepped 9 paymentStart).active.frame.depth = 1 ∧
      GasSafe paddedHost 100000 (stepped 9 paymentStart) :=
  ⟨by decide +kernel,
    gasSafe_of_reaches paddedHost _ (payment 100000) (reaches_advance _ 9 paymentStart)⟩

end Div0.GasConservation
