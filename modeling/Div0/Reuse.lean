import Div0.GasConservation
import Div0.TwinOps

/-!
An EVM is used again for the next transaction. A frame from the pool has every field set
before it runs, with a new stack and an empty memory, so the pools carry nothing over but
their depths. What `evm_reset` leaves are the capacities of the log vector and of the return
buffer, and whole runs do not depend on them: the machines take the same steps and finish
with the same result.
-/

namespace Div0.Reuse

open BigEndian Buffer Effects EvmContext Memory Node Uint256 WorldState Frame CallOps Interpreter
open CallEffects RunEffects GasConservation TwoRuns Capacities

variable {host : Host}

section ReturnData

theorem le_returnCapacity (size rounds capacity : ℕ) : size ≤ returnCapacity size rounds capacity := by
  induction rounds generalizing capacity with
  | zero => exact le_refl size
  | succ rounds ih =>
    unfold returnCapacity
    split
    · split
      · exact le_refl size
      · exact ih (capacity * 2)
    · next hfits => exact not_lt.mp hfits

/-- A buffer for data that fit a block fits a block. -/
theorem returnCapacity_le {size : ℕ} (hsize : size ≤ 65536) (rounds : ℕ) {k : ℕ} (hk : k ≤ 16) :
    returnCapacity size rounds (2 ^ k) ≤ 65536 := by
  induction rounds generalizing k with
  | zero => exact hsize
  | succ rounds ih =>
    unfold returnCapacity
    split
    · next hsmall =>
      split
      · exact hsize
      · rw [← Nat.pow_succ]
        refine ih (Nat.succ_le_of_lt (lt_of_le_of_ne hk ?_))
        rintro rfl
        omega
    · exact Nat.pow_le_pow_right (by norm_num) hk

variable [harena : OnArena host] {evm evm' : Evm} {mem : EvmMemory} {offset size : UInt64}

variable (host mem offset) in
/-- Data are copied exactly if they are in the memory and fit a block. -/
theorem copyReturnData_grown (hcapacity : evm.returnDataCapacity ≤ 65536) (hsize : size ≠ 0) :
    (∃ bytes, evmMemoryLoad mem offset size = some bytes ∧ size.toNat ≤ 65536 ∧
      ∃ capacity ≤ 65536, copyReturnData host evm mem offset size =
        some { evm with returnData := bytes, returnDataCapacity := capacity }) ∨
      ((evmMemoryLoad mem offset size = none ∨ 65536 < size.toNat) ∧
        copyReturnData host evm mem offset size = none) := by
  unfold copyReturnData
  rw [if_neg hsize]
  cases hload : evmMemoryLoad mem offset size with
  | none => exact .inr ⟨.inl rfl, rfl⟩
  | some bytes =>
    dsimp only
    by_cases hfits : size.toNat ≤ evm.returnDataCapacity
    · rw [if_pos hfits]
      exact .inl ⟨bytes, rfl, le_trans hfits hcapacity, _, hcapacity, rfl⟩
    rw [if_neg hfits]
    by_cases hblock : size.toNat ≤ 65536
    · have hle : returnCapacity size.toNat 57 256 ≤ 65536 := returnCapacity_le hblock 57 (k := 8) (by omega)
      have hpos : 0 < returnCapacity size.toNat 57 256 :=
        lt_of_lt_of_le (by omega) (le_returnCapacity size.toNat 57 256)
      rw [if_pos (harena.supply.grants _ hpos hle)]
      exact .inl ⟨bytes, rfl, hblock, _, hle, rfl⟩
    · have hlarge := lt_of_lt_of_le (not_le.mp hblock) (le_returnCapacity size.toNat 57 256)
      have hrefused : host.alloc (returnCapacity size.toNat 57 256) = false := by
        rw [harena.alloc_eq]
        exact arenaAlloc_refuses hlarge
      rw [hrefused]
      exact .inr ⟨.inr (not_le.mp hblock), rfl⟩

theorem setReturnData_twin (h : TwinEvms evm evm') (bytes : Bytes) {capacity capacity' : ℕ}
    (hle : capacity ≤ 65536) (hle' : capacity' ≤ 65536) :
    TwinEvms { evm with returnData := bytes, returnDataCapacity := capacity }
      { evm' with returnData := bytes, returnDataCapacity := capacity' } := by
  cases h with
  | twin hgrown hgrown' =>
    exact .twin ⟨hgrown.logs, hgrown.logsCapacity, hle⟩ ⟨hgrown'.logs, hgrown'.logsCapacity, hle'⟩

theorem copyReturnData_twin (h : TwinEvms evm evm') {copied : Evm}
    (hcopy : copyReturnData host evm mem offset size = some copied) :
    ∃ copied', copyReturnData host evm' mem offset size = some copied' ∧
      TwinEvms copied copied' := by
  by_cases hsize : size = 0
  · subst hsize
    cases hcopy
    exact ⟨_, rfl, setReturnData_twin h [] h.grown.returnData h.grown'.returnData⟩
  rcases copyReturnData_grown host mem offset h.grown.returnData hsize with
    ⟨bytes, hload, hblock, capacity, hle, hfirst⟩ | ⟨-, hnone⟩
  · rcases copyReturnData_grown host mem offset h.grown'.returnData hsize with
      ⟨bytes', hload', -, capacity', hle', hsecond⟩ | ⟨hload' | hlarge, -⟩
    · rw [hfirst] at hcopy
      cases hcopy
      obtain rfl : bytes = bytes' := Option.some.inj (hload.symm.trans hload')
      exact ⟨_, hsecond, setReturnData_twin h bytes hle hle'⟩
    · rw [hload] at hload'
      cases hload'
    · exact absurd hblock (not_le.mpr hlarge)
  · rw [hnone] at hcopy
    cases hcopy

end ReturnData

variable {o : Outcome}

section Steps

variable [harena : OnArena host]

/-- The machines differ in capacities alone. -/
structure TwinMachines (m n : Machine) : Prop where
  active : Twins m.active n.active
  parents : List.Forall₂ TwinFrames m.parents n.parents
  initialGas : m.initialGas = n.initialGas

def TwinOutcomes (o o' : Outcome) : Prop := o.1 = o'.1 ∧ TwinEvms o.2 o'.2

variable {m n : Machine} {evm evm' : Evm}

theorem storeOutput_twin {parent parent' stored : CallFrame} (hevm : TwinEvms evm evm')
    (h : TwinFrames parent parent') (hstore : storeOutput evm parent = some stored) :
    ∃ stored', storeOutput evm' parent' = some stored' ∧ TwinFrames stored stored' := by
  have hdata : evm'.returnData = evm.returnData := hevm.same Evm.returnData
  cases h with
  | twin hstack =>
    unfold storeOutput at hstore ⊢
    dsimp only at hstore ⊢
    rw [hdata]
    split at hstore
    · next hempty =>
      cases hstore
      rw [if_pos hempty]
      exact ⟨_, rfl, .twin hstack⟩
    · next hdata =>
      rw [if_neg hdata]
      split at hstore
      · cases hstore
      · cases hstore
        exact ⟨_, rfl, .twin hstack⟩

/-- Both machines deliver the result, unless the first one has no room for it. -/
theorem resume_along {parent parent' : CallFrame} {parents parents' : List CallFrame}
    (hgas : m.initialGas = n.initialGas) (hevm : TwinEvms evm evm') (h : TwinFrames parent parent')
    (hparents : List.Forall₂ TwinFrames parents parents') (result : Word)
    (hstuck : resume m evm parent parents result ≠ .stuck) :
    Along TwinMachines TwinOutcomes (resume m evm parent parents result)
      (resume n evm' parent' parents' result) := by
  unfold resume at hstuck ⊢
  cases hpush : evmStackPush parent.stack result with
  | none =>
    rw [hpush] at hstuck
    exact absurd rfl hstuck
  | some stack =>
    obtain ⟨stack', hpush', hstack⟩ := h.stack.push result hpush
    rw [hpush']
    refine .running ⟨⟨?_, h.setStack hstack⟩, hparents, hgas⟩
    cases hevm with
    | twin hgrown hgrown' => exact .twin hgrown hgrown'

theorem finishChild_along (h : TwinMachines m n) (offset size : UInt64) (result : Word)
    (hstuck : finishChild host m offset size result ≠ .stuck) :
    Along TwinMachines TwinOutcomes (finishChild host m offset size result)
      (finishChild host n offset size result) := by
  obtain ⟨active, parents, gas⟩ := m
  obtain ⟨active', parents', gas'⟩ := n
  obtain ⟨hactive, hparents, hgas⟩ := h
  have hmemory : active'.frame.memory = active.frame.memory := hactive.frame.same CallFrame.memory
  have hleft : active'.frame.gas = active.frame.gas := hactive.frame.same CallFrame.gas
  unfold finishChild at hstuck ⊢
  dsimp only at hparents hstuck ⊢
  rw [hmemory, hleft]
  cases hparents with
  | nil => exact absurd rfl hstuck
  | @cons parent parent' _ _ hparent hrest =>
    dsimp only at hstuck ⊢
    cases hcopy : copyReturnData host active.evm active.frame.memory offset size with
    | none =>
      rw [hcopy] at hstuck
      exact absurd rfl hstuck
    | some copied =>
      obtain ⟨copied', hcopy', hcopied⟩ := copyReturnData_twin hactive.evm hcopy
      rw [hcopy] at hstuck
      rw [hcopy']
      dsimp only at hstuck ⊢
      cases hstore : storeOutput copied parent with
      | none =>
        rw [hstore] at hstuck
        exact absurd rfl hstuck
      | some stored =>
        obtain ⟨stored', hstore', hstored⟩ := storeOutput_twin hcopied hparent hstore
        rw [hstore] at hstuck
        rw [hstore']
        have hpaid : TwinFrames { stored with gas := stored.gas + active.frame.gas }
            { stored' with gas := stored'.gas + active.frame.gas } := by
          cases hstored with
          | twin hstack => exact .twin hstack
        exact resume_along hgas hcopied hpaid hrest result hstuck

/-- The end of the root frame with its data copied. -/
theorem copied_along (h : TwinMachines m n) (offset size : UInt64) {f f' : Evm → Outcome}
    (hf : ∀ evm evm', TwinEvms evm evm' → TwinOutcomes (f evm) (f' evm'))
    (hstuck : (match copyReturnData host m.active.evm m.active.frame.memory offset size with
      | none => .stuck
      | some evm => .finished (f evm) : Next Machine Outcome) ≠ .stuck) :
    Along TwinMachines TwinOutcomes
      (match copyReturnData host m.active.evm m.active.frame.memory offset size with
        | none => .stuck
        | some evm => .finished (f evm))
      (match copyReturnData host n.active.evm n.active.frame.memory offset size with
        | none => .stuck
        | some evm => .finished (f' evm)) := by
  have hmemory : n.active.frame.memory = m.active.frame.memory :=
    h.active.frame.same CallFrame.memory
  rw [hmemory]
  cases hcopy : copyReturnData host m.active.evm m.active.frame.memory offset size with
  | none =>
    rw [hcopy] at hstuck
    exact absurd rfl hstuck
  | some copied =>
    obtain ⟨copied', hcopy', hcopied⟩ := copyReturnData_twin h.active.evm hcopy
    rw [hcopy']
    exact .finished (hf _ _ hcopied)

/-- The results of root frames that succeed. -/
theorem succeed_twin (h : TwinMachines m n) (hevm : TwinEvms evm evm') : TwinOutcomes
    (⟨.stop, .ok, m.initialGas - m.active.frame.gas, evm.gasRefund, evm.returnData, evm.logs⟩, evm)
    (⟨.stop, .ok, n.initialGas - n.active.frame.gas, evm'.gasRefund, evm'.returnData, evm'.logs⟩,
      evm') := by
  have hgas : n.active.frame.gas = m.active.frame.gas := h.active.frame.same CallFrame.gas
  refine ⟨?_, hevm⟩
  dsimp only
  rw [hgas, h.initialGas, hevm.same Evm.gasRefund, hevm.same Evm.returnData, hevm.same Evm.logs]

theorem settle_along (h : TwinMachines m n) (result : FrameResult)
    (hstuck : settle host m result ≠ .stuck) :
    Along TwinMachines TwinOutcomes (settle host m result) (settle host n result) := by
  have hdepth : n.active.frame.depth = m.active.frame.depth := h.active.frame.same CallFrame.depth
  have hgas : n.active.frame.gas = m.active.frame.gas := h.active.frame.same CallFrame.gas
  have hevm := h.active.evm
  unfold settle at hstuck ⊢
  cases result with
  | stop =>
    dsimp only at hstuck ⊢
    rw [hdepth]
    by_cases hroot : m.active.frame.depth = 0
    · rw [if_pos hroot, if_pos hroot]
      exact .finished (succeed_twin h hevm)
    · rw [if_neg hroot] at hstuck
      rw [if_neg hroot, if_neg hroot]
      exact finishChild_along h _ _ _ hstuck
  | return_ offset size =>
    dsimp only at hstuck ⊢
    rw [hdepth]
    by_cases hroot : m.active.frame.depth = 0
    · rw [if_pos hroot] at hstuck
      rw [if_pos hroot, if_pos hroot]
      exact copied_along h offset size (fun _ _ hcopied => succeed_twin h hcopied) hstuck
    · rw [if_neg hroot] at hstuck
      rw [if_neg hroot, if_neg hroot]
      exact finishChild_along h _ _ _ hstuck
  | revert offset size =>
    dsimp only at hstuck ⊢
    rw [hdepth]
    by_cases hroot : m.active.frame.depth = 0
    · rw [if_pos hroot] at hstuck
      rw [if_pos hroot, if_pos hroot]
      refine copied_along h offset size (fun _ _ hcopied => ⟨?_, hcopied⟩) hstuck
      rw [hgas, h.initialGas, hcopied.same Evm.returnData]
    · rw [if_neg hroot] at hstuck
      rw [if_neg hroot, if_neg hroot]
      exact finishChild_along h _ _ _ hstuck
  | call =>
    have hparents := h.parents
    have hlength : n.parents.length = m.parents.length := hparents.length_eq.symm
    have hpending : n.active.evm.pendingFrame = m.active.evm.pendingFrame :=
      hevm.same Evm.pendingFrame
    dsimp only at hstuck ⊢
    rw [hlength, hpending]
    by_cases hfull : evmMaxCallDepth ≤ m.parents.length
    · rw [if_pos hfull, if_pos hfull]
      exact .finished ⟨by rw [failed, failed, h.initialGas], hevm⟩
    · rw [if_neg hfull] at hstuck
      rw [if_neg hfull, if_neg hfull]
      cases hchild : m.active.evm.pendingFrame with
      | none =>
        rw [hchild] at hstuck
        exact absurd rfl hstuck
      | some child =>
        have hcleared : ∀ {evm evm' : Evm}, TwinEvms evm evm' →
            TwinEvms { evm with pendingFrame := none } { evm' with pendingFrame := none } := by
          rintro evm evm' ⟨hgrown, hgrown'⟩
          exact .twin hgrown hgrown'
        exact .running ⟨⟨hcleared hevm, .refl child⟩, .cons h.active.frame hparents, h.initialGas⟩
  | error status =>
    dsimp only at hstuck ⊢
    rw [hdepth]
    by_cases hroot : m.active.frame.depth = 0
    · rw [if_pos hroot, if_pos hroot]
      exact .finished ⟨by rw [failed, failed, h.initialGas], hevm⟩
    · rw [if_neg hroot] at hstuck
      rw [if_neg hroot, if_neg hroot]
      obtain ⟨active, parents, gas⟩ := m
      obtain ⟨active', parents', gas'⟩ := n
      obtain ⟨hactive, hparents, hinitial⟩ := h
      dsimp only at hparents hstuck ⊢
      cases hparents with
      | nil => exact absurd rfl hstuck
      | cons hparent hrest =>
        have hcleared : ∀ {evm evm' : Evm}, TwinEvms evm evm' →
            TwinEvms { evm with returnData := [] } { evm' with returnData := [] } := by
          rintro evm evm' ⟨hgrown, hgrown'⟩
          exact .twin hgrown hgrown'
        exact resume_along hinitial (hcleared hevm) hparent hrest uint256Zero hstuck

omit harena in
/-- A stack that is written past its end stops the machine. -/
theorem avoids_of_step (h : step host m ≠ .stuck) : Avoids StackFault (dispatch host m.active) := by
  unfold step at h
  cases hdispatch : dispatch host m.active with
  | ok result s => trivial
  | error halt s =>
    rintro rfl
    rw [hdispatch] at h
    exact h rfl

/-- A machine that differs in capacities takes the same step. -/
theorem step_along (h : TwinMachines m n) (hstuck : step host m ≠ .stuck) :
    Along TwinMachines TwinOutcomes (step host m) (step host n) := by
  have hfollows : Twinned (dispatch host) := inferInstance
  have hagree := hfollows.follows _ _ h.active (avoids_of_step hstuck)
  unfold step at hstuck ⊢
  generalize dispatch host m.active = first at hagree hstuck ⊢
  generalize dispatch host n.active = second at hagree ⊢
  cases hagree with
  | @ok result s t hactive =>
    have htwins : TwinMachines { m with active := s } { n with active := t } :=
      ⟨hactive, h.parents, h.initialGas⟩
    cases result with
    | none => exact .running htwins
    | some result => exact settle_along htwins result hstuck
  | @error halt s t hactive =>
    have htwins : TwinMachines { m with active := s } { n with active := t } :=
      ⟨hactive, h.parents, h.initialGas⟩
    cases halt with
    | status error => exact settle_along htwins (.error error) hstuck
    | undefined access => exact absurd rfl hstuck
    | diverges => exact absurd rfl hstuck

/-- An execution on an EVM that differs in capacities has the same result. -/
theorem runFor_twin {fuel : ℕ} (h : TwinMachines m n) (hrun : runFor (step host) fuel m = some o) :
    ∃ o', runFor (step host) fuel n = some o' ∧ TwinOutcomes o o' :=
  runFor_along (fun _ _ => step_along) h hrun

end Steps

section Histories

/-- The EVMs that executions lead to, from `evm_init` on. They may have failed, and the EVM need
not have been reset between them. -/
inductive History (host : Host) (fork : Fork) : Evm → Prop
  | init : History host fork (evmInit fork)
  | reset {evm : Evm} (h : History host fork evm) : History host fork (evmReset evm)
  | setState {evm : Evm} (h : History host fork evm) (state : Option World) :
      History host fork { evm with state := state }
  | executed {evm evm' : Evm} (h : History host fork evm) {fuel : ℕ} {env : ExecutionEnv}
      {result : EvmExecutionResult} (hrun : evmExecuteEnv host fuel evm env = some (result, evm')) :
      History host fork evm'

def observed (o : Outcome) : EvmExecutionResult × Option World := (o.1, o.2.state)

variable [OnArena host] {fork : Fork} {evm evm' : Evm}

theorem start_twin (h : TwinEvms evm evm') (env : ExecutionEnv) :
    TwinMachines (start evm env) (start evm' env) := by
  refine ⟨⟨?_, .refl _⟩, .nil, rfl⟩
  cases h with
  | twin hgrown hgrown' => exact .twin hgrown hgrown'

/-- The EVM at the end of a step that finishes, with the fork it was made for. -/
theorem fork_finished {m : Machine} (h : step host m = .finished o) :
    o.2.fork = m.active.evm.fork := by
  cases moves_of_step h with
  | finishes hlast hcall hs _ hcopied =>
    have hordinary := ordinary_of_ending hlast hcall hs
    rw [hcopied.rest]
    exact (congrArg Evm.fork hordinary.evm :)
  | refuses hdispatch =>
    obtain ⟨-, child, hstarts⟩ := dispatch_starts hdispatch
    obtain ⟨s₁, r, hordinary, -, rfl⟩ := hstarts.entered
    exact (congrArg Evm.fork hordinary.evm :)

theorem fork_running {m m' : Machine} (h : step host m = .running m') :
    m'.active.evm.fork = m.active.evm.fork := by
  cases moves_of_step h with
  | goesOn hdispatch => exact (congrArg Evm.fork (ordinary_of_none hdispatch).evm :)
  | enters hdispatch _ hpending =>
    obtain ⟨s₁, r, hordinary, -, rfl⟩ := (starts_of_pending hdispatch hpending).entered
    exact (congrArg Evm.fork hordinary.evm :)
  | delivers hlast hcall hs _ _ hcopied =>
    have hordinary := ordinary_of_ending hlast hcall hs
    rw [hcopied.rest]
    exact (congrArg Evm.fork hordinary.evm :)

theorem evmExecuteEnv_fork {fuel : ℕ} {env : ExecutionEnv}
    (h : evmExecuteEnv host fuel evm env = some o) : o.2.fork = evm.fork := by
  unfold evmExecuteEnv at h
  split at h
  · cases h
    rfl
  · obtain ⟨last, hreach, hlast⟩ := runFor_finished h
    have hkept : last.active.evm.fork = (start evm env).active.evm.fork :=
      reaches_invariant (I := fun m => m.active.evm.fork = evm.fork)
        (fun _ _ hm hstep => (fork_running hstep).trans hm) rfl hreach
    exact (fork_finished hlast).trans hkept

theorem evmExecuteEnv_twin (h : TwinEvms evm evm') {fuel : ℕ} {env : ExecutionEnv}
    (hrun : evmExecuteEnv host fuel evm env = some o) :
    ∃ o', evmExecuteEnv host fuel evm' env = some o' ∧ TwinOutcomes o o' := by
  have hpool : evm'.framePoolDepth = evm.framePoolDepth := h.same Evm.framePoolDepth
  unfold evmExecuteEnv at hrun ⊢
  rw [hpool]
  split at hrun
  · next hfull =>
    cases hrun
    rw [if_pos hfull]
    refine ⟨_, rfl, rfl, ?_⟩
    cases h with
    | twin hgrown hgrown' => exact .twin hgrown hgrown'
  · next hroom =>
    rw [if_neg hroom]
    exact runFor_twin (start_twin h env) hrun

/-- Whatever was executed, the buffers are as growing leaves them and the fork is the one of the
start. -/
theorem History.invariant (h : History host fork evm) :
    evm.fork = fork ∧ Grown evm.logs evm.logsCapacity evm.returnDataCapacity := by
  induction h with
  | init => exact ⟨rfl, ⟨le_refl _, List.mem_cons_self, Nat.zero_le _⟩⟩
  | reset _ ih => exact ⟨ih.1, ⟨Nat.zero_le _, ih.2.logsCapacity, ih.2.returnData⟩⟩
  | setState _ _ ih => exact ih
  | executed _ hrun ih =>
    obtain ⟨o, -, htwins⟩ := evmExecuteEnv_twin (TwinEvms.refl ih.2) hrun
    exact ⟨(evmExecuteEnv_fork hrun).trans ih.1, htwins.2.grown⟩

/-- A reset EVM and a new one differ in the capacities of their buffers. -/
theorem History.start_twin (h : History host fork evm) (ws : World) (env : ExecutionEnv) :
    TwinMachines (start { evmReset evm with state := some ws } env)
        (start { evmInit fork with state := some ws } env) ∧
      TwinMachines (start { evmInit fork with state := some ws } env)
        (start { evmReset evm with state := some ws } env) := by
  obtain ⟨rfl, hgrown⟩ := h.invariant
  have hused : Grown [] evm.logsCapacity evm.returnDataCapacity :=
    ⟨Nat.zero_le _, hgrown.logsCapacity, hgrown.returnData⟩
  have hnew : Grown [] 0 0 := ⟨le_refl _, List.mem_cons_self, Nat.zero_le _⟩
  exact ⟨⟨⟨.twin hused hnew, .refl _⟩, .nil, rfl⟩, ⟨⟨.twin hnew hused, .refl _⟩, .nil, rfl⟩⟩

theorem observed_eq {o o' : Outcome} (h : TwinOutcomes o o') : observed o = observed o' := by
  unfold observed
  rw [h.1, h.2.same Evm.state]

/-- After any history of executions, an EVM that is reset and given a state reports the same and
leaves the same state as a new one. -/
theorem execute_reset_eq_new (host : Host) [OnArena host] {fork : Fork} {evm : Evm}
    (h : History host fork evm) (ws : World) (env : ExecutionEnv) (fuel : ℕ) :
    (evmExecuteEnv host fuel { evmReset evm with state := some ws } env).map observed =
      (evmExecuteEnv host fuel { evmInit fork with state := some ws } env).map observed := by
  obtain ⟨hforth, hback⟩ := h.start_twin ws env
  change (runFor (step _) fuel (start { evmReset evm with state := some ws } env)).map observed =
    (runFor (step _) fuel (start { evmInit fork with state := some ws } env)).map observed
  cases hused : runFor (step host) fuel (start { evmReset evm with state := some ws } env) with
  | some o =>
    obtain ⟨o', hnew, htwins⟩ := runFor_twin hforth hused
    rw [hnew, Option.map_some, Option.map_some, observed_eq htwins]
  | none =>
    cases hnew : runFor (step host) fuel (start { evmInit fork with state := some ws } env) with
    | none => rfl
    | some o =>
      obtain ⟨o', hfound, -⟩ := runFor_twin hback hnew
      rw [hused] at hfound
      cases hfound

def loggedEvm : Evm :=
  match evmExecuteEnv paddedHost 10 (evmInit .cancun)
      (running 100000 [0x5f, 0x5f, 0xa0]) with
  | some o => o.2
  | none => evmInit .cancun

theorem history_logged : History paddedHost .cancun loggedEvm := by
  unfold loggedEvm
  cases hrun : evmExecuteEnv paddedHost 10 (evmInit .cancun)
      (running 100000 [0x5f, 0x5f, 0xa0]) with
  | none => exact .init
  | some o => exact .executed .init hrun

/-- The payment after the log: the vector has kept its capacity. -/
theorem execute_reset_eq_new_logged :
    (evmReset loggedEvm).logsCapacity = 16 ∧
      (evmExecuteEnv paddedHost 30 { evmReset loggedEvm with state := some paymentWorld }
          (payment 100000)).map observed =
        (evmExecuteEnv paddedHost 30 { evmInit .cancun with state := some paymentWorld }
          (payment 100000)).map observed :=
  ⟨by decide +kernel,
    execute_reset_eq_new paddedHost history_logged paymentWorld (payment 100000) 30⟩

end Histories

end Div0.Reuse
