import Div0.CallEffects

/-!
What one step of the machine can do, said once: the frame goes on, a child is entered, the
result of a child is delivered to its parent, or the root frame ends. From this the
invariants of whole runs are read off. The first one: the gas of all frames together is at
most the gas the execution started with, the memory of every frame fits a block of the
arena, and the ledger is a rearrangement of the one at the start.
-/

namespace Div0.RunEffects

open Effects EvmContext Memory Node Uint256 WorldLedger Ledgers Frame CallOps Interpreter OpEffects
open CallEffects

variable {evm evm' : Evm} {last : FrameResult} {out : Outcome}

section Moves

def ending (host : Host) (s : Active) : Option FrameResult :=
  match dispatch host s with
  | .ok result _ => result
  | .error (.status error) _ => some (.error error)
  | .error _ _ => none

/-- The EVM after a copy to the return buffer. -/
structure Copied (evm evm' : Evm) : Prop where
  rest : evm' = { evm with
    returnData := evm'.returnData
    returnDataCapacity := evm'.returnDataCapacity }

/-- The parent with the result of its child: the output is in its memory, the result on its
stack, and the gas the child left may have been added. -/
structure Delivered (saved frame : CallFrame) (childGas : UInt64) (result : Word) : Prop where
  rest : frame = { saved with
    gas := frame.gas
    stack := frame.stack
    memory := frame.memory }
  gas : frame.gas = saved.gas ∨ frame.gas = saved.gas + childGas
  stack : evmStackPush saved.stack result = some frame.stack
  memory : frame.memory.capacity = saved.memory.capacity

def resultWord : FrameResult → Word
  | .stop | .return_ _ _ => uint256FromU64 1
  | _ => uint256Zero

/-- What one step can do. -/
inductive Moves (host : Host) (m : Machine) : Next Machine Outcome → Prop
  | goesOn {s : Active} (hdispatch : dispatch host m.active = .ok none s) :
    Moves host m (.running { m with active := s })
  | enters {s : Active} {child : CallFrame} (hdispatch : dispatch host m.active = .ok (some .call) s)
      (hroom : m.parents.length < evmMaxCallDepth) (hpending : s.evm.pendingFrame = some child) :
    Moves host m (.running ⟨⟨{ s.evm with pendingFrame := none }, child⟩, s.frame :: m.parents,
      m.initialGas⟩)
  | delivers {s : Active} {saved frame : CallFrame} {parents : List CallFrame} {evm : Evm}
      {last : FrameResult} (hlast : ending host m.active = some last) (hcall : last ≠ .call)
      (hs : s = after (dispatch host) m.active) (hdepth : s.frame.depth ≠ 0)
      (hparents : m.parents = saved :: parents) (hcopied : Copied s.evm evm)
      (hdelivered : Delivered saved frame s.frame.gas (resultWord last)) :
    Moves host m (.running ⟨⟨{ evm with
        framePoolDepth := evm.framePoolDepth - 1
        memoryPoolDepth := evm.memoryPoolDepth - 1 }, frame⟩, parents, m.initialGas⟩)
  | finishes {s : Active} {result : EvmExecutionResult} {evm : Evm} {last : FrameResult}
      (hlast : ending host m.active = some last) (hcall : last ≠ .call)
      (hs : s = after (dispatch host) m.active) (hdepth : s.frame.depth = 0)
      (hcopied : Copied s.evm evm)
      (hsuccess : result.result = .stop ↔ resultWord last = uint256FromU64 1)
      (hgas : result.gasUsed = m.initialGas - s.frame.gas ∨
        result.result = .error ∧ result.gasUsed = m.initialGas) :
    Moves host m (.finished (result, evm))
  | refuses {s : Active} (hdispatch : dispatch host m.active = .ok (some .call) s)
      (hfull : evmMaxCallDepth ≤ m.parents.length) :
    Moves host m (.finished (failed m .callDepthExceeded, s.evm))
  | stuck : Moves host m .stuck

variable {host : Host} {m : Machine}

theorem Copied.refl (evm : Evm) : Copied evm evm := ⟨rfl⟩

theorem copyReturnData_copied {mem : EvmMemory} {offset size : UInt64}
    (h : copyReturnData host evm mem offset size = some evm') : Copied evm evm' := by
  unfold copyReturnData at h
  split at h
  · cases h
    exact ⟨rfl⟩
  split at h
  · cases h
  split at h
  · cases h
    exact ⟨rfl⟩
  dsimp only at h
  split at h
  · cases h
    exact ⟨rfl⟩
  · cases h

theorem storeOutput_inv {parent parent' : CallFrame} (h : storeOutput evm parent = some parent') :
    parent' = { parent with memory := parent'.memory } ∧
      parent'.memory.capacity = parent.memory.capacity := by
  unfold storeOutput at h
  dsimp only at h
  split at h
  · cases h
    exact ⟨rfl, rfl⟩
  split at h
  · cases h
  · next mem hstore =>
    cases h
    exact ⟨rfl, evmMemoryStore_capacity hstore⟩

theorem step_of_ending (h : ending host m.active = some last) :
    step host m = settle host { m with active := after (dispatch host) m.active } last := by
  unfold ending at h
  unfold step
  cases hdispatch : dispatch host m.active with
  | ok result s =>
    rw [hdispatch] at h
    cases h
    rw [after_of_ok hdispatch]
  | error halt s =>
    rw [hdispatch] at h
    cases halt <;> cases h
    rw [after_of_error hdispatch]

section Deliveries

variable {s : Active} {last : FrameResult} (hlast : ending host m.active = some last)
  (hcall : last ≠ .call) (hs : s = after (dispatch host) m.active) (hdepth : s.frame.depth ≠ 0)
include hlast hcall hs hdepth

theorem resume_moves {saved parent : CallFrame} {parents : List CallFrame}
    (hparents : m.parents = saved :: parents) (hcopied : Copied s.evm evm)
    (hrest : parent = { saved with gas := parent.gas, memory := parent.memory })
    (hgas : parent.gas = saved.gas ∨ parent.gas = saved.gas + s.frame.gas)
    (hmemory : parent.memory.capacity = saved.memory.capacity) :
    Moves host m (resume { m with active := s } evm parent parents (resultWord last)) := by
  unfold resume
  have hstack : parent.stack = saved.stack := by rw [hrest]
  cases hpush : evmStackPush parent.stack (resultWord last) with
  | none => exact .stuck
  | some stack =>
    refine .delivers hlast hcall hs hdepth hparents hcopied ⟨?_, hgas, ?_, hmemory⟩
    · dsimp only
      rw [hrest]
    · rw [← hstack]
      exact hpush

theorem finishChild_moves (offset size : UInt64) :
    Moves host m (finishChild host { m with active := s } offset size (resultWord last)) := by
  unfold finishChild
  dsimp only
  split
  · exact .stuck
  · next saved parents hparents =>
    split
    · exact .stuck
    · next evm hcopy =>
      split
      · exact .stuck
      · next parent hstore =>
        obtain ⟨hrest, hmemory⟩ := storeOutput_inv hstore
        refine resume_moves hlast hcall hs hdepth hparents (copyReturnData_copied hcopy) ?_ ?_ hmemory
        · rw [hrest]
        · rw [hrest]
          exact Or.inr rfl

end Deliveries

/-- The end of a child does not end the execution. -/
theorem finishChild_ne_finished {offset size : UInt64} {result : Word} :
    finishChild host m offset size result ≠ .finished out := by
  intro h
  unfold finishChild at h
  split at h
  · cases h
  · split at h
    · cases h
    · split at h
      · cases h
      · unfold resume at h
        split at h <;> cases h

theorem settle_moves {s : Active} (hlast : ending host m.active = some last)
    (hcall : last ≠ .call) (hs : s = after (dispatch host) m.active) :
    Moves host m (settle host { m with active := s } last) := by
  have hone : uint256FromU64 1 ≠ uint256Zero := by decide
  by_cases hdepth : s.frame.depth = 0
  · cases last with
    | call => exact absurd rfl hcall
    | stop =>
      simp only [settle, if_pos hdepth, succeed]
      exact .finishes hlast hcall hs hdepth (.refl _) (by simp [resultWord]) (Or.inl rfl)
    | return_ offset size =>
      simp only [settle, if_pos hdepth]
      split
      · exact .stuck
      · next evm hcopy =>
        exact .finishes hlast hcall hs hdepth (copyReturnData_copied hcopy) (by simp [resultWord])
          (Or.inl rfl)
    | revert offset size =>
      simp only [settle, if_pos hdepth]
      split
      · exact .stuck
      · next evm hcopy =>
        exact .finishes hlast hcall hs hdepth (copyReturnData_copied hcopy)
          (by simp [resultWord, hone.symm]) (Or.inl rfl)
    | error status =>
      simp only [settle, if_pos hdepth]
      exact .finishes hlast hcall hs hdepth (.refl _) (by simp [failed, resultWord, hone.symm])
        (Or.inr ⟨rfl, rfl⟩)
  · cases last with
    | call => exact absurd rfl hcall
    | stop =>
      simp only [settle, if_neg hdepth]
      exact finishChild_moves hlast hcall hs hdepth 0 0
    | return_ offset size =>
      simp only [settle, if_neg hdepth]
      exact finishChild_moves hlast hcall hs hdepth offset size
    | revert offset size =>
      simp only [settle, if_neg hdepth]
      exact finishChild_moves hlast hcall hs hdepth offset size
    | error status =>
      simp only [settle, if_neg hdepth]
      split
      · exact .stuck
      · next saved parents hparents =>
        exact resume_moves hlast hcall hs hdepth hparents ⟨rfl⟩ rfl (Or.inl rfl) rfl

/-- Every step is one of these moves. -/
theorem step_moves (host : Host) (m : Machine) : Moves host m (step host m) := by
  unfold step
  cases hdispatch : dispatch host m.active with
  | ok result s =>
    have hs : s = after (dispatch host) m.active := (after_of_ok hdispatch).symm
    cases result with
    | none => exact .goesOn hdispatch
    | some last =>
      by_cases hcall : last = .call
      · subst hcall
        simp only [settle]
        split
        · next hfull => exact .refuses hdispatch hfull
        · next hroom =>
          split
          · exact .stuck
          · next child hpending => exact .enters hdispatch (not_le.mp hroom) hpending
      · exact settle_moves (by simp only [ending, hdispatch]) hcall hs
  | error halt s =>
    have hs : s = after (dispatch host) m.active := (after_of_error hdispatch).symm
    cases halt with
    | status error => exact settle_moves (by simp only [ending, hdispatch]) (by simp) hs
    | undefined access => exact .stuck
    | diverges => exact .stuck

theorem moves_of_step {next : Next Machine Outcome} (h : step host m = next) : Moves host m next :=
  h ▸ step_moves host m

end Moves

section Invariant

variable {host : Host} {m m' : Machine} {gas : UInt64} {l : Ledger Hash}

theorem not_call_of_ending {s : Active} (hlast : ending host s = some last) (hcall : last ≠ .call)
    (s' : Active) : dispatch host s ≠ .ok (some .call) s' := by
  intro hrun
  simp only [ending, hrun, Option.some.injEq] at hlast
  exact hcall hlast.symm

variable {s s' : Active}

theorem not_call_of_none (h : dispatch host s = .ok none s') (s'' : Active) :
    dispatch host s ≠ .ok (some .call) s'' := by
  rw [h]
  exact fun heq => by cases heq

theorem showsState_congr (h : ShowsState host evm l) (hstate : evm'.state = evm.state) :
    ShowsState host evm' l := by
  obtain ⟨ws, hws, hshows⟩ := h
  exact ⟨ws, hstate.trans hws, hshows⟩

theorem Copied.state (h : Copied evm evm') : evm'.state = evm.state := by
  rw [h.rest]

def frames (m : Machine) : List CallFrame := m.active.frame :: m.parents

def gasOf (frames : List CallFrame) : ℕ := (frames.map fun f => f.gas.toNat).sum

@[simp] theorem gasOf_cons (frame : CallFrame) (frames : List CallFrame) :
    gasOf (frame :: frames) = frame.gas.toNat + gasOf frames := by
  simp only [gasOf, List.map_cons, List.sum_cons]

/-- The parent goes on with at most its own gas and the gas the child had left. -/
theorem Delivered.gas_le {saved frame : CallFrame} {childGas : UInt64} {result : Word}
    (h : Delivered saved frame childGas result) :
    frame.gas.toNat ≤ saved.gas.toNat + childGas.toNat := by
  rcases h.gas with heq | heq
  · rw [heq]
    omega
  · rw [heq, UInt64.toNat_add]
    exact Nat.mod_le _ _

theorem initialGas_step (h : step host m = .running m') : m'.initialGas = m.initialGas := by
  cases moves_of_step h <;> rfl

/-- The invariant of a run that started with `gas`. -/
structure Metered (gas : UInt64) (m : Machine) : Prop where
  initial : m.initialGas = gas
  gas_le : gasOf (frames m) ≤ gas.toNat
  memory : ∀ frame ∈ frames m, InBlock frame.memory

/-- The invariant of a run that started with `gas` and the ledger `l`. -/
structure Bounded (host : Host) (gas : UInt64) (l : Ledger Hash) (m : Machine) : Prop
    extends Metered gas m where
  ledger : ∃ l', ShowsState host m.active.evm l' ∧ l.Rearranged (2 ^ 256) l'

theorem metered_start (evm : Evm) (env : ExecutionEnv) : Metered env.call.gas (start evm env) where
  initial := rfl
  gas_le := by
    rw [frames, gasOf_cons]
    exact le_of_eq (Nat.add_zero _)
  memory := by
    intro frame hframe
    rcases List.mem_cons.mp hframe with rfl | hnone
    · exact inBlock_init
    · cases hnone

theorem bounded_start (env : ExecutionEnv) (h : ShowsState host evm l) :
    Bounded host env.call.gas l (start evm env) :=
  ⟨metered_start evm env, l, showsState_congr h rfl, .refl _ l⟩

theorem Metered.active_le (h : Metered gas m) : m.active.frame.gas ≤ gas := by
  have hsum := h.gas_le
  rw [frames, gasOf_cons] at hsum
  exact UInt64.le_iff_toNat_le.mpr (by omega)

variable [OnArena host]

theorem ordinary_of_ending (hlast : ending host s = some last) (hcall : last ≠ .call)
    (hs : s' = after (dispatch host) s) : Ordinary host s s' :=
  hs ▸ ordinary_dispatch s (not_call_of_ending hlast hcall)

theorem ordinary_of_none (h : dispatch host s = .ok none s') : Ordinary host s s' :=
  after_of_ok h ▸ ordinary_dispatch s (not_call_of_none h)

/-- A call leaves its caller with the pending child. -/
theorem starts_of_pending {child : CallFrame} (h : dispatch host s = .ok (some .call) s')
    (hpending : s'.evm.pendingFrame = some child) :
    Starts host (s.frame.isStatic = true ∨ writesNext s.frame = false) s s' child := by
  obtain ⟨-, started, hstarts⟩ := dispatch_starts h
  obtain ⟨s₁, r, -, -, heq⟩ := hstarts.entered
  rw [heq] at hpending
  cases hpending
  exact hstarts

/-- The gas of all frames together does not grow in a step. -/
theorem gasOf_step (hmem : InBlock m.active.frame.memory) (h : step host m = .running m') :
    gasOf (frames m') ≤ gasOf (frames m) := by
  have hmoves := moves_of_step h
  unfold frames
  cases hmoves with
  | goesOn hdispatch =>
    have hle := UInt64.le_iff_toNat_le.mp (ordinary_of_none hdispatch).gas
    simp only [gasOf_cons]
    omega
  | enters hdispatch hroom hpending =>
    have hsplit := (starts_of_pending hdispatch hpending).gas hmem
    simp only [gasOf_cons]
    omega
  | delivers hlast hcall hs hdepth hparents hcopied hdelivered =>
    have hle := UInt64.le_iff_toNat_le.mp (ordinary_of_ending hlast hcall hs).gas
    have hback := hdelivered.gas_le
    rw [hparents]
    simp only [gasOf_cons]
    omega

/-- What a step keeps of every frame: an instruction keeps it, a call keeps it and starts its
child with it, and so does the result that comes back. -/
theorem frames_step {P : CallFrame → Prop} (hm : ∀ frame ∈ frames m, P frame)
    (h : step host m = .running m')
    (hnone : ∀ {s}, dispatch host m.active = .ok none s → P m.active.frame → P s.frame)
    (hcall : ∀ {s child calm}, dispatch host m.active = .ok (some .call) s →
      Starts host calm m.active s child → P m.active.frame → P s.frame ∧ P child)
    (hback : ∀ {saved frame gas word}, Delivered saved frame gas word → P saved → P frame) :
    ∀ frame ∈ frames m', P frame := by
  have hmoves := moves_of_step h
  unfold frames at hm ⊢
  rw [List.forall_mem_cons] at hm
  obtain ⟨hactive, hothers⟩ := hm
  cases hmoves with
  | goesOn hdispatch => exact List.forall_mem_cons.mpr ⟨hnone hdispatch hactive, hothers⟩
  | enters hdispatch hroom hpending =>
    obtain ⟨hcaller, hchild⟩ := hcall hdispatch (starts_of_pending hdispatch hpending) hactive
    exact List.forall_mem_cons.mpr ⟨hchild, List.forall_mem_cons.mpr ⟨hcaller, hothers⟩⟩
  | delivers hlast hreturn hs hdepth hparents hcopied hdelivered =>
    rw [hparents, List.forall_mem_cons] at hothers
    exact List.forall_mem_cons.mpr ⟨hback hdelivered hothers.1, hothers.2⟩

/-- The memory of every frame fits a block. -/
theorem inBlock_step (hmem : ∀ frame ∈ frames m, InBlock frame.memory)
    (h : step host m = .running m') : ∀ frame ∈ frames m', InBlock frame.memory := by
  refine frames_step hmem h (fun hdispatch => (ordinary_of_none hdispatch).memory)
    (fun _ hstarts hactive => ?_) (fun hdelivered hsaved => ?_)
  · obtain ⟨s₁, r, hordinary, -, heq⟩ := hstarts.entered
    rw [heq, hstarts.memory]
    exact ⟨hordinary.memory hactive, inBlock_init⟩
  · unfold InBlock
    rw [hdelivered.memory]
    exact hsaved

/-- The ledger is rearranged at most. -/
theorem ledger_step (hshows : ShowsState host m.active.evm l) (h : step host m = .running m') :
    ∃ l', ShowsState host m'.active.evm l' ∧ l.Rearranged (2 ^ 256) l' := by
  cases moves_of_step h with
  | goesOn hdispatch => exact (ordinary_of_none hdispatch).ledger l hshows
  | enters hdispatch hroom hpending =>
    obtain ⟨s₁, r, hordinary, -, heq⟩ := (starts_of_pending hdispatch hpending).entered
    obtain ⟨l', hl', hmoved⟩ := hordinary.ledger l hshows
    exact ⟨l', showsState_congr hl' (by rw [heq]; rfl), hmoved⟩
  | delivers hlast hcall hs hdepth hparents hcopied hdelivered =>
    obtain ⟨l', hl', hmoved⟩ := (ordinary_of_ending hlast hcall hs).ledger l hshows
    exact ⟨l', showsState_congr hl' hcopied.state, hmoved⟩

theorem Metered.step (h : Metered gas m) (hstep : step host m = .running m') : Metered gas m' where
  initial := (initialGas_step hstep).trans h.initial
  gas_le := le_trans (gasOf_step (h.memory _ (List.mem_cons_self ..)) hstep) h.gas_le
  memory := inBlock_step h.memory hstep

theorem Bounded.step (h : Bounded host gas l m) (hstep : step host m = .running m') :
    Bounded host gas l m' where
  toMetered := Metered.step h.toMetered hstep
  ledger := by
    obtain ⟨l₁, hl₁, hmoved⟩ := h.ledger
    obtain ⟨l₂, hl₂, hmoved'⟩ := ledger_step hl₁ hstep
    exact ⟨l₂, hl₂, hmoved.trans hmoved'⟩

/-- What a result says about the run. -/
structure Reports (host : Host) (gas : UInt64) (l : Ledger Hash) (out : Outcome) : Prop where
  gasUsed_le : out.1.gasUsed ≤ gas
  ledger : ∃ l', ShowsState host out.2 l' ∧ l.Rearranged (2 ^ 256) l'

/-- The gas of the root frame is not more than the run started with, so the difference
that is reported does not wrap round. -/
theorem Bounded.finished (h : Bounded host gas l m)
    (hstep : Interpreter.step host m = .finished out) : Reports host gas l out := by
  have hmoves := moves_of_step hstep
  obtain ⟨l₁, hl₁, hmoved⟩ := h.ledger
  cases hmoves with
  | @finishes s result evm last hlast hcall hs hdepth hcopied hsuccess hgas =>
    have hordinary := ordinary_of_ending hlast hcall hs
    obtain ⟨l₂, hl₂, hmoved'⟩ := hordinary.ledger l₁ hl₁
    refine ⟨?_, l₂, showsState_congr hl₂ hcopied.state, hmoved.trans hmoved'⟩
    rcases hgas with heq | ⟨-, heq⟩
    · rw [heq, h.initial]
      exact UInt64.sub_le (UInt64.le_trans hordinary.gas h.active_le)
    · rw [heq, h.initial]
      exact UInt64.le_refl _
  | @refuses s hdispatch hfull =>
    obtain ⟨-, child, hstarts⟩ := dispatch_starts hdispatch
    obtain ⟨s₁, r, hordinary, -, heq⟩ := hstarts.entered
    obtain ⟨l₂, hl₂, hmoved'⟩ := hordinary.ledger l₁ hl₁
    refine ⟨?_, l₂, showsState_congr hl₂ (by rw [heq]; rfl), hmoved.trans hmoved'⟩
    change m.initialGas ≤ gas
    rw [h.initial]
    exact UInt64.le_refl _

theorem Bounded.reaches (h : Bounded host gas l m)
    (hreach : Reaches (Interpreter.step host) m m') : Bounded host gas l m' :=
  reaches_invariant (fun _ _ hs hstep => Bounded.step hs hstep) h hreach

/-- Whatever code is run: the reported gas is within the limit, the nonces are the same,
and ether was only moved. -/
theorem evmExecuteEnv_reports {fuel : ℕ} {env : ExecutionEnv} (h : ShowsState host evm l)
    (hrun : evmExecuteEnv host fuel evm env = some out) : Reports host env.call.gas l out := by
  unfold evmExecuteEnv at hrun
  split at hrun
  · cases hrun
    exact ⟨UInt64.le_iff_toNat_le.mpr (Nat.zero_le _), l, showsState_congr h rfl, .refl _ l⟩
  · obtain ⟨last, hreach, hlast⟩ := runFor_finished hrun
    exact ((bounded_start env h).reaches hreach).finished hlast

end Invariant

end Div0.RunEffects
