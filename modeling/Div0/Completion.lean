import Div0.MemoryContents
import Div0.MemoryHangs
import Div0.StackSafety
import Div0.Termination

/-!
Executions that reach a result. A run ends otherwise only where a memory expansion does not come
back, or where an instruction leaves a stack, a buffer or a pool. What is left is said by the state
in front of the instruction: its operands, the memory and the pools, and where the caller has its
output.
-/

namespace Div0.Completion

open BigEndian Effects EvmContext Memory Node Uint256 Frame Opcodes CallOps Interpreter OpEffects
open CallEffects RunEffects GasConservation MemoryContents MemoryHangs FramePools StackSafety
open Termination Reuse
open MemoryInstructions (Avoids)

def DupRoom (s : Active) : Opcode → Prop
  | .dup n => DupFits s n (gasTable s.evm.fork (.dup n))
  | _ => True

instance (s : Active) (opcode : Opcode) : Decidable (DupRoom s opcode) := by
  unfold DupRoom DupFits
  split <;> infer_instance

/-- The instruction stays in bounds: a DUP has room for its copy, rounding up the end of a region
that is read or written does not wrap round, the memory has the input of a call, and the pools
have a frame and a memory for its child. -/
structure OpInBounds (s : Active) (opcode : Opcode) : Prop where
  dup : DupRoom s opcode
  reads : ∀ region, readOf s opcode = some region → region.2 ≠ 0 → ¬Wraps (region.1 + region.2)
  writes : ∀ w, writeOf s opcode = some w → Clear w
  input : CallServed s opcode
  pools : isCallOp opcode = true → PoolsLeft s.evm

/-- The output of the current frame has its place in the buffer of the caller. -/
structure InBounds (m : Machine) : Prop where
  next : ∀ opcode, nextOpcode m.active.frame = some opcode → OpInBounds m.active opcode
  output : ∀ caller, m.parents.head? = some caller → caller.outputSize ≠ 0 →
    caller.outputOffset.toNat + caller.outputSize.toNat ≤ caller.memory.capacity.toNat

section Dispatch

variable {host : Host} {s s' : Active}

def Recovers (halt : Halt) : Prop := halt ≠ .undefined .memory ∧ halt ≠ .undefined .pool

instance : Tolerates Recovers :=
  ⟨fun _ => by simp [Recovers], by simp [Recovers], by simp [Recovers]⟩

theorem isMemoryOp_false {opcode : Opcode} (hread : readOf s opcode = none)
    (hwrite : writeOf s opcode = none) : isMemoryOp opcode = false := by
  cases opcode <;>
    first
    | rfl
    | exact absurd hread (Option.some_ne_none _)
    | exact absurd hwrite (Option.some_ne_none _)

theorem meets_of_avoids {opcode : Opcode} (h : isMemoryOp opcode = false) :
    Meets Recovers (handler host (gasTable s.evm.fork) (gasSchedule s.evm.fork) opcode) (fetched s)
      fun _ _ => True := by
  cases hrun : handler host (gasTable s.evm.fork) (gasSchedule s.evm.fork) opcode (fetched s) with
  | ok result s' => exact (meets_of_ok hrun).mpr trivial
  | error halt s' =>
    refine (meets_of_error hrun).mpr ⟨?_, ?_⟩
    · rintro rfl
      exact (handler_avoids (.undefined .memory) _ _ h).avoids _ ⟨s', hrun⟩
    · rintro rfl
      exact (handler_avoids (.undefined .pool) _ _ h).avoids _ ⟨s', hrun⟩

variable [OnArena host] (h : ∀ opcode, nextOpcode s.frame = some opcode → OpInBounds s opcode)
include h

theorem dispatch_recovers : Meets Recovers (dispatch host) s fun _ _ => True := by
  cases hnext : nextOpcode s.frame with
  | none =>
    have hrun : dispatch host s = .ok (some .stop) s := by rw [dispatch_eq, hnext]
    exact (meets_of_ok hrun).mpr trivial
  | some opcode =>
    have hop := h opcode hnext
    cases hread : readOf s opcode with
    | some region =>
      exact (dispatch_reads hnext hread (hop.reads region hread) hop.input
        fun hcall => Or.inr (hop.pools hcall).2).mono fun _ _ _ => trivial
    | none =>
      cases hwrite : writeOf s opcode with
      | some w =>
        exact (dispatch_stores hnext hwrite (hop.writes w hwrite)).mono fun _ _ _ => trivial
      | none =>
        rw [dispatch_meets hnext]
        exact meets_of_avoids (isMemoryOp_false hread hwrite)

theorem dispatch_defined (access : Access) (s' : Active) :
    dispatch host s ≠ .error (.undefined access) s' := by
  intro hrun
  have hrecovers : Recovers (.undefined access) := (meets_of_error hrun).mp (dispatch_recovers h)
  cases access with
  | stack =>
    have havoids := (@dispatch_avoids_iff host s).mpr fun n hn => (h _ hn).dup
    rw [hrun] at havoids
    exact havoids rfl
  | memory => exact hrecovers.1 rfl
  | pool => exact hrecovers.2 rfl

end Dispatch

section Settling

variable {host : Host} {m : Machine} {s s' : Active} {evm : Evm} {saved : CallFrame}
  {parents : List CallFrame}

theorem resume_ne_stuck (hroom : saved.stack.items.length < saved.stack.capacity) (result : Word) :
    resume m evm saved parents result ≠ .stuck := by
  rw [resume, evmStackPush, dif_pos hroom]
  simp

theorem storeOutput_isSome (evm : Evm) (houtput : saved.outputSize ≠ 0 →
    saved.outputOffset.toNat + saved.outputSize.toNat ≤ saved.memory.capacity.toNat) :
    ∃ parent, storeOutput evm saved = some parent ∧ parent.stack = saved.stack := by
  unfold storeOutput
  dsimp only
  split
  · exact ⟨saved, rfl, rfl⟩
  · next hcopied =>
    have hlength : (evm.returnData.take saved.outputSize.toNat).length ≤ saved.outputSize.toNat :=
      List.length_take_le ..
    have hsize : saved.outputSize ≠ 0 := by
      intro hzero
      rw [hzero] at hcopied
      exact hcopied rfl
    have hplace := houtput hsize
    rw [evmMemoryStore, if_pos (by omega)]
    exact ⟨_, rfl, rfl⟩

theorem finishChild_ne_stuck {offset size : UInt64} (hparents : m.parents = saved :: parents)
    (hcopy : copyReturnData host m.active.evm m.active.frame.memory offset size = some evm)
    (houtput : saved.outputSize ≠ 0 →
      saved.outputOffset.toNat + saved.outputSize.toNat ≤ saved.memory.capacity.toNat)
    (hroom : saved.stack.items.length < saved.stack.capacity) (result : Word) :
    finishChild host m offset size result ≠ .stuck := by
  obtain ⟨parent, hstore, hstack⟩ := storeOutput_isSome evm houtput
  simp only [finishChild, hparents, hcopy, hstore]
  refine resume_ne_stuck ?_ result
  rw [hstack]
  exact hroom

theorem handler_result {cost : Opcode → UInt64} {schedule : GasSchedule} {opcode : Opcode}
    {last : FrameResult} (h : handler host cost schedule opcode s = .ok (some last) s') :
    last = .stop ∨ last = .call ∨ opcode = .return_ ∨ opcode = .revert := by
  cases opcode
  case stop =>
    cases h
    exact Or.inl rfl
  case return_ => exact Or.inr (Or.inr (Or.inl rfl))
  case revert => exact Or.inr (Or.inr (Or.inr rfl))
  case invalid => cases h
  case call | callcode | delegatecall | staticcall =>
    obtain ⟨started, s₁, -, h⟩ := bind_ok h
    cases started <;> cases h
    exact Or.inr (Or.inl rfl)
  all_goals cases next_ok h

variable [harena : OnArena host]

theorem exists_pending (h : dispatch host s = .ok (some .call) s') :
    ∃ child, s'.evm.pendingFrame = some child := by
  obtain ⟨-, child, hstarts⟩ := dispatch_starts h
  obtain ⟨s₁, r, -, -, rfl⟩ := hstarts.entered
  exact ⟨child, rfl⟩

theorem copyReturnData_isSome {mem : EvmMemory} {offset size : UInt64} {bytes : Bytes} (evm : Evm)
    (hmem : InBlock mem) (hload : size = 0 ∨ evmMemoryLoad mem offset size = some bytes) :
    ∃ evm', copyReturnData host evm mem offset size = some evm' := by
  unfold copyReturnData
  split
  · exact ⟨_, rfl⟩
  · next hsize =>
    have hload := hload.resolve_left hsize
    have hinside := inside_of_load hload
    have hblock : size.toNat ≤ 65536 :=
      le_trans (le_trans (Nat.le_add_left ..) hinside) (le_trans mem.fits hmem)
    have hcapacity := returnCapacity_le hblock 57 (k := 8) (by omega)
    have hpos : 0 < size.toNat := Nat.pos_of_ne_zero fun hzero => hsize (UInt64.toNat_inj.mp hzero)
    have hgranted := harena.supply.grants _
      (lt_of_lt_of_le hpos (le_returnCapacity size.toNat 57 256)) hcapacity
    simp only [hload, hgranted, if_true]
    split <;> exact ⟨_, rfl⟩

/-- The memory has the bytes that a frame hands to its caller. -/
def Loaded (mem : EvmMemory) (last : FrameResult) : Prop :=
  ∃ bytes, (handedRegion last).2 = 0 ∨
    evmMemoryLoad mem (handedRegion last).1 (handedRegion last).2 = some bytes

theorem handsBack_of_dispatch {last : FrameResult}
    (h : ∀ opcode, nextOpcode s.frame = some opcode → OpInBounds s opcode)
    (hrun : dispatch host s = .ok (some last) s') : Loaded s'.frame.memory last := by
  have hdispatch := dispatch_eq host s
  cases hnext : nextOpcode s.frame with
  | none =>
    rw [hrun, hnext] at hdispatch
    cases hdispatch
    exact ⟨[], Or.inl rfl⟩
  | some opcode =>
    have hop := h opcode hnext
    rw [hrun, hnext] at hdispatch
    rcases handler_result hdispatch.symm with rfl | rfl | rfl | rfl
    · exact ⟨[], Or.inl rfl⟩
    · exact ⟨[], Or.inl rfl⟩
    all_goals
      have hmeets : Meets StaysInside (dispatch host) s _ := dispatch_reads hnext rfl
        (hop.reads _ rfl) hop.input fun hcall => absurd hcall (by decide)
      obtain ⟨offset, size, hresult, hback⟩ := (meets_of_ok hrun).mp hmeets
      cases hresult
      exact ⟨_, hback.1⟩

/-- What is known of every state of a run. -/
structure Lasting (m : Machine) : Prop where
  memory : ∀ frame ∈ frames m, InBlock frame.memory
  levels : Levels (frames m)
  roomy : Roomy m

theorem lasting_of_reaches {env : ExecutionEnv}
    (h : Reaches (step host) (start evm env) m) : Lasting m := by
  refine reaches_invariant (fun m m' hm hstep => ?_) ?_ h
  · exact ⟨inBlock_step hm.memory hstep, hm.levels.step hstep, hm.roomy.step hstep⟩
  · exact ⟨(metered_start evm env).memory, .cons rfl .nil, roomy_start evm env⟩

variable (hlasting : Lasting m) (hbounds : InBounds m)
include hlasting hbounds

omit harena in
theorem exists_caller (hdepth : m.active.frame.depth ≠ 0) :
    ∃ saved parents, m.parents = saved :: parents ∧ (saved.outputSize ≠ 0 →
      saved.outputOffset.toNat + saved.outputSize.toNat ≤ saved.memory.capacity.toNat) ∧
      saved.stack.items.length < saved.stack.capacity := by
  have hlength := (levels_cons.mp hlasting.levels).1
  cases hparents : m.parents with
  | nil =>
    rw [hparents] at hlength
    exact absurd hlength hdepth
  | cons saved parents =>
    refine ⟨saved, parents, rfl, hbounds.output saved ?_, hlasting.roomy.parents saved ?_⟩
    · rw [hparents, List.head?_cons]
    · rw [hparents]
      exact List.mem_cons_self

/-- A frame that ends leaves the machine with a result, or with the caller going on. -/
theorem settle_ne_stuck {last : FrameResult} (hlast : ending host m.active = some last)
    (hcall : last ≠ .call) (hs : s = after (dispatch host) m.active)
    (hload : Loaded s.frame.memory last) : settle host { m with active := s } last ≠ .stuck := by
  have hordinary := ordinary_of_ending hlast hcall hs
  obtain ⟨bytes, hbytes⟩ := hload
  obtain ⟨evm, hcopy⟩ := @copyReturnData_isSome host _ _ _ _ _ s.evm
    (hordinary.memory (hlasting.memory _ List.mem_cons_self)) hbytes
  by_cases hdepth : s.frame.depth = 0
  · cases last with
    | stop => simp [settle, hdepth, succeed]
    | return_ offset size | revert offset size =>
      simp only [handedRegion] at hcopy
      simp [settle, hdepth, hcopy, succeed]
    | call => exact absurd rfl hcall
    | error status => simp [settle, hdepth]
  · obtain ⟨saved, parents, hparents, houtput, hroom⟩ :=
      exists_caller hlasting hbounds (hordinary.depth ▸ hdepth)
    cases last with
    | stop | return_ offset size | revert offset size =>
      rw [settle, if_neg hdepth]
      exact finishChild_ne_stuck (m := { m with active := s }) hparents hcopy houtput hroom _
    | call => exact absurd rfl hcall
    | error status =>
      simp only [settle, hdepth, if_false, hparents]
      exact resume_ne_stuck hroom _

/-- In bounds a step goes on or ends the run, unless a memory expansion does not come back. -/
theorem step_ne_stuck (hreturns : ¬Hangs host m) : step host m ≠ .stuck := by
  unfold step
  cases hrun : dispatch host m.active with
  | error halt s =>
    have hs := (after_of_error hrun).symm
    cases halt with
    | undefined access => exact absurd hrun (dispatch_defined hbounds.next access s)
    | diverges => exact absurd ⟨s, hrun⟩ hreturns
    | status error =>
      have hlast : ending host m.active = some (.error error) := by rw [ending, hrun]
      exact settle_ne_stuck hlasting hbounds hlast (by simp) hs ⟨[], Or.inl rfl⟩
  | ok result s =>
    have hs := (after_of_ok hrun).symm
    cases result with
    | none => simp
    | some last =>
      by_cases hcall : last = .call
      · subst hcall
        dsimp only
        rw [settle]
        split
        · simp
        · obtain ⟨child, hpending⟩ := exists_pending hrun
          simp [hpending]
      · have hlast : ending host m.active = some last := by rw [ending, hrun]
        exact settle_ne_stuck hlasting hbounds hlast hcall hs
          (handsBack_of_dispatch hbounds.next hrun)

end Settling

/-- An execution that stays in bounds reaches a result after finitely many dispatches, if the
memory expansions it makes come back. -/
theorem evmExecuteEnv_terminates (host : Host) [OnArena host] (evm : Evm) (env : ExecutionEnv)
    (hreturns : ∀ m, Reaches (step host) (start evm env) m → ¬Hangs host m)
    (hbounds : ∀ m, Reaches (step host) (start evm env) m → InBounds m) :
    ∃ fuel out, evmExecuteEnv host fuel evm env = some out := by
  by_cases hfull : evmMaxCallDepth ≤ evm.framePoolDepth
  · exact ⟨0, _, if_pos hfull⟩
  obtain ⟨last, hreach, hlast⟩ := @stops host _ evm env
  have hlasting : Lasting last := lasting_of_reaches hreach
  cases hstep : step host last with
  | running next => exact absurd hstep (hlast next)
  | stuck =>
    exact absurd hstep (step_ne_stuck hlasting (hbounds last hreach) (hreturns last hreach))
  | finished out =>
    obtain ⟨fuel, hfuel⟩ := runFor_of_reaches hreach hstep
    refine ⟨fuel, out, ?_⟩
    rw [evmExecuteEnv, if_neg hfull]
    exact hfuel

/-- A loop that stores a word in every round. -/
def storeLoop : ExecutionEnv := running 50 [0x5b, 0x5f, 0x80, 0x52, 0x5f, 0x56]

theorem storeLoop_inBounds {m : Machine}
    (hreach : Reaches (step paddedHost) (start (evmInit .cancun) storeLoop) m) :
    ¬Hangs paddedHost m ∧ InBounds m := by
  have hstop : (step paddedHost (stepped 16
      (start (evmInit .cancun) storeLoop))).isRunning = false := by decide +kernel
  obtain ⟨hreturns, hparents, hnext⟩ := reaches_forall (P := fun m =>
    ¬Hangs paddedHost m ∧ m.parents.isEmpty = true ∧
      ∀ opcode ∈ nextOpcode m.active.frame, isCallOp opcode = false ∧ DupRoom m.active opcode ∧
        readOf m.active opcode = none ∧ ∀ w ∈ writeOf m.active opcode, ¬Wraps w.stop)
    hstop (by decide +kernel) hreach
  refine ⟨hreturns, fun opcode hopcode => ?_, fun caller hcaller => ?_⟩
  · obtain ⟨hcall, hdup, hread, hwrite⟩ := hnext opcode hopcode
    refine ⟨hdup, fun region hregion => ?_, fun w hw _ => hwrite w hw, ?_, fun h => ?_⟩
    · rw [hread] at hregion
      cases hregion
    · cases opcode <;> trivial
    · rw [hcall] at h
      cases h
  · rw [List.isEmpty_iff.mp hparents] at hcaller
    cases hcaller

/-- The gas is used up in the third round. -/
theorem evmExecuteEnv_terminates_storeLoop :
    (∃ fuel out, evmExecuteEnv paddedHost fuel (evmInit .cancun) storeLoop = some out) ∧
    (evmExecuteEnv paddedHost 17 (evmInit .cancun) storeLoop).map (fun out => out.1.error) =
      some .outOfGas :=
  ⟨evmExecuteEnv_terminates paddedHost _ _ (fun _ hreach => (storeLoop_inBounds hreach).1)
    fun _ hreach => (storeLoop_inBounds hreach).2, by decide +kernel⟩

/-- PUSH0, PUSH8 and MSTORE at 2^64 - 33: the end of the word is 2^64 - 1. -/
def wrappedStore : ExecutionEnv :=
  running 100000 [0x5f, 0x67, 0xff, 0xff, 0xff, 0xff, 0xff, 0xff, 0xff, 0xdf, 0x52]

/-- Rounded up, the end of the word is 0: nothing is expanded, and the word is stored outside the
memory. No expansion hangs, but there is no result. -/
theorem wrappedStore_no_result :
    (∀ m, Reaches (step paddedHost) (start (evmInit .cancun) wrappedStore) m →
      ¬Hangs paddedHost m) ∧
    ∀ fuel, evmExecuteEnv paddedHost fuel (evmInit .cancun) wrappedStore = none := by
  have hstop : (step paddedHost (stepped 2
      (start (evmInit .cancun) wrappedStore))).isRunning = false := by decide +kernel
  refine ⟨fun m hreach => ?_, fun fuel => ?_⟩
  · refine reaches_forall (P := fun m => ¬Hangs paddedHost m) hstop ?_ hreach
    decide +kernel
  · refine runFor_eq_none hstop ?_ fuel
    decide +kernel

end Div0.Completion
