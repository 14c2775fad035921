import Div0.CallSetups
import Div0.StaticFrames

/-!
The counters of the call frames. The number of saved parents, the depth of the current
frame and the two pool depths stay in step, and a result goes to the frame that made the
call. The pools have room for 1024 frames, the root frame included, but the `prepare_`
functions let a frame at depth 1023 call: then the pools are full.
-/

namespace Div0.FramePools

open Effects EvmContext Node WorldState Frame CallOps Interpreter OpEffects CallEffects RunEffects
open GasConservation CallSetups StaticFrames

variable {host : Host} {m m' : Machine}

/-- Each frame is as deep as there are frames below it. -/
inductive Levels : List CallFrame → Prop
  | nil : Levels []
  | cons {frame : CallFrame} {rest : List CallFrame} (hdepth : frame.depth = rest.length)
      (hrest : Levels rest) : Levels (frame :: rest)

/-- The counters agree. -/
structure LockStep (m : Machine) : Prop where
  levels : Levels (frames m)
  framePool : m.active.evm.framePoolDepth = m.parents.length + 1
  memoryPool : m.active.evm.memoryPoolDepth = m.parents.length + 1

theorem levels_cons {frame : CallFrame} {rest : List CallFrame} :
    Levels (frame :: rest) ↔ frame.depth = rest.length ∧ Levels rest := by
  constructor
  · intro h
    cases h with
    | cons hdepth hrest => exact ⟨hdepth, hrest⟩
  · exact fun h => .cons h.1 h.2

theorem LockStep.depth (h : LockStep m) : m.active.frame.depth = m.parents.length :=
  (levels_cons.mp h.levels).1

theorem lockStep_start (evm : Evm) (state : Option World) (env : ExecutionEnv) :
    LockStep (start { evmReset evm with state := state } env) :=
  ⟨.cons rfl .nil, rfl, rfl⟩

theorem framePool_ordinary {s s' : Active} (h : Ordinary host s s') :
    s'.evm.framePoolDepth = s.evm.framePoolDepth ∧ s'.evm.memoryPoolDepth = s.evm.memoryPoolDepth :=
  ⟨(congrArg Evm.framePoolDepth h.evm :), (congrArg Evm.memoryPoolDepth h.evm :)⟩

/-- The frames below the one at `m₀` stay where they are. -/
theorem inside_parents {m₀ : Machine} (h : Inside host m₀ m) :
    ∃ inner, m.parents = inner ++ m₀.parents := by
  refine reachesIn_invariant (I := fun m => ∃ inner, m.parents = inner ++ m₀.parents) ?_ ⟨[], rfl⟩ h
  rintro m m' ⟨inner, hparents⟩ hstep hin
  cases moves_of_step hstep with
  | goesOn => exact ⟨inner, hparents⟩
  | @enters s => exact ⟨s.frame :: inner, by rw [hparents, List.cons_append]⟩
  | delivers _ _ _ _ hsaved =>
    obtain ⟨rest, -, hrest⟩ := parents_above (hsaved.symm.trans hparents) hin
    exact ⟨rest, hrest⟩

/-- The frame that made the call at `m` goes on at `m₃` with the result of its child, which has
run from `m₁` to `m₂`. -/
def Resumes (host : Host) (m m₁ m₂ m₃ : Machine) : Prop :=
  ∃ caller, dispatch host m.active = .ok (some .call) caller ∧
    m₁.parents = caller.frame :: m.parents ∧ m₃.parents = m.parents ∧
    ∃ result, Delivered caller.frame m₃.active.frame (after (dispatch host) m₂.active).frame.gas result

/-- A result goes to the frame that made the call. -/
theorem resumes_of_inside {m₁ m₂ m₃ : Machine} (hentry : step host m = .running m₁)
    (hdeeper : m₁.parents.length = m.parents.length + 1) (hinside : Inside host m₁ m₂)
    (hback : step host m₂ = .running m₃) (hlevel : m₃.parents.length < m₁.parents.length) :
    Resumes host m m₁ m₂ m₃ := by
  obtain ⟨caller, hdispatch, hcaller⟩ : ∃ caller, dispatch host m.active = .ok (some .call) caller ∧
      m₁.parents = caller.frame :: m.parents := by
    cases moves_of_step hentry with
    | goesOn => exact absurd hdeeper (Nat.succ_ne_self _).symm
    | @enters s child hdispatch => exact ⟨s, hdispatch, rfl⟩
    | delivers _ _ _ _ hsaved =>
      rw [hsaved, List.length_cons] at hdeeper
      dsimp only at hdeeper
      omega
  obtain ⟨inner, hparents⟩ := inside_parents hinside
  cases moves_of_step hback with
  | goesOn =>
    rw [hparents, List.length_append] at hlevel
    omega
  | enters =>
    rw [hparents, List.length_cons, List.length_append] at hlevel
    omega
  | @delivers s saved frame parents evm last hlast hcall hs hroot hsaved hcopied hdelivered =>
    rw [hsaved] at hparents
    -- the child has no parent but its caller above the frames of `m₁`
    cases inner with
    | nil =>
      rw [List.nil_append, hcaller] at hparents
      obtain ⟨rfl, rfl⟩ := List.cons.inj hparents
      exact ⟨caller, hdispatch, hcaller, rfl, _, hs ▸ hdelivered⟩
    | cons first rest =>
      have hlength := congrArg List.length (List.cons.inj hparents).2
      rw [List.append_eq, List.length_append] at hlength
      dsimp only at hlevel
      omega

section Steps

variable [OnArena host]

theorem Levels.step (h : Levels (frames m)) (hstep : step host m = .running m') :
    Levels (frames m') := by
  obtain ⟨hdepth, hlevels⟩ := levels_cons.mp h
  cases moves_of_step hstep with
  | goesOn hdispatch =>
    exact .cons ((ordinary_of_none hdispatch).depth.trans hdepth) hlevels
  | enters hdispatch hroom hpending =>
    have hstarts := starts_of_pending hdispatch hpending
    obtain ⟨s₁, r, hordinary, -, rfl⟩ := hstarts.entered
    refine .cons ?_ (.cons (hordinary.depth.trans hdepth) hlevels)
    rw [hstarts.depth, hdepth]
    rfl
  | delivers hlast hcall hs hroot hparents hcopied hdelivered =>
    rw [hparents] at hlevels
    obtain ⟨hsaved, hrest⟩ := levels_cons.mp hlevels
    have hkept : _ = _ := (congrArg CallFrame.depth hdelivered.rest :)
    exact .cons (hkept.trans hsaved) hrest

theorem LockStep.step (h : LockStep m) (hstep : step host m = .running m') : LockStep m' := by
  have hlevels := h.levels.step hstep
  obtain ⟨-, hframes, hmemories⟩ := h
  cases moves_of_step hstep with
  | goesOn hdispatch =>
    obtain ⟨hframe, hmemory⟩ := framePool_ordinary (ordinary_of_none hdispatch)
    exact ⟨hlevels, hframe.trans hframes, hmemory.trans hmemories⟩
  | enters hdispatch hroom hpending =>
    obtain ⟨s₁, r, hordinary, -, rfl⟩ := (starts_of_pending hdispatch hpending).entered
    obtain ⟨hframe, hmemory⟩ := framePool_ordinary hordinary
    exact ⟨hlevels, congrArg (· + 1) (hframe.trans hframes),
      congrArg (· + 1) (hmemory.trans hmemories)⟩
  | delivers hlast hcall hs hroot hparents hcopied hdelivered =>
    obtain ⟨hframe, hmemory⟩ := framePool_ordinary (ordinary_of_ending hlast hcall hs)
    rw [hparents] at hframes hmemories
    refine ⟨hlevels, ?_, ?_⟩
    · rw [hcopied.rest]
      exact congrArg (· - 1) (hframe.trans hframes)
    · rw [hcopied.rest]
      exact congrArg (· - 1) (hmemory.trans hmemories)

end Steps

def callsNext (frame : CallFrame) : Bool := (nextOpcode frame).any isCallOp

/-- The assertions of `call_frame_pool_rent` and `evm_memory_pool_borrow`. -/
def PoolsLeft (evm : Evm) : Prop :=
  evm.framePoolDepth < evmMaxCallDepth ∧ evm.memoryPoolDepth < evmMaxCallDepth

/-- The next instruction of `s` has prepared a call, sent its value and asks, in `s₁`, for the
frame and the memory of the child. -/
def RentsAt (host : Host) (s s₁ : Active) : Prop :=
  ∃ (kind : CallKind) (ws : World) (setup : CallSetup) (s₀ : Active),
    nextOpcode s.frame = some kind.opcode ∧ s.evm.state = some ws ∧
    kind.prepare host ws (fetched s) = .ok (some setup) s₀ ∧
    sendValue host kind.transfers setup s₀ = .ok true s₁

section Rents

variable {s s₁ : Active}

theorem dispatch_of_rentsAt (h : RentsAt host s s₁) :
    ∃ setup params, dispatch host s = nextCall (enterChild setup params) s₁ := by
  obtain ⟨kind, ws, setup, s₀, hnext, hstate, hprepared, hsent⟩ := h
  obtain ⟨params, hop⟩ := kind.op_eq host
  have hstate' : requireState .invalidOpcode (fetched s) = .ok ws (fetched s) := by
    rw [requireState_eq, hstate]
  have hcall : kind.op host (fetched s) = enterChild setup (params s₁.frame setup) s₁ := by
    rw [hop, callWith, bind_of_ok hstate', bind_of_ok hprepared]
    exact bind_of_ok hsent
  have hdispatch : dispatch host s = nextCall (kind.op host) (fetched s) := by
    rw [dispatch_eq, hnext]
    cases kind <;> rfl
  refine ⟨setup, params s₁.frame setup, ?_⟩
  rw [hdispatch, nextCall, bind_apply, hcall]
  rfl

/-- Nothing is rented before. -/
theorem rentsAt_pools [OnArena host] (h : RentsAt host s s₁) :
    s₁.evm.framePoolDepth = s.evm.framePoolDepth ∧
      s₁.evm.memoryPoolDepth = s.evm.memoryPoolDepth := by
  obtain ⟨kind, ws, setup, s₀, -, -, hprepared, hsent⟩ := h
  have hforward : Forward (fetched s) s₀ := by
    cases kind <;>
      simp only [CallKind.prepare] at hprepared <;>
      exact Keeps.ok inferInstance hprepared
  have hbefore : Ordinary host (fetched s) s₁ :=
    trans_of (Ordinary host) hforward.ordinary (Keeps.ok inferInstance hsent)
  have hpools := framePool_ordinary hbefore
  exact hpools

end Rents

/-- In every state of a run on a reset EVM the counters agree, and there is a frame and a
memory to give back. A call finds the pools with room exactly if its frame is not at depth
1023, before the instruction and where it rents, and a result goes to the frame that made the
call. -/
theorem frames_disciplined (host : Host) [OnArena host] (evm : Evm) (state : Option World)
    (env : ExecutionEnv) {m : Machine}
    (hreach : Reaches (step host) (start { evmReset evm with state := state } env) m) :
    m.active.frame.depth = m.parents.length ∧
    m.active.evm.framePoolDepth = m.parents.length + 1 ∧
    m.active.evm.memoryPoolDepth = m.parents.length + 1 ∧
    (0 < m.active.evm.framePoolDepth ∧ 0 < m.active.evm.memoryPoolDepth) ∧
    ((callsNext m.active.frame = true → PoolsLeft m.active.evm) ↔
      (callsNext m.active.frame = true → m.active.frame.depth < 1023)) ∧
    (∀ s₁, RentsAt host m.active s₁ →
      (PoolsLeft s₁.evm ↔ m.active.frame.depth < 1023) ∧ ∃ setup params,
        dispatch host m.active = nextCall (enterChild setup params) s₁) ∧
    ∀ m₁ m₂ m₃, step host m = .running m₁ →
      m₁.parents.length = m.parents.length + 1 → Inside host m₁ m₂ →
      step host m₂ = .running m₃ → m₃.parents.length < m₁.parents.length →
      Resumes host m m₁ m₂ m₃ := by
  have hlock : LockStep m := reaches_invariant (fun _ _ hm hstep => LockStep.step hm hstep)
    (lockStep_start evm state env) hreach
  have hdepth := hlock.depth
  have hframes := hlock.framePool
  have hmemories := hlock.memoryPool
  have hmax : evmMaxCallDepth = 1024 := rfl
  refine ⟨hdepth, hframes, hmemories, ⟨by omega, by omega⟩, ?_, ?_, ?_⟩
  · refine imp_congr_right fun _ => ?_
    unfold PoolsLeft
    omega
  · intro s₁ hrents
    obtain ⟨hframe, hmemory⟩ := rentsAt_pools hrents
    refine ⟨?_, dispatch_of_rentsAt hrents⟩
    unfold PoolsLeft
    omega
  · intro m₁ m₂ m₃ hentry hdeeper hinside hback hlevel
    exact resumes_of_inside hentry hdeeper hinside hback hlevel

/-- A STATICCALL, from its rent to the result of its child. -/
theorem frames_disciplined_probe :
    (probeChild.parents.length = 1 ∧ probeChild.active.evm.framePoolDepth = 2) ∧
    (∃ s₁, RentsAt paddedHost (stepped 6 probeStart).active s₁ ∧
      PoolsLeft s₁.evm) ∧
    ∃ m₃, step paddedHost (stepped 2 probeChild) = .running m₃ ∧
      Resumes paddedHost (stepped 6 probeStart) probeChild
        (stepped 2 probeChild) m₃ := by
  obtain ⟨-, hpool, -⟩ := frames_disciplined paddedHost (evmInit .cancun) _ _
    (reaches_advance _ 7 probeStart)
  obtain ⟨-, -, -, -, -, hrents, hresumes⟩ := frames_disciplined paddedHost (evmInit .cancun) _ _
    (reaches_advance _ 6 probeStart)
  have hone : probeChild.parents.length = 1 := by decide +kernel
  refine ⟨⟨hone, hpool.trans (congrArg (· + 1) hone)⟩, ?_, ?_⟩
  · have hrent : ∃ s₁, RentsAt paddedHost
        (stepped 6 probeStart).active s₁ :=
      ⟨_, .staticcall, _, _, _, rfl, rfl, rfl, rfl⟩
    obtain ⟨s₁, hrent⟩ := hrent
    exact ⟨s₁, hrent, (hrents s₁ hrent).1.mpr (by decide +kernel)⟩
  · have hback : ∃ m₃, step paddedHost (stepped 2 probeChild) =
        .running m₃ ∧ m₃.parents.length < probeChild.parents.length := ⟨_, rfl, by decide +kernel⟩
    obtain ⟨m₃, hback, hlevel⟩ := hback
    exact ⟨m₃, hback, hresumes probeChild _ m₃ rfl (by decide +kernel)
      (reachesIn_advance (by decide +kernel)) hback hlevel⟩

end Div0.FramePools
