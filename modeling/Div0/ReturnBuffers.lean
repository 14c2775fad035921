import Div0.ReturnData
import Div0.GasCharges

/-!
One return buffer serves all frames. Each frame should find in it what its own last child has
handed over. The end of a child sets the buffer; but the start of a child does not empty it, so
a child finds the data of a call its parent has made before, and a root frame that stops reports
the data of its last child as its own output.
-/

namespace Div0.ReturnBuffers

open BigEndian Effects EvmContext Node Uint256 WorldState WorldLedger Frame FrameOps Interpreter
open OpEffects CallEffects RunEffects GasConservation FramePools MemoryInstructions CallSetups
open MemoryContents CopyStreams ReturnData Transaction Validation Executor ExecutorEffects Rollback

variable {host : Host}

section Histories

/-- What the last child of every frame has handed over, the current frame first, after the step
from `m`: a new frame has no child yet, and the end of a child goes to its parent. -/
def buffersAfter (host : Host) (m : Machine) : List Bytes → List Bytes
  | [] => []
  | own :: others =>
    match ending host m.active with
    | none => own :: others
    | some .call => [] :: own :: others
    | some last =>
      handedOver (after (dispatch host) m.active).frame.memory last :: others.drop 1

/-- A run from `m₀`, with the buffers the frames should see; the first frame starts with
`first`. -/
inductive Tracked (host : Host) (m₀ : Machine) (first : Bytes) : Machine → List Bytes → Prop
  | start : Tracked host m₀ first m₀ [first]
  | step {m m' : Machine} {buffers : List Bytes} (hrun : Tracked host m₀ first m buffers)
      (hstep : step host m = .running m') :
      Tracked host m₀ first m' (buffersAfter host m buffers)

/-- The step enters a child. -/
def Enters (host : Host) (m : Machine) : Prop :=
  ∃ m', step host m = .running m' ∧ m.parents.length < m'.parents.length

variable {m m' m₀ : Machine} {first own : Bytes} {others : List Bytes}

theorem tracked_of_reaches (first : Bytes) (h : Reaches (step host) m₀ m) :
    ∃ buffers, Tracked host m₀ first m buffers := by
  induction h with
  | refl => exact ⟨_, .start⟩
  | tail _ hstep ih =>
    obtain ⟨buffers, hrun⟩ := ih
    exact ⟨_, hrun.step hstep⟩

/-- The steps of a run as the buffers see them. -/
inductive Turn (host : Host) (m m' : Machine) (own : Bytes) (others : List Bytes) : Prop
  | goesOn (hafter : buffersAfter host m (own :: others) = own :: others)
      (hparents : m'.parents = m.parents)
      (hkept : m'.active.evm.returnData = m.active.evm.returnData)
  | enters (hafter : buffersAfter host m (own :: others) = [] :: own :: others)
      (hparents : ∃ caller, m'.parents = caller :: m.parents)
      (hkept : m'.active.evm.returnData = m.active.evm.returnData)
  | ends (hafter : buffersAfter host m (own :: others) =
        m'.active.evm.returnData :: others.drop 1)
      (hparents : ∃ saved, m.parents = saved :: m'.parents)

theorem returnData_ordinary {s s' : Active} (h : Ordinary host s s') :
    s'.evm.returnData = s.evm.returnData := (congrArg Evm.returnData h.evm :)

theorem buffersAfter_ends {last : FrameResult} (hlast : ending host m.active = some last)
    (hcall : last ≠ .call) : buffersAfter host m (own :: others) =
      handedOver (after (dispatch host) m.active).frame.memory last :: others.drop 1 := by
  rw [buffersAfter, hlast]
  cases last <;> first | rfl | exact absurd rfl hcall

theorem turn_of_step [OnArena host] (own : Bytes) (others : List Bytes)
    (h : step host m = .running m') : Turn host m m' own others := by
  have hrun := h
  cases moves_of_step h with
  | goesOn hdispatch =>
    refine .goesOn ?_ rfl (returnData_ordinary (ordinary_of_none hdispatch))
    simp only [buffersAfter, ending, hdispatch]
  | enters hdispatch hroom hpending =>
    obtain ⟨s₁, r, hordinary, -, rfl⟩ := (starts_of_pending hdispatch hpending).entered
    have hkept := returnData_ordinary hordinary
    refine .enters ?_ ⟨_, rfl⟩ hkept
    simp only [buffersAfter, ending, hdispatch]
  | delivers hlast hcall hs hdepth hparents hcopied hdelivered =>
    have hdata := step_data hlast hcall hrun
    refine .ends ?_ ⟨_, hparents⟩
    rw [hdata, buffersAfter_ends hlast hcall]

theorem Tracked.length [OnArena host] {buffers : List Bytes}
    (h : Tracked host m₀ first m buffers) (hroot : m₀.parents = []) :
    buffers.length = m.parents.length + 1 := by
  induction h with
  | start => rw [hroot, List.length_singleton, List.length_nil]
  | @step m m' buffers hrun hstep ih =>
    cases buffers with
    | nil => cases ih
    | cons own others =>
      rw [List.length_cons] at ih
      cases turn_of_step own others hstep with
      | goesOn hafter hparents hkept =>
        rw [hafter, hparents, List.length_cons, ih]
      | enters hafter hparents hkept =>
        obtain ⟨caller, hparents⟩ := hparents
        rw [hafter, hparents, List.length_cons, List.length_cons, List.length_cons, ih]
      | ends hafter hparents =>
        obtain ⟨saved, hparents⟩ := hparents
        rw [hparents, List.length_cons] at ih
        rw [hafter, List.length_cons, List.length_drop]
        omega

end Histories

section Observations

/-- RETURNDATASIZE pushes the length of `bytes`, and RETURNDATACOPY copies from `bytes`. -/
structure Observes (host : Host) (s : Active) (bytes : Bytes) : Prop where
  size : nextOpcode s.frame = some .returndatasize → ∀ result s', dispatch host s = .ok result s' →
    s'.frame.stack.items = sizeWord bytes.length :: s.frame.stack.items
  copy : nextOpcode s.frame = some .returndatacopy → ∀ result s', dispatch host s = .ok result s' →
    (operand s 0).toNat + (operand s 2).toNat ≤ 2 ^ 63 →
      Stored s s' ⟨(operand s 0).toNat, (bytes.drop (operand s 1).toNat).take (operand s 2).toNat⟩

variable {s : Active}

theorem setStack_eq (stack : EvmStack) (s : Active) :
    setStack stack s = .ok () { s with frame := { s.frame with stack := stack } } := rfl

theorem ensureSpace_meets {n : ℕ} {post : Unit → Active → Prop}
    (h : ∀ s', s'.evm = s.evm → s'.frame.stack.items = s.frame.stack.items → post () s') :
    Meets StaysInside (ensureSpace n) s post := by
  unfold ensureSpace
  rw [meets_bind_of_ok (getFrame_eq s)]
  cases hspace : evmStackEnsureSpace s.frame.stack n with
  | none => exact (meets_of_error rfl).mpr nofun
  | some stack =>
    exact (meets_of_ok (setStack_eq stack s)).mpr (h _ rfl (evmStackEnsureSpace_spec hspace).1)

theorem opReturndatasize_meets (cost : UInt64) :
    Meets StaysInside (opReturndatasize cost) s fun _ s' =>
      s'.frame.stack.items = sizeWord s.evm.returnData.length :: s.frame.stack.items := by
  unfold opReturndatasize pushOp
  refine meets_bind.mpr (ensureSpace_meets fun s₁ hevm hitems => ?_)
  by_cases hgas : cost ≤ s₁.frame.gas
  · rw [meets_bind_of_ok (charge_ok hgas), meets_bind_of_ok (get_eq _), ← hevm, ← hitems]
    exact push_items_meets _
  · exact (meets_of_error (bind_of_error (charge_error hgas))).mpr nofun

theorem observes_buffer (host : Host) (s : Active) : Observes host s s.evm.returnData where
  size hnext result s' hrun := by
    have hmeets : Meets StaysInside (dispatch host) s fun _ s' =>
        s'.frame.stack.items = sizeWord s.evm.returnData.length :: s.frame.stack.items :=
      (dispatch_meets hnext).mpr (meets_bind.mpr
        ((opReturndatasize_meets (s := fetched s) _).mono fun _ _ hitems => meets_pure.mpr hitems))
    exact (meets_of_ok hrun).mp hmeets
  copy hnext result s' hrun hend := by
    have hends : EndsBy (2 ^ 63) ⟨(operand s 0).toNat,
        (s.evm.returnData.drop (operand s 1).toNat).take (operand s 2).toNat⟩ := by
      intro _
      refine le_trans (Nat.add_le_add_left ?_ _) hend
      rw [List.length_take]
      exact Nat.min_le_left ..
    have hmeets : Meets StaysInside (dispatch host) s fun _ s' => Stored s s' _ :=
      dispatch_stores hnext rfl hends.clear
    exact (meets_of_ok hrun).mp hmeets

end Observations

section Children

variable [OnArena host] {m m' : Machine} {own : Bytes} {others : List Bytes}

/-- A frame that enters a child with an empty buffer keeps the buffers in line. -/
theorem buffer_step (hown : m.active.evm.returnData = own)
    (hempty : Enters host m → own = []) (hstep : step host m = .running m') :
    (buffersAfter host m (own :: others)).head? = some m'.active.evm.returnData := by
  cases turn_of_step own others hstep with
  | goesOn hafter hparents hkept => rw [hafter, List.head?_cons, hkept, hown]
  | enters hafter hparents hkept =>
    obtain ⟨caller, hparents⟩ := hparents
    have henters : Enters host m := ⟨m', hstep, by rw [hparents, List.length_cons]; omega⟩
    rw [hafter, List.head?_cons, hkept, hown, hempty henters]
  | ends hafter hparents => rw [hafter, List.head?_cons]

/-- A child that is entered finds the buffer of its parent. -/
theorem buffer_entered (hown : m.active.evm.returnData = own)
    (hstep : step host m = .running m') (hdeeper : m.parents.length < m'.parents.length)
    (hnext : (buffersAfter host m (own :: others)).head? = some m'.active.evm.returnData) :
    own = [] := by
  cases turn_of_step own others hstep with
  | goesOn hafter hparents hkept =>
    rw [hparents] at hdeeper
    exact absurd hdeeper (lt_irrefl _)
  | enters hafter hparents hkept =>
    rw [hafter, List.head?_cons, hkept, hown] at hnext
    exact (Option.some.inj hnext).symm
  | ends hafter hparents =>
    obtain ⟨saved, hparents⟩ := hparents
    rw [hparents, List.length_cons] at hdeeper
    omega

/-- At every point of a run the buffer that RETURNDATASIZE and RETURNDATACOPY observe holds
what the last child of the current frame has handed over, exactly when the buffer is empty at
the start and no frame enters a child after a child of it has handed over data. -/
theorem return_buffer_iff (keccak256 : Bytes → Hash) (evm : Evm) (env : ExecutionEnv) :
    ((∀ m buffers, Tracked (arenaWith keccak256) (start evm env) [] m buffers →
        buffers.head? = some m.active.evm.returnData) ↔
      evm.returnData = [] ∧
        ∀ m buffers, Tracked (arenaWith keccak256) (start evm env) [] m buffers →
          Enters (arenaWith keccak256) m → buffers.head? = some []) ∧
    ∀ s, Observes (arenaWith keccak256) s s.evm.returnData := by
  refine ⟨⟨fun hall => ⟨?_, ?_⟩, ?_⟩, observes_buffer _⟩
  · exact (Option.some.inj (hall _ _ .start)).symm
  · rintro m buffers hrun ⟨m', hstep, hdeeper⟩
    have hnow := hall m buffers hrun
    cases buffers with
    | nil => cases hnow
    | cons own others =>
      have hown := Option.some.inj hnow
      have hnext := hall m' _ (hrun.step hstep)
      rw [List.head?_cons, buffer_entered hown.symm hstep hdeeper hnext]
  · rintro ⟨hstart, hempty⟩ m buffers hrun
    induction hrun with
    | start => rw [List.head?_cons, show (start evm env).active.evm.returnData = [] from hstart]
    | @step m m' buffers hrun hstep ih =>
      cases buffers with
      | nil => cases ih
      | cons own others =>
        exact buffer_step (Option.some.inj ih).symm
          (fun henters => Option.some.inj (hempty m _ hrun henters)) hstep

def buffersAt (host : Host) (m₀ : Machine) : ℕ → List Bytes
  | 0 => [[]]
  | n + 1 => buffersAfter host (advance (step host) n m₀) (buffersAt host m₀ n)

omit [OnArena host] in
theorem tracked_advance {m₀ : Machine} {n : ℕ}
    (h : ∀ k < n, (step host (advance (step host) k m₀)).isRunning = true) :
    Tracked host m₀ [] (advance (step host) n m₀) (buffersAt host m₀ n) := by
  induction n with
  | zero => exact .start
  | succ n ih =>
    have hbefore := ih fun k hk => h k (Nat.lt_succ_of_lt hk)
    exact hbefore.step (step_advance (h n (Nat.lt_succ_self n)))

/-- Two calls: the first child returns one word, the second one asks for the size of the
return data. -/
def twoCalls : Machine :=
  start { evmInit .cancun with
      state := some (wsSetCode paddedHost
        (wsSetCode paddedHost worldStateCreate (lowAddress 3) [0x60, 0x20, 0x5f, 0xf3])
        (lowAddress 4) [0x3d]) }
    (running 100000 [0x5f, 0x5f, 0x5f, 0x5f, 0x60, 3, 0x61, 0x0f, 0xff, 0xfa,
          0x5f, 0x5f, 0x5f, 0x5f, 0x60, 4, 0x61, 0x0f, 0xff, 0xfa])

/-- The second child has made no call, and finds the 32 bytes of the first one. -/
theorem return_buffer_stale :
    Tracked paddedHost twoCalls [] (stepped 17 twoCalls)
      (buffersAt paddedHost twoCalls 17) ∧
    (buffersAt paddedHost twoCalls 17).head? = some [] ∧
    nextOpcode (stepped 17 twoCalls).active.frame =
      some .returndatasize ∧
    (stepped 18 twoCalls).active.frame.stack.items = [sizeWord 32] :=
  ⟨tracked_advance (by decide +kernel), by decide +kernel, by decide +kernel, by decide +kernel⟩

end Children

section RootOutput

variable {m : Machine} {evm : Evm} {env : ExecutionEnv} {out : Outcome}

theorem settle_output {last : FrameResult} (h : settle host m last = .finished out)
    (hstop : out.1.result = .stop) :
    m.active.frame.depth = 0 ∧
      (last = .stop ∧ out.1.output = m.active.evm.returnData ∨
        (∃ offset size, last = .return_ offset size) ∧
          out.1.output = handedOver m.active.frame.memory last) := by
  cases last with
  | stop =>
    rw [settle] at h
    split at h
    · next hroot =>
      cases h
      exact ⟨hroot, Or.inl ⟨rfl, rfl⟩⟩
    · exact absurd h finishChild_ne_finished
  | return_ offset size =>
    rw [settle] at h
    split at h
    · next hroot =>
      split at h
      · cases h
      · next evm hcopy =>
        cases h
        exact ⟨hroot, Or.inr ⟨⟨offset, size, rfl⟩, copyReturnData_data hcopy⟩⟩
    · exact absurd h finishChild_ne_finished
  | revert offset size =>
    rw [settle] at h
    split at h
    · split at h
      · cases h
      · cases h
        cases hstop
    · exact absurd h finishChild_ne_finished
  | call =>
    rw [settle] at h
    split at h
    · cases h
      cases hstop
    · split at h <;> cases h
  | error status =>
    rw [settle] at h
    split at h
    · cases h
      cases hstop
    · split at h
      · cases h
      · unfold resume at h
        split at h <;> cases h

/-- The step that ends an execution with success. -/
theorem step_output [OnArena host] (h : step host m = .finished out)
    (hstop : out.1.result = .stop) :
    (m.active.frame.depth = 0 ∧ ∃ last, ending host m.active = some last ∧
      (last = .stop ∧ out.1.output = m.active.evm.returnData ∨
        (∃ offset size, last = .return_ offset size) ∧
          out.1.output = handedOver (after (dispatch host) m.active).frame.memory last)) := by
  have hrun := h
  cases moves_of_step h with
  | finishes hlast hcall =>
    rw [step_of_ending hlast] at hrun
    obtain ⟨hroot, houtput⟩ := settle_output hrun hstop
    have hordinary := ordinary_of_ending hlast hcall rfl
    refine ⟨hordinary.depth.symm.trans hroot, _, hlast, ?_⟩
    rw [← returnData_ordinary hordinary]
    exact houtput
  | refuses => cases hstop

/-- The root frame sees what its own last child has handed over: the children of its children
have ended before that. -/
theorem root_buffer [OnArena host] {buffers : List Bytes}
    (h : Tracked host (start evm env) evm.returnData m buffers) (hroot : m.parents = []) :
    buffers = [m.active.evm.returnData] := by
  induction h with
  | start => rfl
  | @step m m' buffers hrun hstep ih =>
    have hlength := hrun.length rfl
    cases buffers with
    | nil => cases hlength
    | cons own others =>
      cases turn_of_step own others hstep with
      | goesOn hafter hparents hkept =>
        rw [hafter, hkept]
        exact ih (hparents.symm.trans hroot)
      | enters hafter hparents hkept =>
        obtain ⟨caller, hparents⟩ := hparents
        rw [hroot] at hparents
        cases hparents
      | ends hafter hparents =>
        obtain ⟨saved, hparents⟩ := hparents
        rw [hparents, hroot, List.length_cons, List.length_singleton] at hlength
        rw [hafter, List.drop_eq_nil_of_le (by omega)]

/-- An execution that succeeds reports what the root frame has passed to RETURN, or what its
last child has handed over if it stops. -/
theorem evmExecuteEnv_output [OnArena host] {fuel : ℕ}
    (h : evmExecuteEnv host fuel evm env = some out) (hstop : out.1.result = .stop) :
    ∃ m data last, Tracked host (start evm env) evm.returnData m [data] ∧
      step host m = .finished out ∧ ending host m.active = some last ∧
      (last = .stop ∧ out.1.output = data ∨ (∃ offset size, last = .return_ offset size) ∧
        out.1.output = handedOver (after (dispatch host) m.active).frame.memory last) := by
  unfold evmExecuteEnv at h
  split at h
  · cases h
    cases hstop
  · obtain ⟨m, hreach, hlast⟩ := runFor_finished h
    obtain ⟨buffers, hrun⟩ := tracked_of_reaches evm.returnData hreach
    obtain ⟨hdepth, last, hending, houtput⟩ := step_output hlast hstop
    have hlevels : Levels (frames m) :=
      reaches_invariant (fun _ _ hm hstep => Levels.step hm hstep) (.cons rfl .nil) hreach
    have hroot : m.parents = [] :=
      List.eq_nil_of_length_eq_zero ((levels_cons.mp hlevels).1.symm.trans hdepth)
    obtain rfl := root_buffer hrun hroot
    exact ⟨m, _, last, hrun, hlast, hending, houtput⟩

def deployed (host : Host) (ws : World) (contract : Address) (code : Bytes) : World :=
  if code = [] then ws else wsSetCode host ws contract code

theorem handleResult_deployed {ws : World} {btx : BlockTx} {contract : Address}
    {result : EvmExecutionResult} {receipt : ExecReceipt} (hstop : result.result = .stop)
    (hcreate : transactionIsCreate btx.tx = true) :
    (handleResult host ws btx contract result receipt).2 =
      deployed host ws contract result.output := by
  simp only [handleResult, hstop, hcreate, if_true, deployed, List.length_pos_iff, ite_not]

/-- A creation whose init code stops deploys what the last child of the root frame has handed
over. -/
theorem creation_deploys [OnArena host] {exec : BlockExecutor} {fuel : ℕ} {ws ws' : World}
    {btx : BlockTx} {cumulativeGas : UInt64} {receipt : ExecReceipt} {evm' : Evm}
    (hws : WellFormed host ws) (hpasses : Passes host exec ws btx cumulativeGas)
    (hcreate : transactionIsCreate btx.tx = true)
    (hrun : executeTransaction host exec fuel evm ws btx cumulativeGas =
      some (some receipt, ws', evm')) (hsuccess : receipt.success = true) :
    ∃ m₀ ∈ launch host exec evm ws btx, ∃ m data last, Tracked host m₀ [] m [data] ∧
      ending host m.active = some last ∧
      (last = .stop → ∃ left, evm'.state = some left ∧
        ws' = (payOut host exec (deployed host left (createdContract host exec ws btx) data) btx
          receipt.gasUsed).2) := by
  obtain ⟨call, ws₁, l₁, hlaunched⟩ := launched_of_passes hws.shows hpasses
  rw [hlaunched.execute, Option.map_eq_some_iff] at hrun
  obtain ⟨⟨result, evm₂⟩, hexec, hsettled⟩ := hrun
  obtain ⟨-, ⟨left, hleft, -⟩, -⟩ :=
    (evmExecuteEnv_reports ⟨ws₁, rfl, hlaunched.shows⟩ hexec).ledger
  cases hsettled
  have hstop : result.result = .stop := by
    by_contra hfailed
    have herror : result.result = .error := by
      cases hresult : result.result with
      | stop => exact absurd hresult hfailed
      | error => rfl
    simp only [withCumulative, handleResult, herror] at hsuccess
    cases hsuccess
  obtain ⟨m, data, last, htracked, -, hending, houtput⟩ := evmExecuteEnv_output hexec hstop
  refine ⟨_, ?_, m, data, last, htracked, hending, ?_⟩
  · rw [launch, hlaunched.params]
    rfl
  rintro rfl
  refine ⟨left, hleft, ?_⟩
  have hdata : result.output = data := by
    rcases houtput with ⟨-, hdata⟩ | ⟨⟨_, _, hother⟩, -⟩
    · exact hdata
    · cases hother
  rw [handleResult_deployed hstop hcreate, hleft, Option.getD_some, hdata]
  rfl

/-- The output of an execution that succeeds is what the root frame has passed to RETURN, and
nothing if it stopped, exactly when it ended by RETURN or its last child has handed over
nothing. A creation whose init code stops deploys the data of that child. -/
theorem root_output_iff (host : Host) [OnArena host] :
    (∀ fuel evm env out, evmExecuteEnv host fuel evm env = some out → out.1.result = .stop →
      ∃ m data last, Tracked host (start evm env) evm.returnData m [data] ∧
        step host m = .finished out ∧ ending host m.active = some last ∧
        (out.1.output = handedOver (after (dispatch host) m.active).frame.memory last ↔
          (∃ offset size, last = .return_ offset size) ∨ data = [])) ∧
    ∀ exec fuel evm ws btx cumulativeGas receipt ws' evm', WellFormed host ws →
      blockExecutorValidateTx host exec ws btx cumulativeGas = .valid →
      transactionIsCreate btx.tx = true →
      executeTransaction host exec fuel evm ws btx cumulativeGas =
        some (some receipt, ws', evm') → receipt.success = true →
      ∃ m₀ ∈ launch host exec evm ws btx, ∃ m data last,
        Tracked host m₀ [] m [data] ∧ ending host m.active = some last ∧
        (last = .stop → ∃ left, evm'.state = some left ∧
          ws' = (payOut host exec (deployed host left
            (createdContract host exec ws btx) data) btx receipt.gasUsed).2) := by
  constructor
  · intro fuel evm env out hrun hstop
    obtain ⟨m, data, last, htracked, hfinished, hending, houtput⟩ :=
      evmExecuteEnv_output hrun hstop
    refine ⟨m, data, last, htracked, hfinished, hending, ?_⟩
    rcases houtput with ⟨rfl, hdata⟩ | ⟨hreturn, hdata⟩
    · rw [hdata, or_iff_right (by rintro ⟨_, _, hother⟩; cases hother)]
      rfl
    · exact iff_of_true hdata (Or.inl hreturn)
  · intro exec fuel evm ws btx cumulativeGas receipt ws' evm' hws hvalid hcreate hrun hsuccess
    exact creation_deploys hws ((blockExecutorValidateTx_valid_iff ..).mp hvalid) hcreate hrun
      hsuccess

def withWordChild (code : Bytes) : Evm × ExecutionEnv :=
  ({ evmInit .cancun with
      state := some (wsSetCode paddedHost worldStateCreate (lowAddress 3)
        [0x60, 0x20, 0x5f, 0xf3]) },
    (running 100000 code))

/-- RETURN of the first byte of the memory. -/
def returnByte : Evm × ExecutionEnv := withWordChild [0x60, 1, 0x5f, 0xf3]

def callAndStop : Bytes := [0x5f, 0x5f, 0x5f, 0x5f, 0x60, 3, 0x61, 0x0f, 0xff, 0xfa]

def wordChildWorld : World :=
  wsSetCode paddedHost
    (wsAddBalance paddedHost worldStateCreate (lowAddress 1) (uint256FromU64 1000000)).2
    (lowAddress 3) [0x60, 0x20, 0x5f, 0xf3]

def callAndStopTx : BlockTx :=
  ⟨.legacy ⟨0, uint256FromU64 3, 80000, none, uint256Zero, callAndStop, 27, uint256Zero,
    uint256Zero⟩, lowAddress 1, true, 0⟩

def callAndStopRun : Option (Option ExecReceipt × World × Evm) :=
  executeTransaction paddedHost plainExecutor 100 (evmInit .cancun) wordChildWorld
    callAndStopTx 0

theorem root_output_iff_returned :
    (∃ out m data last, evmExecuteEnv paddedHost 10 returnByte.1 returnByte.2 = some out ∧
      out.1.output = [0] ∧ Tracked paddedHost (start returnByte.1 returnByte.2) [] m [data] ∧
      step paddedHost m = .finished out ∧
      (out.1.output = handedOver (after (dispatch paddedHost) m.active).frame.memory last ↔
        (∃ offset size, last = .return_ offset size) ∨ data = [])) ∧
    ∃ receipt ws' evm', callAndStopRun = some (some receipt, ws', evm') ∧
      ∃ m₀ ∈ launch paddedHost plainExecutor (evmInit .cancun) wordChildWorld callAndStopTx,
        ∃ m data last, Tracked paddedHost m₀ [] m [data] ∧
          ending paddedHost m.active = some last ∧
          (last = .stop → ∃ left, evm'.state = some left ∧
            ws' = (payOut paddedHost plainExecutor (deployed paddedHost left
              (createdContract paddedHost plainExecutor wordChildWorld callAndStopTx) data)
              callAndStopTx receipt.gasUsed).2) := by
  obtain ⟨houtputs, hdeploys⟩ := root_output_iff paddedHost
  constructor
  · have hdone : (evmExecuteEnv paddedHost 10 returnByte.1 returnByte.2).map
        (fun out => (out.1.result, out.1.output)) = some (.stop, [0]) := by decide +kernel
    obtain ⟨out, hrun, hout⟩ := Option.map_eq_some_iff.mp hdone
    obtain ⟨hstop, houtput⟩ := Prod.mk.inj hout
    obtain ⟨m, data, last, htracked, hfinished, -, hiff⟩ := houtputs _ _ _ out hrun hstop
    exact ⟨out, m, data, last, hrun, houtput, htracked, hfinished, hiff⟩
  · have hdone : callAndStopRun.map (fun out => out.1.map (·.success)) = some (some true) := by
      decide +kernel
    obtain ⟨⟨receipt, ws', evm'⟩, hrun, hout⟩ := Option.map_eq_some_iff.mp hdone
    obtain ⟨receipt, rfl, hsuccess⟩ := Option.map_eq_some_iff.mp hout
    have hws : WellFormed paddedHost wordChildWorld :=
      (((wellFormed_create _).shows.addBalance _ _).setCode _
        _).wellFormed
    exact ⟨receipt, ws', evm', hrun, hdeploys _ _ _ _ _ 0 receipt ws' evm' hws (by decide +kernel)
      rfl hrun hsuccess⟩

/-- The root frame stops, and the output is the word its child has returned; as init code it
deploys that word. -/
theorem stopped_root_reports_child :
    (ending paddedHost (stepped 10
        (start (withWordChild callAndStop).1 (withWordChild callAndStop).2)).active).map
      resultWord = some (uint256FromU64 1) ∧
    nextOpcode (stepped 10
      (start (withWordChild callAndStop).1 (withWordChild callAndStop).2)).active.frame = none ∧
    (evmExecuteEnv paddedHost 11 (withWordChild callAndStop).1
      (withWordChild callAndStop).2).map (fun out => (out.1.result, out.1.output.length)) =
        some (.stop, 32) ∧
    callAndStopRun.map (fun out => out.1.map fun receipt => (receipt.success,
      receipt.createdAddress.map fun addr => (wsGetCode out.2.1 addr).length)) =
        some (some (true, some 32)) := by
  decide +kernel

end RootOutput

end Div0.ReturnBuffers
