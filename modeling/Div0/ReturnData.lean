import Div0.CopyStreams
import Div0.FramePools

/-!
What a frame hands over when it ends: the bytes it passes to RETURN or REVERT, and nothing if
it stops or fails. The parent finds them in the return buffer, and the first of them in the
part of its memory that its call named.
-/

namespace Div0.ReturnData

open BigEndian Effects EvmContext Memory Node Uint256 WorldState Frame CallOps Interpreter OpEffects
open CallEffects RunEffects GasConservation StaticFrames FramePools MemoryInstructions CallSetups
open MemoryContents WriteLogs

variable {host : Host}

section Handing

def handedOver (mem : EvmMemory) : FrameResult → Bytes
  | .return_ offset size | .revert offset size => span (contents mem) offset.toNat size.toNat
  | _ => []

variable {m m' : Machine}

/-- A child that ends leaves what it hands over in the return buffer. -/
theorem step_data {last : FrameResult} (hlast : ending host m.active = some last)
    (hcall : last ≠ .call) (h : step host m = .running m') :
    m'.active.evm.returnData =
      handedOver (after (dispatch host) m.active).frame.memory last := by
  obtain ⟨-, -, hdata⟩ := step_receives hlast hcall h
  rw [hdata]
  cases last <;> rfl

end Handing

variable {args : CallStackArgs}

section Operands

def nextCallArgs (s : Active) : Option CallStackArgs :=
  match nextOpcode s.frame with
  | some .call | some .callcode => some (valueArgs s.frame.stack.items)
  | some .delegatecall | some .staticcall => some (plainArgs s.frame.stack.items)
  | _ => none

/-- The caller remembers where its operands want the output. -/
structure Remembers (args : CallStackArgs) (caller : CallFrame) : Prop where
  offset_lt : args.retOffset.toNat < 2 ^ 64
  size_lt : args.retSize.toNat < 2 ^ 64
  offset : caller.outputOffset = uint256ToU64Unsafe args.retOffset
  size : caller.outputSize = (uint256ToU64Unsafe args.retSize).toUInt32

variable {s s' : Active}

theorem remembers_of_valid {regions : CallRegions} {caller : CallFrame}
    (h : validateMemoryArgs args = some regions)
    (hoffset : caller.outputOffset = regions.retOffset)
    (hsize : caller.outputSize = regions.retSize.toUInt32) : Remembers args caller := by
  unfold validateMemoryArgs at h
  split at h
  · next hfits =>
    simp only [Bool.and_eq_true, fitsU64_iff] at hfits
    cases h
    exact ⟨hfits.1.2, hfits.2, hoffset, hsize⟩
  · cases h

theorem op_true (kind : CallKind) (h : kind.op host s = .ok true s') :
    Remembers (kind.args s.frame.stack.items) s'.frame := by
  obtain ⟨params, hop⟩ := kind.op_eq host
  rw [hop] at h
  obtain ⟨ws, setup, s₁, s₂, hprepare, -, h⟩ := callWith_true h
  obtain ⟨-, -, s₃, code, input, -, rfl⟩ := enterChild_inv h
  have hcases := kind.prepare_cases host ws s
  rw [hprepare] at hcases
  cases hcases with
  | made hadmitted => exact remembers_of_valid hadmitted.valid rfl rfl

/-- A frame that leaves for a child has executed a call. -/
theorem dispatch_remembers (h : dispatch host s = .ok (some .call) s') :
    ∃ args, nextCallArgs s = some args ∧ Remembers args s'.frame := by
  obtain ⟨opcode, hnext, h⟩ := dispatch_inv h (by simp)
  have hcall := isCallOp_of_handler h
  rw [nextCallArgs, hnext]
  cases opcode <;> simp only [isCallOp, Bool.false_eq_true] at hcall
  case call => exact ⟨_, rfl, op_true (s := fetched s) .call (nextCall_ok h)⟩
  case callcode => exact ⟨_, rfl, op_true (s := fetched s) .callcode (nextCall_ok h)⟩
  case delegatecall => exact ⟨_, rfl, op_true (s := fetched s) .delegatecall (nextCall_ok h)⟩
  case staticcall => exact ⟨_, rfl, op_true (s := fetched s) .staticcall (nextCall_ok h)⟩

end Operands

section Copies

/-- The instruction at `m` calls a child, which starts at `m₁` and ends with `last` at `m₂`;
then the caller goes on at `m₃`. -/
structure CompletedCall (host : Host) (m m₁ m₂ m₃ : Machine) (last : FrameResult) : Prop where
  entry : step host m = .running m₁
  deeper : m₁.parents.length = m.parents.length + 1
  inside : Inside host m₁ m₂
  ended : ending host m₂.active = some last
  back : step host m₂ = .running m₃
  level : m₃.parents.length = m.parents.length

/-- The output region of a call lies in the memory. -/
def OutputInside (args : CallStackArgs) (mem : EvmMemory) : Prop :=
  args.retSize.toNat ≠ 0 → args.retOffset.toNat + args.retSize.toNat ≤ mem.data.length

/-- The memory has changed where the output region and `data` overlap, and holds the first
bytes of `data` there. -/
structure ReceivedIn (args : CallStackArgs) (data : Bytes) (mem mem' : EvmMemory) : Prop where
  length : mem'.data.length = mem.data.length
  bytes : ∀ k < min args.retSize.toNat data.length,
    contents mem' (args.retOffset.toNat + k) = data.getD k 0
  others : ∀ i, (∀ k < min args.retSize.toNat data.length, i ≠ args.retOffset.toNat + k) →
    contents mem' i = contents mem i

variable {m m₁ m₂ m₃ : Machine} {last : FrameResult}

/-- The caller is saved while its child runs. -/
theorem CompletedCall.caller (h : CompletedCall host m m₁ m₂ m₃ last) :
    ∃ caller, dispatch host m.active = .ok (some .call) caller ∧
      m₁.parents = caller.frame :: m.parents ∧ m₂.parents = caller.frame :: m.parents ∧
      m₃.parents = m.parents ∧ last ≠ .call := by
  have hlevel := h.level
  have hdeeper := h.deeper
  obtain ⟨caller, hdispatch, hcaller, hback, -⟩ :=
    resumes_of_inside h.entry h.deeper h.inside h.back (by omega)
  obtain ⟨inner, hinner⟩ := inside_parents h.inside
  cases moves_of_step h.back with
  | goesOn =>
    rw [hinner, List.length_append] at hlevel
    omega
  | enters =>
    rw [hinner, List.length_cons, List.length_append] at hlevel
    omega
  | delivers hlast hcall _ _ hparents =>
    obtain rfl := Option.some.inj (h.ended.symm.trans hlast)
    rw [hinner] at hparents
    have hlength := congrArg List.length hparents
    rw [List.length_append, List.length_cons] at hlength
    dsimp only at hlevel
    have hnone : inner = [] := List.eq_nil_of_length_eq_zero (by omega)
    rw [hnone, List.nil_append, hcaller] at hinner
    exact ⟨caller, hdispatch, hcaller, hinner, hback, hcall⟩

theorem CompletedCall.receives (h : CompletedCall host m m₁ m₂ m₃ last) {caller : CallFrame}
    (hparents : m₂.parents = caller :: m.parents) (hcall : last ≠ .call) :
    Receives m₂ m₃ caller := by
  obtain ⟨saved, hreceives, -⟩ := step_receives h.ended hcall h.back
  have hsaved := (List.cons.inj (hparents.symm.trans hreceives.parents)).1
  exact hsaved ▸ hreceives

theorem storeOutput_length {evm : Evm} {saved parent : CallFrame}
    (h : storeOutput evm saved = some parent) :
    parent.memory.data.length = saved.memory.data.length := by
  unfold storeOutput at h
  dsimp only at h
  split at h
  · cases h
    rfl
  · split at h
    · cases h
    · next mem hstore =>
      cases h
      exact evmMemoryStore_length hstore

/-- A size that lies in a block survives the field of 32 bits. -/
theorem Remembers.size_eq {caller : CallFrame} (h : Remembers args caller)
    (hinside : OutputInside args caller.memory) (hblock : InBlock caller.memory) :
    caller.outputSize.toNat = args.retSize.toNat := by
  have hfits := caller.memory.fits
  have hsmall : args.retSize.toNat < 2 ^ 32 := by
    by_cases hzero : args.retSize.toNat = 0
    · omega
    · have hend := hinside hzero
      unfold InBlock at hblock
      omega
  rw [h.size, UInt64.toNat_toUInt32, toU64_toNat _ h.size_lt, Nat.mod_eq_of_lt hsmall]

theorem receivedIn_of_store {evm : Evm} {caller parent : CallFrame} (h : Remembers args caller)
    (hinside : OutputInside args caller.memory) (hblock : InBlock caller.memory)
    (hstore : storeOutput evm caller = some parent) :
    ReceivedIn args evm.returnData caller.memory parent.memory := by
  have hlength := storeOutput_length hstore
  have hoffset : caller.outputOffset.toNat = args.retOffset.toNat := by
    rw [h.offset, toU64_toNat _ h.offset_lt]
  have hsize := h.size_eq hinside hblock
  have hdata : evm.returnData.take args.retSize.toNat =
      span (cellsOf 0 evm.returnData) 0 (min args.retSize.toNat evm.returnData.length) := by
    rw [span_cellsOf 0 (by omega), List.drop_zero, ← List.take_eq_take_min]
  have hrange : EndsBy parent.memory.data.length
      ⟨caller.outputOffset.toNat, evm.returnData.take caller.outputSize.toNat⟩ := by
    intro hne
    rw [hsize, hdata] at hne
    rw [Write.stop, hsize, hdata, span_length, hoffset, hlength]
    have hend := hinside fun hzero => hne (by rw [hzero, Nat.zero_min, span_zero])
    exact le_trans (Nat.add_le_add_left (Nat.min_le_left ..) _) hend
  have hcontents := storeOutput_contents hstore hrange
  rw [hsize, hdata, hoffset] at hcontents
  refine ⟨hlength, fun k hk => ?_, fun i hother => ?_⟩
  · rw [hcontents, overlay_span, if_pos ⟨Nat.le_add_right _ _, by omega⟩,
      Nat.add_sub_cancel_left, Nat.zero_add]
    rfl
  · rw [hcontents, overlay_span, if_neg]
    rintro ⟨hstart, hstop⟩
    exact hother (i - args.retOffset.toNat) (by omega) (by omega)

/-- A caller whose output region lies in its memory finds the first bytes its child has handed
over there, and no other byte changed; a child that fails changes none. -/
theorem child_output_copied (host : Host) [OnArena host] (evm : Evm) (env : ExecutionEnv)
    {m m₁ m₂ m₃ : Machine} {last : FrameResult}
    (hreach : Reaches (step host) (start evm env) m)
    (hcall : CompletedCall host m m₁ m₂ m₃ last) :
    ∃ args caller, nextCallArgs m.active = some args ∧ m₁.parents = caller :: m.parents ∧
      m₃.parents = m.parents ∧
      (OutputInside args caller.memory → ReceivedIn args
        (handedOver (after (dispatch host) m₂.active).frame.memory last)
        caller.memory m₃.active.frame.memory) ∧
      ∀ error, last = .error error → m₃.active.frame.memory = caller.memory := by
  obtain ⟨caller, hdispatch, hentered, hsaved, hback, hreturns⟩ := hcall.caller
  obtain ⟨args, hargs, hremembers⟩ := dispatch_remembers hdispatch
  obtain ⟨parent, hstore, hmemory⟩ := (hcall.receives hsaved hreturns).stored
  have hdata := step_data hcall.ended hreturns hcall.back
  have hmetered : Metered env.call.gas m :=
    reaches_invariant (fun _ _ hm hstep => Metered.step hm hstep) (metered_start evm env) hreach
  have hblock : InBlock caller.frame.memory := by
    refine (Metered.step hmetered hcall.entry).memory _ (List.mem_cons_of_mem _ ?_)
    rw [hentered]
    exact List.mem_cons_self ..
  refine ⟨args, caller.frame, hargs, hentered, hback, fun hinside => ?_, ?_⟩
  · rw [hmemory, ← hdata]
    exact receivedIn_of_store hremembers hinside hblock hstore
  · rintro error rfl
    rw [storeOutput_empty caller.frame hdata] at hstore
    cases hstore
    exact hmemory

def wordCall : Machine :=
  start { evmInit .cancun with
      state := some (wsSetCode paddedHost worldStateCreate (lowAddress 3)
        [0x60, 7, 0x5f, 0x52, 0x60, 0x20, 0x5f, 0xf3]) }
    (running 100000 [0x60, 0x20, 0x60, 4, 0x5f, 0x5f, 0x60, 3, 0x61, 0xff, 0xff, 0xfa])

def wordCallAt (n : ℕ) : Machine := stepped n wordCall

def wordChildAt (n : ℕ) : Machine := stepped n (wordCallAt 7)

theorem wordCall_runs :
    ((step paddedHost (wordCallAt 6)).isRunning = true ∧
      (wordCallAt 7).parents.length = (wordCallAt 6).parents.length + 1 ∧
      (∀ k ≤ 5, (wordCallAt 7).parents.length ≤ (wordChildAt k).parents.length) ∧
      (step paddedHost (wordChildAt 5)).isRunning = true ∧
      (wordChildAt 6).parents.length = (wordCallAt 6).parents.length) ∧
    (nextCallArgs (wordCallAt 6).active).map
      (fun args => (args.retOffset.toNat, args.retSize.toNat)) = some (4, 32) ∧
    (wordCallAt 7).parents.map (fun frame => frame.memory.data.length) = [64] := by
  decide +kernel

theorem completedCall_word : CompletedCall paddedHost (wordCallAt 6) (wordCallAt 7)
    (wordChildAt 5) (wordChildAt 6) (.return_ 0 32) := by
  obtain ⟨hentry, hdeeper, hinside, hback, hlevel⟩ := wordCall_runs.1
  exact ⟨step_advance hentry, hdeeper, reachesIn_advance hinside, rfl, step_advance hback, hlevel⟩

theorem child_output_copied_word : ∃ args caller,
    nextCallArgs (wordCallAt 6).active = some args ∧
    (wordCallAt 7).parents = caller :: (wordCallAt 6).parents ∧ OutputInside args caller.memory ∧
    ReceivedIn args (handedOver (after (dispatch paddedHost)
        (wordChildAt 5).active).frame.memory (.return_ 0 32))
      caller.memory (wordChildAt 6).active.frame.memory := by
  obtain ⟨args, caller, hargs, hcaller, -, hreceived, -⟩ := child_output_copied paddedHost _ _
    (reaches_advance _ 6 wordCall) completedCall_word
  obtain ⟨-, hregion, hlength⟩ := wordCall_runs
  have hinside : OutputInside args caller.memory := by
    rw [show nextCallArgs (wordCallAt 6).active = some args from hargs] at hregion
    rw [show (wordCallAt 7).parents = caller :: (wordCallAt 6).parents from hcaller] at hlength
    have hoperands := Option.some.inj hregion
    have hfirst : caller.memory.data.length = 64 := (List.cons.inj hlength).1
    intro _
    rw [(Prod.mk.inj hoperands).1, (Prod.mk.inj hoperands).2, hfirst]
    norm_num
  exact ⟨args, caller, hargs, hcaller, hinside, hreceived hinside⟩

end Copies

end Div0.ReturnData
