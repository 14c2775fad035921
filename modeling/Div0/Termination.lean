import Div0.GasConservation

/-!
The interpreter stops. Some opcodes are free, so the gas alone is no measure. But a jump
costs gas, a call costs more gas than the stipend of the child, and every other opcode goes
forward in the code of its frame. So every step lowers, in the lexicographic order, the gas
of all frames together and then the code that the frames have left, counted with one more
for each frame: the end of a child takes its frame away.
-/

namespace Div0.Termination

open Effects EvmContext Node Uint256 WorldState Frame Opcodes CallOps Interpreter OpPrograms
open OpEffects CallEffects RunEffects GasConservation

/-- What every opcode does but a jump: it goes forward in the same code and makes no gas. -/
structure Onward (s s' : Active) : Prop where
  gas : s'.frame.gas ≤ s.frame.gas
  pc : s.frame.pc ≤ s'.frame.pc
  code : s'.frame.code = s.frame.code

variable {s s' : Active}

section Relation

instance : IsPreorder Active Onward where
  refl _ := ⟨UInt64.le_refl _, le_refl _, rfl⟩
  trans _ _ _ h h' := ⟨UInt64.le_trans h'.gas h.gas, le_trans h.pc h'.pc, h'.code.trans h.code⟩

theorem onward_of_forward (h : Forward s s') : Onward s s' :=
  ⟨h.gas, h.pc, (congrArg CallFrame.code h.frame :)⟩

instance (priority := low) keeps_onward {α : Type} (m : Op α) [h : Keeps Forward m] :
    Keeps Onward m :=
  ⟨fun s => onward_of_forward (h.keeps s)⟩

instance (priority := low) every_onward {α : Type} (m : Op α) [h : Every (Kept Forward) m] :
    Every (Kept Onward) m :=
  ⟨inferInstance⟩

instance : Stacks (Kept Onward) := stacks_mono onward_of_forward

instance (refund : UInt64) : Every (Kept Onward) (setGasRefund refund) :=
  ⟨keeps_modify fun _ => ⟨UInt64.le_refl _, le_refl _, rfl⟩⟩

instance (logs : List EvmLog) (capacity : ℕ) : Every (Kept Onward) (setLogs logs capacity) :=
  ⟨keeps_modify fun _ => ⟨UInt64.le_refl _, le_refl _, rfl⟩⟩

instance (f : World → World) : Every (Kept Onward) (updateState f) :=
  ⟨keeps_modify fun _ => ⟨UInt64.le_refl _, le_refl _, rfl⟩⟩

end Relation

section Handlers

set_option synthInstance.maxSize 1024

variable {host : Host}

theorem jump_cost_pos (fork : Fork) : 0 < gasTable fork .jump ∧ 0 < gasTable fork .jumpi := by
  cases fork <;> decide

theorem charge_lt {cost : UInt64} {u : Unit} (hcost : 0 < cost) (h : charge cost s = .ok u s') :
    s'.frame.gas < s.frame.gas := by
  obtain ⟨henough, rfl⟩ := charge_inv h
  dsimp only
  rw [UInt64.lt_iff_toNat_lt, UInt64.toNat_sub_of_le _ _ henough]
  rw [UInt64.lt_iff_toNat_lt] at hcost
  rw [UInt64.le_iff_toNat_le] at henough
  have hzero : (0 : UInt64).toNat = 0 := rfl
  omega

/-- Behind a charge that is not zero there is less gas. -/
theorem lt_of_charge {α β : Type} {before : Op α} {cost : UInt64} {rest : α → Op β} {b : β}
    [hbefore : Keeps Quiet before] [hrest : ∀ a, Keeps Quiet (rest a)] (hcost : 0 < cost)
    (h : (before >>= fun a => charge cost >>= fun _ => rest a) s = .ok b s') :
    s'.frame.gas < s.frame.gas := by
  obtain ⟨a, s₁, hfirst, h⟩ := bind_ok h
  obtain ⟨_, s₂, hcharge, h⟩ := bind_ok h
  exact UInt64.lt_of_le_of_lt ((hrest a).ok h).gas
    (UInt64.lt_of_lt_of_le (charge_lt hcost hcharge) (hbefore.ok hfirst).gas)

/-- A jump costs gas, whether it is taken or not. -/
theorem handler_jump_lt {cost : Opcode → UInt64} {schedule : GasSchedule} {opcode : Opcode}
    {result : Option FrameResult} (hjump : isJumpOp opcode = true)
    (hcost : 0 < cost .jump ∧ 0 < cost .jumpi)
    (h : handler host cost schedule opcode s = .ok result s') : s'.frame.gas < s.frame.gas := by
  cases opcode <;> simp only [isJumpOp, Bool.false_eq_true] at hjump
  case jump =>
    obtain ⟨_, s₁, hop, h⟩ := bind_ok h
    cases h
    obtain ⟨bitmap, s₂, hbitmap, hop⟩ := bind_ok hop
    have hkept : Quiet s s₂ := Keeps.ok inferInstance hbitmap
    exact UInt64.lt_of_lt_of_le (lt_of_charge hcost.1 hop) hkept.gas
  case jumpi =>
    obtain ⟨_, s₁, hop, h⟩ := bind_ok h
    cases h
    obtain ⟨bitmap, s₂, hbitmap, hop⟩ := bind_ok hop
    have hkept : Quiet s s₂ := Keeps.ok inferInstance hbitmap
    exact UInt64.lt_of_lt_of_le (lt_of_charge hcost.2 hop) hkept.gas

variable [OnArena host]

instance (transfers : Bool) (params : ParamsOf) (setup : CallSetup) :
    KeepsUnless Onward true (startCall host transfers params setup) := by
  have hfinal : ∀ params, KeepsUnless Onward true (enterChild setup params) :=
    fun _ => KeepsUnless.mono (R := Forward) (fun _ _ => onward_of_forward) inferInstance
  unfold startCall
  infer_instance

instance (prep : World → Op (Option CallSetup)) (transfers : Bool) (params : ParamsOf)
    [∀ ws, Keeps Forward (prep ws)] :
    KeepsUnless Onward true (callWith host prep transfers params) := by
  unfold callWith
  refine keepsUnless_then fun ws => keepsUnless_then fun made => ?_
  split <;> infer_instance

theorem handler_onward {cost : Opcode → UInt64} {schedule : GasSchedule} {opcode : Opcode}
    (hjump : isJumpOp opcode = false) :
    KeepsUnless Onward (some .call) (handler host cost schedule opcode) := by
  cases hcall : isCallOp opcode with
  | true =>
    cases opcode <;> simp only [isCallOp, Bool.false_eq_true] at hcall <;>
      simp only [handler] <;> infer_instance
  | false =>
    cases hwrite : isWriteOp opcode with
    | true =>
      cases opcode <;> simp only [isWriteOp, Bool.false_eq_true] at hwrite <;>
        simp only [handler] <;> infer_instance
    | false =>
      have hforward : Keeps Forward (handler host cost schedule opcode) :=
        handler_forward hcall hjump hwrite
      infer_instance

/-- A dispatch after which the frame goes on costs gas or uses up code. -/
theorem dispatch_progress (h : dispatch host s = .ok none s') :
    s'.frame.gas < s.frame.gas ∨
      s'.frame.gas ≤ s.frame.gas ∧ s'.frame.code = s.frame.code ∧
        s.frame.pc < s.frame.code.length ∧ s.frame.pc < s'.frame.pc := by
  obtain ⟨opcode, hop, h⟩ := dispatch_inv h (by simp)
  cases hjump : isJumpOp opcode with
  | true =>
    have hless := handler_jump_lt hjump (jump_cost_pos s.evm.fork) h
    exact Or.inl hless
  | false =>
    have honward := (handler_onward hjump).ok h (by simp)
    have hpc : s.frame.pc < s.frame.code.length := by
      unfold nextOpcode at hop
      rw [Option.map_eq_some_iff] at hop
      obtain ⟨byte, hbyte, -⟩ := hop
      exact (List.getElem?_eq_some_iff.mp hbyte).1
    exact Or.inr ⟨honward.gas, honward.code, hpc, honward.pc⟩

end Handlers

section Measure

variable {host : Host} {m m' : Machine}

def codeLeft (frame : CallFrame) : ℕ := frame.code.length - frame.pc + 1

/-- The measure of the machine: gas first, then code. -/
def fuelLeft (m : Machine) : ℕ × ℕ := (gasOf (frames m), ((frames m).map codeLeft).sum)

/-- Every step lowers the measure. -/
theorem fuelLeft_step [OnArena host] (hmem : InBlock m.active.frame.memory)
    (h : step host m = .running m') :
    Prod.Lex (· < ·) (· < ·) (fuelLeft m') (fuelLeft m) := by
  have hgas := gasOf_step hmem h
  have hmoves := moves_of_step h
  have hlower : gasOf (frames m') < gasOf (frames m) ∨
      ((frames m').map codeLeft).sum < ((frames m).map codeLeft).sum := by
    cases hmoves with
    | @goesOn s hdispatch =>
      rcases dispatch_progress hdispatch with hless | ⟨-, hcode, hend, hpc⟩
      · left
        rw [UInt64.lt_iff_toNat_lt] at hless
        simp only [frames, gasOf_cons]
        omega
      · right
        simp only [frames, List.map_cons, List.sum_cons, codeLeft, hcode]
        omega
    | enters hdispatch hroom hpending =>
      left
      have hpaid := (starts_of_pending hdispatch hpending).gas hmem
      simp only [frames, gasOf_cons]
      omega
    | delivers hlast hcall hs hdepth hparents hcopied hdelivered =>
      right
      have hcode := congrArg codeLeft hdelivered.rest
      simp only [frames, hparents, List.map_cons, List.sum_cons]
      simp only [codeLeft] at hcode ⊢
      omega
  rw [Prod.lex_def]
  rcases hlower with hless | hless
  · exact Or.inl hless
  · rcases Nat.lt_or_eq_of_le hgas with hlt | heq
    · exact Or.inl hlt
    · exact Or.inr ⟨heq, hless⟩

end Measure

/-- Every run stops. -/
theorem stops {host : Host} [OnArena host] (evm : Evm) (env : ExecutionEnv) :
    ∃ last, Reaches (step host) (start evm env) last ∧ ∀ m, step host last ≠ .running m := by
  have hkept : ∀ m m', Metered env.call.gas m → step host m = .running m' →
      Metered env.call.gas m' := fun _ _ => Metered.step
  have hlower : ∀ m m', Metered env.call.gas m → step host m = .running m' →
      Prod.Lex (· < ·) (· < ·) (fuelLeft m') (fuelLeft m) :=
    fun _ _ hm => fuelLeft_step (hm.memory _ (List.mem_cons_self ..))
  exact reaches_stop (WellFounded.prod_lex Nat.lt_wfRel.wf Nat.lt_wfRel.wf) hkept fuelLeft hlower
    (metered_start evm env)

/-- A memory expansion of the next instruction does not come back. -/
def Hangs (host : Host) (m : Machine) : Prop := ∃ s, dispatch host m.active = .error .diverges s

instance (host : Host) (m : Machine) : Decidable (Hangs host m) :=
  match h : dispatch host m.active with
  | .error .diverges s => isTrue ⟨s, h⟩
  | .error (.status _) _ => isFalse fun ⟨_, hs⟩ => by rw [h] at hs; cases hs
  | .error (.undefined _) _ => isFalse fun ⟨_, hs⟩ => by rw [h] at hs; cases hs
  | .ok _ _ => isFalse fun ⟨_, hs⟩ => by rw [h] at hs; cases hs

end Div0.Termination
