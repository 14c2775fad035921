import Div0.CallEffects
import Div0.TwoRuns

/-!
Runs that differ in the sizes of buffers. An EVM that has run before keeps the capacity of
its log vector and of its return buffer, and a stack may have grown more than another one
with the same items. None of this shows: two such runs end in the same way and stay
related, except that a stack with less room may be written past its end. Where the log
vector or the return buffer has to grow, the arena grants both runs the same number of
logs and the same size of data.
-/

namespace Div0.Capacities

open BigEndian Buffer EvmContext Memory Node Uint256 WorldState Frame FrameOps StateOps CallOps
open Interpreter TwoRuns

section Stacks

/-- Growing succeeds as long as the items with the new ones are within the maximal depth. -/
theorem growUntil_isSome {n rounds : ℕ} {stack : EvmStack}
    (hdepth : stack.items.length + n ≤ stackMaxDepth)
    (hrounds : stackMaxDepth ≤ stack.capacity * 2 ^ rounds) :
    ∃ grown, growUntil n (rounds + 1) stack = some grown := by
  have hmax : stackMaxDepth = 1024 := rfl
  induction rounds generalizing stack with
  | zero =>
    rw [pow_zero, mul_one] at hrounds
    exact ⟨stack, by rw [growUntil, if_pos (le_trans hdepth hrounds)]⟩
  | succ rounds ih =>
    unfold growUntil
    by_cases hfits : stack.items.length + n ≤ stack.capacity
    · exact ⟨stack, by rw [if_pos hfits]⟩
    rw [if_neg hfits]
    have hpos : 0 < stack.capacity := by
      by_contra hzero
      rw [Nat.eq_zero_of_not_pos hzero, Nat.zero_mul] at hrounds
      omega
    have hgrows : ¬grownCapacity stack.capacity ≤ stack.capacity := by
      unfold grownCapacity
      split <;> omega
    have hgrown : evmStackGrow stack = some ⟨stack.items, grownCapacity stack.capacity,
        le_trans stack.fits (le_of_lt (not_le.mp hgrows)), grownCapacity_le stack.capacity⟩ :=
      dif_neg hgrows
    rw [hgrown]
    refine ih hdepth ?_
    change stackMaxDepth ≤ grownCapacity stack.capacity * 2 ^ rounds
    unfold grownCapacity
    split
    · exact Nat.le_mul_of_pos_right _ (Nat.two_pow_pos rounds)
    · rwa [Nat.mul_assoc, ← Nat.pow_succ']

theorem ensureSpace_isSome {n : ℕ} {stack : EvmStack} (hpos : 0 < stack.capacity)
    (hdepth : stack.items.length + n ≤ stackMaxDepth) :
    ∃ grown, evmStackEnsureSpace stack n = some grown := by
  have hmax : stackMaxDepth = 1024 := rfl
  have hspace : evmStackHasSpace stack n = true := decide_eq_true hdepth
  rw [evmStackEnsureSpace, if_pos hspace]
  exact growUntil_isSome hdepth (by omega)

def Roomier (stack stack' : EvmStack) : Prop :=
  stack = stack' ∨
    stack.items = stack'.items ∧ 0 < stack.capacity ∧ stack'.capacity = stackMaxDepth

variable {stack stack' grown : EvmStack}

section

variable (h : Roomier stack stack')
include h

theorem Roomier.items : stack.items = stack'.items := by
  rcases h with rfl | ⟨hitems, -⟩
  · rfl
  · exact hitems

/-- Both stacks make room, or both report that there is none. -/
theorem Roomier.ensureSpace (n : ℕ) :
    (evmStackEnsureSpace stack n = none ∧ evmStackEnsureSpace stack' n = none) ∨
      ∃ grown grown', evmStackEnsureSpace stack n = some grown ∧
        evmStackEnsureSpace stack' n = some grown' ∧ Roomier grown grown' := by
  rcases h with rfl | ⟨hitems, hpos, hfull⟩
  · cases hspace : evmStackEnsureSpace stack n with
    | none => exact .inl ⟨rfl, rfl⟩
    | some grown => exact .inr ⟨grown, grown, rfl, rfl, .inl rfl⟩
  by_cases hdepth : stack.items.length + n ≤ stackMaxDepth
  · obtain ⟨grown, hgrown⟩ := ensureSpace_isSome hpos hdepth
    have hspec := evmStackEnsureSpace_spec hgrown
    have hdepth' : stack'.items.length + n ≤ stackMaxDepth := hitems ▸ hdepth
    have hsame : evmStackEnsureSpace stack' n = some stack' := by
      rw [evmStackEnsureSpace, evmStackHasSpace, if_pos (decide_eq_true hdepth'), growUntil,
        if_pos (hfull ▸ hdepth')]
    exact .inr ⟨grown, stack', hgrown, hsame,
      .inr ⟨hspec.1.trans hitems, lt_of_lt_of_le hpos hspec.2.1, hfull⟩⟩
  · have hdepth' : ¬stack'.items.length + n ≤ stackMaxDepth := hitems ▸ hdepth
    left
    rw [evmStackEnsureSpace, evmStackEnsureSpace, evmStackHasSpace, evmStackHasSpace,
      decide_eq_false hdepth, decide_eq_false hdepth']
    exact ⟨rfl, rfl⟩

/-- What the first stack has room for, the second one has. -/
theorem Roomier.push (value : Word) (hpush : evmStackPush stack value = some grown) :
    ∃ grown', evmStackPush stack' value = some grown' ∧ Roomier grown grown' := by
  rcases h with rfl | ⟨hitems, hpos, hfull⟩
  · exact ⟨grown, hpush, .inl rfl⟩
  unfold evmStackPush at hpush ⊢
  split at hpush
  · next hroom =>
    cases hpush
    have hroom' : stack'.items.length < stack'.capacity := by
      rw [hfull, ← hitems]
      exact lt_of_lt_of_le hroom stack.bounded
    rw [dif_pos hroom']
    exact ⟨_, rfl, .inr ⟨congrArg (value :: ·) hitems, hpos, hfull⟩⟩
  · cases hpush

theorem Roomier.dup (depth : ℕ) (hdup : evmStackDup stack depth = some grown) :
    ∃ grown', evmStackDup stack' depth = some grown' ∧ Roomier grown grown' := by
  unfold evmStackDup at hdup ⊢
  rw [← h.items]
  cases hvalue : stack.items[depth - 1]? with
  | none =>
    rw [hvalue] at hdup
    cases hdup
  | some value =>
    rw [hvalue] at hdup
    exact h.push value hdup

theorem Roomier.swap (depth : ℕ) (hswap : evmStackSwap stack depth = some grown) :
    ∃ grown', evmStackSwap stack' depth = some grown' ∧ Roomier grown grown' := by
  rcases h with rfl | ⟨hitems, hpos, hfull⟩
  · exact ⟨grown, hswap, .inl rfl⟩
  obtain ⟨items', capacity', fits', bounded'⟩ := stack'
  obtain rfl : stack.items = items' := hitems
  unfold evmStackSwap at hswap ⊢
  dsimp only
  split at hswap
  · cases hswap
    exact ⟨_, rfl, .inr ⟨rfl, hpos, hfull⟩⟩
  · cases hswap

theorem Roomier.pop {value : Word} (hpop : evmStackPop stack = some (value, grown)) :
    ∃ grown', evmStackPop stack' = some (value, grown') ∧ Roomier grown grown' := by
  rcases h with rfl | ⟨hitems, hpos, hfull⟩
  · exact ⟨grown, hpop, .inl rfl⟩
  obtain ⟨items, capacity, fits, bounded⟩ := stack
  obtain ⟨items', capacity', fits', bounded'⟩ := stack'
  obtain rfl : items = items' := hitems
  cases items with
  | nil => cases hpop
  | cons top rest =>
    cases hpop
    exact ⟨_, rfl, .inr ⟨rfl, hpos, hfull⟩⟩

end

end Stacks

variable {frame frame' : CallFrame}

section Relation

def logCapacities : List ℕ := [0, 16, 32, 64, 128, 256]

/-- Buffers as they come from growing: the log vector holds its logs and has been doubled from
16 on as long as the arena has a block for it, and the return buffer is within a block. -/
structure Grown (logs : List EvmLog) (logsCapacity returnDataCapacity : ℕ) : Prop where
  logs : logs.length ≤ logsCapacity
  logsCapacity : logsCapacity ∈ logCapacities
  returnData : returnDataCapacity ≤ 65536

/-- The frames differ in the capacity of the stack alone. -/
inductive TwinFrames : CallFrame → CallFrame → Prop
  | twin {frame : CallFrame} {stack : EvmStack} (hstack : Roomier frame.stack stack) :
      TwinFrames frame { frame with stack := stack }

/-- The EVMs differ in the capacities of their buffers alone. -/
inductive TwinEvms : Evm → Evm → Prop
  | twin {evm : Evm} {logs data : ℕ}
      (hgrown : Grown evm.logs evm.logsCapacity evm.returnDataCapacity)
      (hgrown' : Grown evm.logs logs data) :
      TwinEvms evm { evm with logsCapacity := logs, returnDataCapacity := data }

/-- The states differ in capacities alone. -/
structure Twins (s t : Active) : Prop where
  evm : TwinEvms s.evm t.evm
  frame : TwinFrames s.frame t.frame

/-- A write past the end of a stack, or a read below its bottom. -/
def StackFault (halt : Halt) : Prop := halt = .undefined .stack

variable {α : Type} {s t : Active}

abbrev Twinned (m : Op α) : Prop := Follows StackFault Twins m

theorem TwinFrames.refl (frame : CallFrame) : TwinFrames frame frame := .twin (.inl rfl)

theorem TwinEvms.refl {evm : Evm} (h : Grown evm.logs evm.logsCapacity evm.returnDataCapacity) :
    TwinEvms evm evm :=
  .twin h h

theorem TwinFrames.stack (h : TwinFrames frame frame') : Roomier frame.stack frame'.stack := by
  cases h with
  | twin hstack => exact hstack

/-- What reads a frame but not its stack reads the same from both. -/
theorem TwinFrames.same (h : TwinFrames frame frame') (f : CallFrame → α)
    [hsame : ∀ frame stack, Same (f { frame with stack := stack }) (f frame)] :
    f frame' = f frame := by
  cases h with
  | twin => exact (hsame _ _).eq

variable {evm evm' : Evm}

section

variable (h : TwinEvms evm evm')
include h

/-- What reads an EVM but not the capacities reads the same from both. -/
theorem TwinEvms.same (f : Evm → α)
    [hsame : ∀ evm logs data, Same
      (f { evm with logsCapacity := logs, returnDataCapacity := data }) (f evm)] :
    f evm' = f evm := by
  cases h with
  | twin => exact (hsame _ _ _).eq

theorem TwinEvms.grown : Grown evm.logs evm.logsCapacity evm.returnDataCapacity := by
  cases h with
  | twin hgrown => exact hgrown

theorem TwinEvms.grown' : Grown evm'.logs evm'.logsCapacity evm'.returnDataCapacity := by
  cases h with
  | twin _ hgrown' => exact hgrown'

/-- Both EVMs get the same logs. -/
theorem TwinEvms.setLogs {logs : List EvmLog} {capacity capacity' : ℕ}
    (hgrown : Grown logs capacity evm.returnDataCapacity)
    (hgrown' : Grown logs capacity' evm'.returnDataCapacity) :
    TwinEvms { evm with logs := logs, logsCapacity := capacity }
      { evm' with logs := logs, logsCapacity := capacity' } := by
  cases h with
  | twin => exact .twin hgrown hgrown'

end

/-- A change of the frame. -/
theorem follows_modifyFrame (f : CallFrame → CallFrame)
    (hf : ∀ {frame frame'}, TwinFrames frame frame' → TwinFrames (f frame) (f frame')) :
    Twinned (modify fun s => { s with frame := f s.frame } : Op Unit) :=
  follows_modify fun _ _ h => ⟨h.evm, hf h.frame⟩

/-- A change of the EVM. -/
theorem follows_modifyEvm (f : Evm → Evm)
    (hf : ∀ {evm evm'}, TwinEvms evm evm' → TwinEvms (f evm) (f evm')) :
    Twinned (modify fun s => { s with evm := f s.evm } : Op Unit) :=
  follows_modify fun _ _ h => ⟨hf h.evm, h.frame⟩

instance follows_getFrame (f : CallFrame → Op α) [hf : ∀ frame, Twinned (f frame)]
    [∀ frame stack, Same (f { frame with stack := stack }) (f frame)] :
    Twinned (getFrame >>= f) where
  follows s t h havoids := by
    change Agree Twins (f s.frame s) (f t.frame t)
    rw [h.frame.same f]
    exact (hf s.frame).follows s t h havoids

instance follows_getEvm (f : Evm → Op α) [hf : ∀ evm, Twinned (f evm)] [∀ evm logs data, Same
      (f { evm with logsCapacity := logs, returnDataCapacity := data }) (f evm)] :
    Twinned (getEvm >>= f) where
  follows s t h havoids := by
    change Agree Twins (f s.evm s) (f t.evm t)
    rw [h.evm.same f]
    exact (hf s.evm).follows s t h havoids

instance follows_get (f : Active → Op α) [hf : ∀ s, Twinned (f s)]
    [hsame : ∀ evm frame stack logs data, Same
      (f ⟨{ evm with logsCapacity := logs, returnDataCapacity := data },
        { frame with stack := stack }⟩) (f ⟨evm, frame⟩)] :
    Twinned (get >>= f) where
  follows s t h havoids := by
    have hread : f t = f s := by
      obtain ⟨evm, frame⟩ := s
      obtain ⟨evm', frame'⟩ := t
      obtain ⟨⟨-, -⟩, ⟨-⟩⟩ := h
      exact (hsame _ _ _ _ _).eq
    change Agree Twins (f s s) (f t t)
    rw [hread]
    exact (hf s).follows s t h havoids

end Relation

section Primitives

instance {α : Type} (error : EvmStatus) : Twinned (fail error : Op α) :=
  inferInstanceAs (Follows _ _ (throw _ : Op α))

instance (c : Bool) (error : EvmStatus) : Twinned (require c error) := by
  unfold require
  infer_instance

instance {α : Type} (access : Access) (o : Option α) : Twinned (defined access o) := by
  cases o with
  | none => exact inferInstanceAs (Follows _ _ (throw _ : Op α))
  | some a => exact inferInstanceAs (Follows _ _ (pure a : Op α))

instance (mem : EvmMemory) : Twinned (setMemory mem) :=
  follows_modifyFrame (fun frame => { frame with memory := mem }) fun ⟨h⟩ => .twin h

instance (pc : ℕ) : Twinned (setPc pc) :=
  follows_modifyFrame (fun frame => { frame with pc := pc }) fun ⟨h⟩ => .twin h

instance (bitmap : Option Bytes) : Twinned (setJumpdestBitmap bitmap) :=
  follows_modifyFrame (fun frame => { frame with jumpdestBitmap := bitmap }) fun ⟨h⟩ => .twin h

instance (f : World → World) : Twinned (updateState f) :=
  follows_modifyEvm (fun evm => { evm with state := evm.state.map f }) fun ⟨h, h'⟩ => .twin h h'

instance (refund : UInt64) : Twinned (setGasRefund refund) :=
  follows_modifyEvm (fun evm => { evm with gasRefund := refund }) fun ⟨h, h'⟩ => .twin h h'

instance (child : CallFrame) (r : CallRegions) : Twinned (switchTo child r) := by
  have hevm : ∀ {evm evm' : Evm}, TwinEvms evm evm' → TwinEvms
      { evm with
        framePoolDepth := evm.framePoolDepth + 1
        memoryPoolDepth := evm.memoryPoolDepth + 1
        pendingFrame := some child }
      { evm' with
        framePoolDepth := evm'.framePoolDepth + 1
        memoryPoolDepth := evm'.memoryPoolDepth + 1
        pendingFrame := some child } := fun ⟨h, h'⟩ => .twin h h'
  have hframe : ∀ {frame frame' : CallFrame}, TwinFrames frame frame' → TwinFrames
      { frame with outputOffset := r.retOffset, outputSize := r.retSize.toUInt32 }
      { frame' with outputOffset := r.retOffset, outputSize := r.retSize.toUInt32 } :=
    fun ⟨h⟩ => .twin h
  exact follows_modify fun _ _ h => ⟨hevm h.evm, hframe h.frame⟩

instance (cost : UInt64) : Twinned (charge cost) := by
  have hpay : Twinned
      (modify fun s => { s with frame := { s.frame with gas := s.frame.gas - cost } } : Op Unit) :=
    follows_modifyFrame (fun frame => { frame with gas := frame.gas - cost }) fun ⟨h⟩ => .twin h
  unfold charge
  infer_instance

instance (error : EvmStatus) : Twinned (requireState error) := by
  unfold requireState
  refine @follows_getEvm _ _ (fun evm => ?_) inferInstance
  split <;> infer_instance

/-- A test or a look at the items. -/
theorem follows_items {α : Type} {f : CallFrame → Op α}
    (hitems : ∀ frame stack, frame.stack.items = stack.items →
      f { frame with stack := stack } = f frame)
    (hf : ∀ frame, Twinned (f frame)) :
    Twinned (getFrame >>= f) where
  follows s t h havoids := by
    have hread : ∀ {frame frame'}, TwinFrames frame frame' → f frame' = f frame :=
      fun ⟨hstack⟩ => hitems _ _ hstack.items
    change Agree Twins (f s.frame s) (f t.frame t)
    rw [hread h.frame]
    exact (hf s.frame).follows s t h havoids

instance (n : ℕ) : Twinned (hasItems n) := by
  refine follows_items (fun frame stack hitems => ?_) fun frame => inferInstance
  simp only [evmStackHasItems, hitems]

instance : Twinned chargeExp := by
  refine follows_items (fun frame stack hitems => ?_) fun frame => inferInstance
  simp only [evmStackPeek, hitems]

theorem TwinFrames.setStack (h : TwinFrames frame frame') {stack stack' : EvmStack}
    (hstack : Roomier stack stack') :
    TwinFrames { frame with stack := stack } { frame' with stack := stack' } := by
  cases h with
  | twin => exact .twin hstack

/-- A new stack that depends on the old one. -/
theorem follows_setStack {f : EvmStack → Option EvmStack}
    (hf : ∀ stack stack' grown, Roomier stack stack' → f stack = some grown →
      ∃ grown', f stack' = some grown' ∧ Roomier grown grown') :
    Twinned (getFrame >>= fun frame =>
      defined .stack (f frame.stack) >>= fun stack => setStack stack) where
  follows s t h havoids := by
    have hroomier := h.frame.stack
    change Agree Twins ((defined .stack (f s.frame.stack) >>= setStack) s)
      ((defined .stack (f t.frame.stack) >>= setStack) t)
    change Avoids StackFault ((defined .stack (f s.frame.stack) >>= setStack) s) at havoids
    cases hfirst : f s.frame.stack with
    | none =>
      rw [hfirst] at havoids
      exact absurd rfl havoids
    | some grown =>
      obtain ⟨grown', hsecond, hstack⟩ := hf _ _ _ hroomier hfirst
      rw [hsecond]
      exact .ok _ ⟨h.evm, h.frame.setStack hstack⟩

instance (value : Word) : Twinned (push value) :=
  follows_setStack fun _ _ _ h hpush => h.push value hpush

instance (depth : ℕ) : Twinned (getFrame >>= fun frame =>
    defined .stack (evmStackDup frame.stack depth) >>= fun stack => setStack stack) :=
  follows_setStack fun _ _ _ h hdup => h.dup depth hdup

instance (depth : ℕ) : Twinned (getFrame >>= fun frame =>
    defined .stack (evmStackSwap frame.stack depth) >>= fun stack => setStack stack) :=
  follows_setStack fun _ _ _ h hswap => h.swap depth hswap

instance (n : ℕ) : Twinned (ensureSpace n) where
  follows s t h _ := by
    have hroomier := h.frame.stack
    change Agree Twins
      ((match evmStackEnsureSpace s.frame.stack n with
        | some stack => setStack stack
        | none => fail .stackOverflow : Op Unit) s)
      ((match evmStackEnsureSpace t.frame.stack n with
        | some stack => setStack stack
        | none => fail .stackOverflow : Op Unit) t)
    rcases hroomier.ensureSpace n with ⟨hfirst, hsecond⟩ | ⟨grown, grown', hfirst, hsecond, hstack⟩
    · rw [hfirst, hsecond]
      exact .error _ h
    · rw [hfirst, hsecond]
      exact .ok _ ⟨h.evm, h.frame.setStack hstack⟩

instance : Twinned pop where
  follows s t h havoids := by
    have hroomier := h.frame.stack
    change Agree Twins
      ((defined .stack (evmStackPop s.frame.stack) >>= fun p => setStack p.2 >>= fun _ => pure p.1) s)
      ((defined .stack (evmStackPop t.frame.stack) >>= fun p => setStack p.2 >>= fun _ => pure p.1) t)
    change Avoids StackFault
      ((defined .stack (evmStackPop s.frame.stack) >>= fun p => setStack p.2 >>= fun _ => pure p.1) s)
      at havoids
    cases hfirst : evmStackPop s.frame.stack with
    | none =>
      rw [hfirst] at havoids
      exact absurd rfl havoids
    | some popped =>
      obtain ⟨grown', hsecond, hstack⟩ := hroomier.pop hfirst
      rw [hsecond]
      exact .ok popped.1 ⟨h.evm, h.frame.setStack hstack⟩

instance (n : ℕ) : Twinned (popAll n) := by
  induction n with
  | zero => exact inferInstanceAs (Follows _ _ (pure _ : Op (List Word)))
  | succ n ih =>
    unfold popAll
    infer_instance

instance (value : Word) : Twinned (toU64 value) := by
  unfold toU64
  infer_instance

instance (host : Host) (offset size : UInt64) : Twinned (expandMemory host offset size) := by
  unfold expandMemory
  refine @follows_getFrame _ _ (fun frame => ?_) inferInstance
  split <;> infer_instance

instance (offset len : UInt64) : Twinned (loadMemory offset len) := by
  unfold loadMemory
  infer_instance

instance (offset : UInt64) (bytes : Bytes) : Twinned (storeMemory offset bytes) := by
  unfold storeMemory
  infer_instance

end Primitives

section Logs

variable {host : Host} [harena : OnArena host]

def nextCapacity (capacity : ℕ) : ℕ := if capacity = 0 then 16 else capacity * 2

theorem logCapacities_next : ∀ c ∈ logCapacities, c ≤ 256 ∧
    (c < 256 → nextCapacity c ∈ logCapacities ∧ c < nextCapacity c ∧
      0 < nextCapacity c * logSize ∧ nextCapacity c * logSize ≤ 65536) ∧
    (256 ≤ c → 65536 < nextCapacity c * logSize) := by
  decide

variable (host) in
/-- A vector that is as long as it can get refuses another log; every other one takes it. -/
theorem evmLogVecPush_grown (log : EvmLog) {s : Active}
    (h : Grown s.evm.logs s.evm.logsCapacity s.evm.returnDataCapacity) :
    (256 ≤ s.evm.logs.length ∧ evmLogVecPush host log s = .error (.status .outOfGas) s) ∨
      (s.evm.logs.length < 256 ∧ ∃ capacity,
        evmLogVecPush host log s = setLogs (s.evm.logs ++ [log]) capacity s ∧
          Grown (s.evm.logs ++ [log]) capacity s.evm.returnDataCapacity) := by
  obtain ⟨hle, hgrows, hstops⟩ := logCapacities_next _ h.logsCapacity
  have hlogs := h.logs
  have hgrown : ∀ capacity, s.evm.logs.length < capacity → capacity ∈ logCapacities →
      Grown (s.evm.logs ++ [log]) capacity s.evm.returnDataCapacity := by
    intro capacity hlt hmem
    refine ⟨?_, hmem, h.returnData⟩
    rw [List.length_append, List.length_singleton]
    exact hlt
  change (_ ∧ (if s.evm.logsCapacity ≤ s.evm.logs.length then
      require (host.alloc (nextCapacity s.evm.logsCapacity * logSize)) .outOfGas >>= fun _ =>
        setLogs (s.evm.logs ++ [log]) (nextCapacity s.evm.logsCapacity)
    else setLogs (s.evm.logs ++ [log]) s.evm.logsCapacity) s = _) ∨ (_ ∧ ∃ capacity,
      (if s.evm.logsCapacity ≤ s.evm.logs.length then
        require (host.alloc (nextCapacity s.evm.logsCapacity * logSize)) .outOfGas >>= fun _ =>
          setLogs (s.evm.logs ++ [log]) (nextCapacity s.evm.logsCapacity)
      else setLogs (s.evm.logs ++ [log]) s.evm.logsCapacity) s = _ ∧ _)
  by_cases hroom : s.evm.logs.length < s.evm.logsCapacity
  · rw [if_neg (not_le.mpr hroom)]
    exact .inr ⟨lt_of_lt_of_le hroom hle, _, rfl, hgrown _ hroom h.logsCapacity⟩
  rw [if_pos (not_lt.mp hroom)]
  by_cases hlast : 256 ≤ s.evm.logsCapacity
  · have hrefused : host.alloc (nextCapacity s.evm.logsCapacity * logSize) = false := by
      rw [harena.alloc_eq]
      exact arenaAlloc_refuses (hstops hlast)
    rw [hrefused]
    exact .inl ⟨le_trans hlast (not_lt.mp hroom), rfl⟩
  · obtain ⟨hmem, hlt, hpos, hfits⟩ := hgrows (not_le.mp hlast)
    have hgranted : host.alloc (nextCapacity s.evm.logsCapacity * logSize) = true :=
      harena.supply.grants _ hpos hfits
    rw [hgranted]
    exact .inr ⟨lt_of_le_of_lt hlogs (not_le.mp hlast), _, rfl,
      hgrown _ (lt_of_le_of_lt hlogs hlt) hmem⟩

instance (log : EvmLog) : Twinned (evmLogVecPush host log) where
  follows s t h _ := by
    have hlogs : t.evm.logs = s.evm.logs := h.evm.same Evm.logs
    rcases evmLogVecPush_grown host log h.evm.grown with
      ⟨hlong, hfirst⟩ | ⟨hshort, capacity, hfirst, hgrown⟩
    · rcases evmLogVecPush_grown host log h.evm.grown' with ⟨-, hsecond⟩ | ⟨hshort, -⟩
      · rw [hfirst, hsecond]
        exact .error _ h
      · exact absurd (hlogs ▸ hshort) (not_lt.mpr hlong)
    · rcases evmLogVecPush_grown host log h.evm.grown' with
        ⟨hlong, -⟩ | ⟨-, capacity', hsecond, hgrown'⟩
      · exact absurd hshort (not_lt.mpr (hlogs ▸ hlong))
      · rw [hfirst, hsecond]
        rw [hlogs] at hgrown' ⊢
        exact .ok _ ⟨h.evm.setLogs hgrown hgrown', h.frame⟩

end Logs

end Div0.Capacities
