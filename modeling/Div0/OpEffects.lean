import Div0.OpPrograms
import Div0.WorldLedger

/-!
What an opcode can do to gas, memory and balances. `Ordinary` relates the state before an
opcode to the state after it: the gas of the frame does not grow, the memory stays within
one block of the arena, and the ledger is at most rearranged. It is proved for the
primitives; every handler that is built from them has it by instance search. Only a call
that starts a child is treated by itself: it splits the gas of the caller between the
caller and the child.
-/

namespace Div0.OpEffects

open BigEndian Buffer Effects EvmContext Memory Node Uint256 WorldState WorldLedger Ledgers Frame
open Opcodes FrameOps StateOps Interpreter OpPrograms
open Containers (Growth)

variable {host : Host}

def tabledArena (tables : Growth) (keccak256 : Bytes → Hash) : Host :=
  ⟨arenaAlloc, keccak256, tables⟩

/-- The arena with hash tables that have room. -/
def arenaWith (keccak256 : Bytes → Hash) : Host := ⟨arenaAlloc, keccak256, .ample⟩

instance (keccak256 : Bytes → Hash) : Roomy (arenaWith keccak256) := ⟨fun _ _ => rfl⟩

instance (tables : Growth) (keccak256 : Bytes → Hash) : OnArena (tabledArena tables keccak256) :=
  ⟨rfl⟩

instance onArena_arenaWith (keccak256 : Bytes → Hash) : OnArena (arenaWith keccak256) := ⟨rfl⟩

def ShowsState (host : Host) (evm : Evm) (l : Ledger Hash) : Prop :=
  ∃ ws, evm.state = some ws ∧ Shows host ws l

def InBlock (mem : EvmMemory) : Prop := mem.capacity.toNat ≤ 65536

theorem inBlock_init : InBlock evmMemoryInit := by
  unfold InBlock
  decide

def cool (ws : World) : World := { ws with warmAddresses := [], warmSlots := [] }

def coolEvm (evm : Evm) : Evm := { evm with state := evm.state.map cool }

def setting (frame : CallFrame) : CallFrame :=
  { frame with
    pc := 0
    gas := 0
    stack := evmStackInit
    memory := evmMemoryInit
    jumpdestBitmap := none }

/-- What an opcode does that changes no account, no log and no refund. -/
structure Quiet (s s' : Active) : Prop where
  gas : s'.frame.gas ≤ s.frame.gas
  stack : s.frame.stack.capacity ≤ s'.frame.stack.capacity
  memory : InBlock s.frame.memory → InBlock s'.frame.memory
  frame : setting s'.frame = setting s.frame
  evm : coolEvm s'.evm = coolEvm s.evm

/-- What a quiet opcode does that is no jump. -/
structure Forward (s s' : Active) : Prop extends Quiet s s' where
  pc : s.frame.pc ≤ s'.frame.pc

def machinery (evm : Evm) : Evm :=
  { evm with
    state := none
    gasRefund := 0
    logs := []
    logsCapacity := 0 }

/-- What any opcode does that does not start a child. -/
structure Ordinary (host : Host) (s s' : Active) : Prop where
  gas : s'.frame.gas ≤ s.frame.gas
  stack : s.frame.stack.capacity ≤ s'.frame.stack.capacity
  memory : InBlock s.frame.memory → InBlock s'.frame.memory
  frame : setting s'.frame = setting s.frame
  evm : machinery s'.evm = machinery s.evm
  ledger : ∀ l, ShowsState host s.evm l →
    ∃ l', ShowsState host s'.evm l' ∧ l.Rearranged (2 ^ 256) l'

section Relations

variable {s s' : Active}

instance : IsPreorder Active Quiet where
  refl _ := ⟨UInt64.le_refl _, le_refl _, id, rfl, rfl⟩
  trans _ _ _ h h' :=
    ⟨UInt64.le_trans h'.gas h.gas, le_trans h.stack h'.stack, fun hm => h'.memory (h.memory hm), h'.frame.trans h.frame,
      h'.evm.trans h.evm⟩

instance : IsPreorder Active Forward where
  refl s := ⟨refl_of Quiet s, le_refl _⟩
  trans _ _ _ h h' := ⟨trans_of Quiet h.toQuiet h'.toQuiet, le_trans h.pc h'.pc⟩

instance : IsPreorder Active (Ordinary host) where
  refl _ := ⟨UInt64.le_refl _, le_refl _, id, rfl, rfl, fun l h => ⟨l, h, .refl _ l⟩⟩
  trans _ _ _ h h' := by
    refine ⟨UInt64.le_trans h'.gas h.gas, le_trans h.stack h'.stack,
      fun hm => h'.memory (h.memory hm),
      h'.frame.trans h.frame, h'.evm.trans h.evm, ?_⟩
    intro l hl
    obtain ⟨l', hl', hmoved⟩ := h.ledger l hl
    obtain ⟨l'', hl'', hmoved'⟩ := h'.ledger l' hl'
    exact ⟨l'', hl'', hmoved.trans hmoved'⟩

theorem Quiet.isStatic (h : Quiet s s') : s'.frame.isStatic = s.frame.isStatic :=
  (congrArg CallFrame.isStatic h.frame :)

theorem Ordinary.depth (h : Ordinary host s s') : s'.frame.depth = s.frame.depth :=
  (congrArg CallFrame.depth h.frame :)

/-- Warm sets do not matter for the ledger. -/
theorem showsState_cool {evm evm' : Evm} {l : Ledger Hash} (h : ShowsState host evm l)
    (hcool : evm'.state.map cool = evm.state.map cool) : ShowsState host evm' l := by
  obtain ⟨ws, hws, hshows⟩ := h
  rw [hws, Option.map_some, Option.map_eq_some_iff] at hcool
  obtain ⟨ws', hws', heq⟩ := hcool
  exact ⟨ws', hws', hshows.congr (congrArg World.stateTrie heq :)⟩

theorem Quiet.ordinary (h : Quiet s s') : Ordinary host s s' where
  gas := h.gas
  stack := h.stack
  memory := h.memory
  frame := h.frame
  evm := (congrArg machinery h.evm :)
  ledger l hl := ⟨l, showsState_cool hl (congrArg Evm.state h.evm :), .refl _ l⟩

/-- A change of the frame that goes forward. -/
theorem forward_frame {frame : CallFrame} (hgas : frame.gas ≤ s.frame.gas)
    (hstack : s.frame.stack.capacity ≤ frame.stack.capacity) (hpc : s.frame.pc ≤ frame.pc)
    (hmemory : InBlock s.frame.memory → InBlock frame.memory)
    (hframe : setting frame = setting s.frame) : Forward s { s with frame := frame } :=
  ⟨⟨hgas, hstack, hmemory, hframe, rfl⟩, hpc⟩

/-- A memory that replaces the one of the frame. -/
theorem forward_memory {mem : EvmMemory} (h : InBlock s.frame.memory → InBlock mem) :
    Forward s { s with frame := { s.frame with memory := mem } } :=
  forward_frame (UInt64.le_refl _) (le_refl _) (le_refl _) h rfl

/-- A change of the state access. -/
theorem ordinary_state {f : World → World}
    (hf : ∀ ws l, s.evm.state = some ws → Shows host ws l →
      ∃ l', Shows host (f ws) l' ∧ l.Rearranged (2 ^ 256) l') :
    Ordinary host s { s with evm := { s.evm with state := s.evm.state.map f } } := by
  refine ⟨UInt64.le_refl _, le_refl _, id, rfl, rfl, ?_⟩
  intro l hl
  obtain ⟨ws, hws, hshows⟩ := hl
  obtain ⟨l', hshows', hmoved⟩ := hf ws l hws hshows
  exact ⟨l', ⟨f ws, by rw [hws]; rfl, hshows'⟩, hmoved⟩

/-- A change of the refund or of the logs. -/
theorem ordinary_evm {evm : Evm} (hstate : evm.state = s.evm.state)
    (hrest : machinery evm = machinery s.evm) : Ordinary host s { s with evm := evm } :=
  ⟨UInt64.le_refl _, le_refl _, id, rfl, hrest, fun l h => ⟨l, by
    obtain ⟨ws, hws, hshows⟩ := h
    exact ⟨ws, hstate.trans hws, hshows⟩, .refl _ l⟩⟩

/-- A program that reads the frame first; its effect may depend on what it has read. -/
theorem keeps_getFrame {α : Type} {R : Active → Active → Prop} {f : CallFrame → Op α}
    (h : ∀ s : Active, R s (after (f s.frame) s)) : Keeps R (getFrame >>= f) := ⟨h⟩

instance (priority := low) keeps_quiet {α : Type} (m : Op α) [h : Keeps Forward m] :
    Keeps Quiet m :=
  ⟨fun s => (h.keeps s).toQuiet⟩

instance (priority := low) keeps_ordinary {α : Type} (m : Op α) [h : Keeps Quiet m] :
    Keeps (Ordinary host) m :=
  ⟨fun s => (h.keeps s).ordinary⟩

instance (priority := low) every_quiet {α : Type} (m : Op α) [h : Every (Kept Forward) m] :
    Every (Kept Quiet) m :=
  ⟨inferInstance⟩

instance (priority := low) every_ordinary {α : Type} (m : Op α) [h : Every (Kept Quiet) m] :
    Every (Kept (Ordinary host)) m :=
  ⟨inferInstance⟩

section Preorders

variable {R : Active → Active → Prop} [IsPreorder Active R]

instance : Reads (Kept R) where
  get := keeps_get
  fail _ := keeps_throw _

instance : Strays (Kept R) := ⟨fun _ => keeps_throw _⟩

instance {α : Type} (o : Option α) : Every (Kept R) (defined .stack o) := by
  cases o with
  | none => exact ⟨keeps_throw _⟩
  | some a => exact inferInstanceAs (Every _ (pure a : Op α))

instance {α : Type} : Every (Kept R) (throw .diverges : Op α) := ⟨keeps_throw _⟩

instance (priority := low) stacks_of_setStack [∀ stack, Every (Kept R) (setStack stack)] :
    Stacks (Kept R) where
  pop := by
    unfold pop
    infer_instance
  push value := by
    unfold push
    infer_instance
  ensureSpace n := by
    have hspace : Every (Kept R) (ensureSpace n) := by
      unfold ensureSpace
      refine every_then fun frame => ?_
      split <;> infer_instance
    exact hspace.holds

omit [IsPreorder Active R] in
/-- A weaker relation. -/
theorem stacks_mono {R' : Active → Active → Prop} [IsPreorder Active R'] [hR : Stacks (Kept R)]
    (h : ∀ {s s'}, R s s' → R' s s') : Stacks (Kept R') where
  pop := ⟨fun s => h (hR.pop.keeps s)⟩
  push value := ⟨fun s => h ((hR.push value).keeps s)⟩
  ensureSpace n := ⟨fun s => h ((hR.ensureSpace n).keeps s)⟩

end Preorders

end Relations

section Primitives

instance (bitmap : Option Bytes) : Every (Kept Forward) (setJumpdestBitmap bitmap) :=
  ⟨keeps_modify fun _ => forward_frame (UInt64.le_refl _) (le_refl _) (le_refl _) id rfl⟩

/-- A stack of no less capacity. -/
theorem forward_stack {s : Active} {stack : EvmStack}
    (h : s.frame.stack.capacity ≤ stack.capacity) :
    Forward s { s with frame := { s.frame with stack := stack } } :=
  forward_frame (UInt64.le_refl _) h (le_refl _) id rfl

variable {stack stack' : EvmStack}

theorem evmStackPush_capacity {value : Word} (h : evmStackPush stack value = some stack') :
    stack'.capacity = stack.capacity := by
  unfold evmStackPush at h
  split at h
  · cases h
    rfl
  · cases h

theorem evmStackDup_capacity {depth : ℕ} (h : evmStackDup stack depth = some stack') :
    stack'.capacity = stack.capacity := by
  unfold evmStackDup at h
  split at h
  · cases h
  · exact evmStackPush_capacity h

theorem evmStackSwap_capacity {depth : ℕ} (h : evmStackSwap stack depth = some stack') :
    stack'.capacity = stack.capacity := by
  unfold evmStackSwap at h
  split at h
  · cases h
    rfl
  · cases h

/-- A new stack of the same capacity. -/
theorem keeps_setStack {access : Access} {f : EvmStack → Option EvmStack}
    (h : ∀ stack stack', f stack = some stack' → stack'.capacity = stack.capacity) :
    Keeps Forward (getFrame >>= fun frame =>
      defined access (f frame.stack) >>= fun stack => setStack stack) := by
  apply keeps_getFrame
  intro s
  cases hf : f s.frame.stack with
  | none => exact refl_of Forward s
  | some stack => exact forward_stack (le_of_eq (h _ _ hf).symm)

instance : Stacks (Kept Forward) where
  pop := by
    apply keeps_getFrame
    intro s
    rcases hstack : s.frame.stack with ⟨items, capacity, fits, bounded⟩
    cases items with
    | nil => exact refl_of Forward s
    | cons value items => exact forward_stack (le_of_eq (by rw [hstack]))
  push value := keeps_setStack fun _ _ => evmStackPush_capacity
  ensureSpace n := by
    apply keeps_getFrame
    intro s
    cases hspace : evmStackEnsureSpace s.frame.stack n with
    | none => exact refl_of Forward s
    | some stack => exact forward_stack (evmStackEnsureSpace_spec hspace).2.1

instance : Stacks (Kept (Ordinary host)) :=
  stacks_mono (R := Forward) fun h => h.ordinary

instance (depth : ℕ) : Keeps Forward (getFrame >>= fun frame =>
    defined .stack (evmStackDup frame.stack depth) >>= fun stack => setStack stack) :=
  keeps_setStack fun _ _ => evmStackDup_capacity

instance (depth : ℕ) : Keeps Forward (getFrame >>= fun frame =>
    defined .stack (evmStackSwap frame.stack depth) >>= fun stack => setStack stack) :=
  keeps_setStack fun _ _ => evmStackSwap_capacity

instance (cost : UInt64) : Every (Kept Forward) (charge cost) := by
  refine ⟨⟨fun s => ?_⟩⟩
  by_cases henough : cost ≤ s.frame.gas
  · rw [after_of_ok (charge_ok henough)]
    exact forward_frame (UInt64.sub_le henough) (le_refl _) (le_refl _) id rfl
  · rw [after_of_error (charge_error henough)]
    exact refl_of Forward s

instance {α : Type} (n : ℕ) (rest : CallFrame → Op α) [h : ∀ frame, Keeps Forward (rest frame)] :
    Keeps Forward (getFrame >>= fun frame => setPc (frame.pc + n) >>= fun _ => rest frame) := by
  apply keeps_getFrame
  intro s
  have hpc : Forward s { s with frame := { s.frame with pc := s.frame.pc + n } } :=
    forward_frame (UInt64.le_refl _) (le_refl _) (Nat.le_add_right _ n) id rfl
  exact trans_of Forward hpc ((h s.frame).keeps _)

/-- An operation of the state access that changes the warm sets alone. -/
theorem keeps_updateState {f : World → World} (hf : ∀ ws, cool (f ws) = cool ws) :
    Keeps Forward (updateState f) := by
  apply keeps_modify
  intro s
  refine ⟨⟨UInt64.le_refl _, le_refl _, id, rfl, ?_⟩, le_refl _⟩
  have hstate : (s.evm.state.map f).map cool = s.evm.state.map cool := by
    rw [Option.map_map]
    exact congrArg (fun g => s.evm.state.map g) (funext hf)
  unfold coolEvm
  dsimp only
  rw [hstate]

theorem cool_warmAddress (ws : World) (addr : Address) :
    cool (wsWarmAddress host ws addr).2 = cool ws := by
  unfold wsWarmAddress
  split <;> rfl

theorem cool_warmSlot (ws : World) (addr : Address) (slot : Word) :
    cool (wsWarmSlot host ws addr slot).2 = cool ws := by
  unfold wsWarmSlot
  split <;> rfl

instance (addr : Address) :
    Every (Kept Forward) (updateState fun ws => (wsWarmAddress host ws addr).2) :=
  ⟨keeps_updateState fun ws => cool_warmAddress ws addr⟩

instance (addr : Address) (slot : Word) :
    Every (Kept Forward) (updateState fun ws => (wsWarmSlot host ws addr slot).2) :=
  ⟨keeps_updateState fun ws => cool_warmSlot ws addr slot⟩

theorem InBlock.expand [harena : OnArena host] {mem mem' : EvmMemory} {offset size cost : UInt64}
    (hmem : InBlock mem) (h : evmMemoryExpand host.alloc mem offset size = .expanded cost mem') :
    InBlock mem' := by
  rcases evmMemoryExpand_capacity h with hsame | hgranted
  · unfold InBlock
    rwa [hsame]
  · exact harena.size_le hgranted

instance [OnArena host] (offset size : UInt64) :
    Every (Kept Forward) (expandMemory host offset size) := by
  refine ⟨keeps_getFrame fun s => ?_⟩
  cases hexpand : evmMemoryExpand host.alloc s.frame.memory offset size with
  | expanded cost mem => exact forward_memory fun hmem => hmem.expand hexpand
  | refused => exact refl_of Forward s
  | diverges => exact refl_of Forward s

instance (offset : UInt64) (bytes : Bytes) : Every (Kept Forward) (storeMemory offset bytes) := by
  refine ⟨keeps_getFrame fun s => ?_⟩
  cases hstore : evmMemoryStore s.frame.memory offset bytes with
  | none => exact refl_of Forward s
  | some mem =>
    apply forward_memory
    intro hmem
    unfold InBlock
    rwa [evmMemoryStore_capacity hstore]

instance (pc : ℕ) : Every (Kept Quiet) (setPc pc) :=
  ⟨keeps_modify fun _ => ⟨UInt64.le_refl _, le_refl _, id, rfl, rfl⟩⟩

instance (refund : UInt64) : Every (Kept (Ordinary host)) (setGasRefund refund) :=
  ⟨keeps_modify fun _ => ordinary_evm rfl rfl⟩

instance (logs : List EvmLog) (capacity : ℕ) :
    Every (Kept (Ordinary host)) (setLogs logs capacity) :=
  ⟨keeps_modify fun _ => ordinary_evm rfl rfl⟩

instance (addr : Address) (slot value : Word) :
    Every (Kept (Ordinary host)) (updateState fun ws => wsSetStorage host ws addr slot value) :=
  ⟨keeps_modify fun _ =>
    ordinary_state fun _ l _ h => ⟨l, h.setStorage addr slot value, .refl _ l⟩⟩

end Primitives

section Handlers

set_option synthInstance.maxSize 2048

variable [OnArena host]

def isCallOp : Opcode → Bool
  | .call | .callcode | .delegatecall | .staticcall => true
  | _ => false

def isJumpOp : Opcode → Bool
  | .jump | .jumpi => true
  | _ => false

def isWriteOp : Opcode → Bool
  | .sstore | .log _ => true
  | _ => false

variable {opcode : Opcode} {cost : Opcode → UInt64} {schedule : GasSchedule}

theorem handler_forward (hcall : isCallOp opcode = false) (hjump : isJumpOp opcode = false)
    (hwrite : isWriteOp opcode = false) : Keeps Forward (handler host cost schedule opcode) := by
  cases hplain : isPlainOp opcode with
  | true => exact (handler_plain (P := Kept Forward) host cost schedule hplain).holds
  | false =>
    cases opcode <;> simp only [isPlainOp, Bool.true_eq_false] at hplain
    case call | callcode | delegatecall | staticcall => cases hcall
    case jump | jumpi => cases hjump
    case sstore | log => cases hwrite
    all_goals
      simp only [handler, next, opPushN, opDup, opSwap, opMload, opMstore, opMstore8, opKeccak256,
        opReturndatacopy, opExtcodecopy]
      infer_instance

theorem handler_quiet (hcall : isCallOp opcode = false) (hwrite : isWriteOp opcode = false) :
    Keeps Quiet (handler host cost schedule opcode) := by
  cases hjump : isJumpOp opcode with
  | false =>
    have hforward : Keeps Forward (handler host cost schedule opcode) :=
      handler_forward hcall hjump hwrite
    infer_instance
  | true =>
    cases opcode <;> simp only [isJumpOp, Bool.false_eq_true] at hjump <;>
      simp only [handler, opJump, opJumpi] <;> infer_instance

theorem handler_ordinary (hcall : isCallOp opcode = false) :
    Keeps (Ordinary host) (handler host cost schedule opcode) := by
  cases hwrite : isWriteOp opcode with
  | false =>
    have hquiet : Keeps Quiet (handler host cost schedule opcode) :=
      handler_quiet hcall hwrite
    infer_instance
  | true =>
    cases opcode <;> simp only [isWriteOp, Bool.false_eq_true] at hwrite <;>
      simp only [handler] <;> infer_instance

end Handlers

end Div0.OpEffects
