import Div0.FramePools
import Div0.Reuse

/-!
The operand stack stays within its capacity. How many words are on the stack, and for how
many there is room, is followed through the handlers: `Shifts` says what a program needs
and what it leaves, and instance search adds it up along the program. Every opcode but DUP
makes room before it pushes, or has taken a word off before. DUP looks at the maximal depth
only, so it is safe exactly where the stack happens to have room. A caller has taken its
operands off, so there is room for the result of the call.
-/

namespace Div0.StackSafety

open BigEndian Effects EvmContext Memory Node Uint256 Uint256Ops WorldState Frame Opcodes FrameOps
open StateOps CallOps Interpreter OpPrograms OpEffects CallEffects RunEffects GasConservation
open TwoRuns Capacities Reuse

variable {host : Host} {s s' : Active}

section Programs

variable {α β : Type} {a f a' f' a'' f'' : ℕ}

def Holds (a f : ℕ) (s : Active) : Prop :=
  a ≤ s.frame.stack.items.length ∧ s.frame.stack.items.length + f ≤ s.frame.stack.capacity

theorem Holds.congr (h : Holds a f s) (hstack : s'.frame.stack = s.frame.stack) : Holds a f s' := by
  unfold Holds
  rwa [hstack]

theorem holds_zero (s : Active) : Holds 0 0 s := ⟨Nat.zero_le _, s.frame.stack.fits⟩

/-- The program does not touch the stack. -/
class Aside (m : Op α) : Prop where
  avoids : ∀ s, Avoids StackFault (m s)
  stack : ∀ {s s' x}, m s = .ok x s' → s'.frame.stack = s.frame.stack

/-- With `a` words and room for `f` the program stays within the stack, and where it returns it
leaves `a'` words and room for `f'`. -/
class Shifts (a f : ℕ) (m : Op α) (a' f' : outParam ℕ) : Prop where
  avoids : ∀ {s}, Holds a f s → Avoids StackFault (m s)
  holds : ∀ {s s' x}, Holds a f s → m s = .ok x s' → Holds a' f' s'

/-- With `a` words and room for `f` the program stays within the stack. -/
class Within (a f : ℕ) (m : Op α) : Prop where
  avoids : ∀ {s}, Holds a f s → Avoids StackFault (m s)

theorem avoids_bind {m : Op α} {k : α → Op β} {s : Active} (hm : Avoids StackFault (m s))
    (hk : ∀ x s', m s = .ok x s' → Avoids StackFault (k x s')) :
    Avoids StackFault ((m >>= k) s) := by
  rw [bind_apply]
  cases hrun : m s with
  | ok x s' => exact hk x s' hrun
  | error e s' =>
    rw [hrun] at hm
    exact hm

instance aside_pure (x : α) : Aside (pure x : Op α) where
  avoids _ := trivial
  stack h := by cases h; rfl

theorem aside_throw {e : Halt} (he : e ≠ .undefined .stack) : Aside (throw e : Op α) where
  avoids _ := he
  stack h := by cases h

instance aside_get : Aside (get : Op Active) where
  avoids _ := trivial
  stack h := by cases h; rfl

theorem aside_modify {f : Active → Active} (h : ∀ s, (f s).frame.stack = s.frame.stack) :
    Aside (modify f : Op Unit) where
  avoids _ := trivial
  stack hrun := by cases hrun; exact h _

instance aside_bind (m : Op α) (k : α → Op β) [hm : Aside m] [hk : ∀ x, Aside (k x)] :
    Aside (m >>= k) where
  avoids s := avoids_bind (hm.avoids s) fun x s' _ => (hk x).avoids s'
  stack h := by
    obtain ⟨x, s', hfirst, hrest⟩ := bind_ok h
    exact ((hk x).stack hrest).trans (hm.stack hfirst)

instance aside_ite (c : Prop) [Decidable c] (m n : Op α) [hm : Aside m] [hn : Aside n] :
    Aside (if c then m else n) := by
  split
  · exact hm
  · exact hn

instance shifts_of_aside (m : Op α) [h : Aside m] : Shifts a f m a f where
  avoids {s} _ := h.avoids s
  holds hs hrun := hs.congr (h.stack hrun)

instance shifts_bind (m : Op α) (k : α → Op β) [hm : Shifts a f m a' f']
    [hk : ∀ x, Shifts a' f' (k x) a'' f''] : Shifts a f (m >>= k) a'' f'' where
  avoids hs := avoids_bind (hm.avoids hs) fun x _ hrun => (hk x).avoids (hm.holds hs hrun)
  holds hs h := by
    obtain ⟨x, s', hfirst, hrest⟩ := bind_ok h
    exact (hk x).holds (hm.holds hs hfirst) hrest

instance shifts_ite (c : Prop) [Decidable c] (m n : Op α) [hm : Shifts a f m a' f']
    [hn : Shifts a f n a' f'] : Shifts a f (if c then m else n) a' f' := by
  split
  · exact hm
  · exact hn

instance within_of_shifts (m : Op α) [h : Shifts a f m a' f'] : Within a f m :=
  ⟨fun hs => h.avoids hs⟩

instance within_bind (m : Op α) (k : α → Op β) [hm : Shifts a f m a' f']
    [hk : ∀ x, Within a' f' (k x)] : Within a f (m >>= k) :=
  ⟨fun hs => avoids_bind (hm.avoids hs) fun x _ hrun => (hk x).avoids (hm.holds hs hrun)⟩

instance (priority := low) within_bind_aside (m : Op α) (k : α → Op β) [hm : Within a f m]
    [hk : ∀ x, Aside (k x)] : Within a f (m >>= k) :=
  ⟨fun hs => avoids_bind (hm.avoids hs) fun x s' _ => (hk x).avoids s'⟩

instance within_ite (c : Prop) [Decidable c] (m n : Op α) [hm : Within a f m] [hn : Within a f n] :
    Within a f (if c then m else n) := by
  split
  · exact hm
  · exact hn

end Programs

section Primitives

variable {α : Type} {a f : ℕ}

abbrev AsideOf : ∀ ⦃α : Type⦄, Op α → Prop := fun _ m => Aside m

instance (priority := low) aside_of_every (m : Op α) [h : Every AsideOf m] : Aside m := h.holds

instance : Reads AsideOf where
  pure x := aside_pure x
  bind {_ _ m k} hm hk := by
    have hfirst : Aside m := hm
    have hrest : ∀ x, Aside (k x) := hk
    infer_instance
  get := aside_get
  fail _ := aside_throw (by simp)

instance : Strays AsideOf := ⟨fun haccess => aside_throw (by simpa using haccess)⟩

instance : Every AsideOf (throw .diverges : Op α) := ⟨aside_throw (by simp)⟩

instance (mem : EvmMemory) : Every AsideOf (setMemory mem) := ⟨aside_modify fun _ => rfl⟩

instance (pc : ℕ) : Every AsideOf (setPc pc) := ⟨aside_modify fun _ => rfl⟩

instance (bitmap : Option Bytes) : Every AsideOf (setJumpdestBitmap bitmap) :=
  ⟨aside_modify fun _ => rfl⟩

instance (g : World → World) : Every AsideOf (updateState g) := ⟨aside_modify fun _ => rfl⟩

instance (refund : UInt64) : Every AsideOf (setGasRefund refund) := ⟨aside_modify fun _ => rfl⟩

instance (logs : List EvmLog) (capacity : ℕ) : Every AsideOf (setLogs logs capacity) :=
  ⟨aside_modify fun _ => rfl⟩

instance (child : CallFrame) (r : CallRegions) : Every AsideOf (switchTo child r) :=
  ⟨aside_modify fun _ => rfl⟩

instance (cost : UInt64) : Every AsideOf (charge cost) := by
  have hpay : Every AsideOf
      (modify fun s => { s with frame := { s.frame with gas := s.frame.gas - cost } } : Op Unit) :=
    ⟨aside_modify fun _ => rfl⟩
  unfold charge
  infer_instance

instance (n : ℕ) : Shifts a f (hasItems n) n f where
  avoids {s} _ := by
    have haside : Aside (require (evmStackHasItems s.frame.stack n) .stackUnderflow) := inferInstance
    exact haside.avoids s
  holds hs h := by
    obtain ⟨hitems, rfl⟩ := hasItems_inv h
    exact ⟨of_decide_eq_true hitems, hs.2⟩

instance (n : ℕ) : Shifts a f (ensureSpace n) a n where
  avoids {s} _ := by
    change Avoids StackFault ((match evmStackEnsureSpace s.frame.stack n with
      | some stack => setStack stack
      | none => fail .stackOverflow : Op Unit) s)
    cases evmStackEnsureSpace s.frame.stack n with
    | none =>
      have haside : Aside (fail .stackOverflow : Op Unit) := inferInstance
      exact haside.avoids s
    | some stack => trivial
  holds {s s' _} hs h := by
    change (match evmStackEnsureSpace s.frame.stack n with
      | some stack => setStack stack
      | none => fail .stackOverflow : Op Unit) s = _ at h
    cases hspace : evmStackEnsureSpace s.frame.stack n with
    | none =>
      rw [hspace] at h
      cases h
    | some stack =>
      rw [hspace] at h
      cases h
      obtain ⟨hitems, -, hroom⟩ := evmStackEnsureSpace_spec hspace
      change a ≤ stack.items.length ∧ stack.items.length + n ≤ stack.capacity
      rw [hitems]
      exact ⟨hs.1, hroom⟩

/-- A value on a stack with room for it. -/
theorem evmStackPush_holds {s : Active} (h : Holds a (f + 1) s) (value : Word) :
    ∃ stack, evmStackPush s.frame.stack value = some stack ∧
      Holds (a + 1) f { s with frame := { s.frame with stack := stack } } := by
  have hroom : s.frame.stack.items.length < s.frame.stack.capacity :=
    lt_of_lt_of_le (Nat.lt_add_of_pos_right (Nat.succ_pos f)) h.2
  refine ⟨_, dif_pos hroom, Nat.succ_le_succ h.1, ?_⟩
  change (value :: s.frame.stack.items).length + f ≤ s.frame.stack.capacity
  have hle := h.2
  rw [List.length_cons]
  omega

instance (value : Word) : Shifts a (f + 1) (push value) (a + 1) f where
  avoids {s} hs := by
    obtain ⟨stack, hpush, -⟩ := evmStackPush_holds hs value
    change Avoids StackFault ((defined .stack (evmStackPush s.frame.stack value) >>= setStack) s)
    rw [hpush]
    trivial
  holds {s s' _} hs h := by
    obtain ⟨stack, hpush, hholds⟩ := evmStackPush_holds hs value
    change (defined .stack (evmStackPush s.frame.stack value) >>= setStack) s = _ at h
    rw [hpush] at h
    cases h
    exact hholds

instance : Shifts (a + 1) f pop a (f + 1) where
  avoids {s} hs := by
    obtain ⟨evm, pc, gas, ⟨items, capacity, fits, bounded⟩, _⟩ := s
    cases items with
    | nil => exact absurd hs.1 (Nat.not_succ_le_zero a)
    | cons value items => trivial
  holds {s s' _} hs h := by
    obtain ⟨evm, pc, gas, ⟨items, capacity, fits, bounded⟩, _⟩ := s
    cases items with
    | nil => cases h
    | cons _ items =>
      cases h
      obtain ⟨hitems, hroom⟩ := hs
      change a ≤ items.length ∧ items.length + (f + 1) ≤ capacity
      change a + 1 ≤ (_ :: items).length at hitems
      change (_ :: items).length + f ≤ capacity at hroom
      rw [List.length_cons] at hitems hroom
      omega

theorem shifts_popAll (n : ℕ) : Shifts n f (popAll n) 0 (f + n) := by
  induction n generalizing f with
  | zero => exact inferInstanceAs (Shifts 0 f (pure [] : Op (List Word)) 0 f)
  | succ n ih =>
    have hrest : Shifts n (f + 1) (popAll n) 0 (f + (n + 1)) := by
      rw [Nat.add_comm n 1, ← Nat.add_assoc]
      exact ih
    unfold popAll
    infer_instance

instance (n : ℕ) : Shifts n f (popAll n) 0 (f + n) := shifts_popAll n

/-- What `op_exp` does with the exponent it has looked at. -/
theorem chargeExp_peek {s : Active} (h : Holds (a + 2) f s) :
    ∃ exponent, chargeExp s = (do
      let byteLength := UInt64.ofNat (uint256ByteLength exponent)
      require (byteLength ≤ (uint64Max - gasExpBase) / gasExpByte) .outOfGas
      charge (gasExpBase + gasExpByte * byteLength) : Op Unit) s := by
  have hlt : 1 < s.frame.stack.items.length := lt_of_lt_of_le (by omega) h.1
  have hpeek : evmStackPeek s.frame.stack 1 = some s.frame.stack.items[1] :=
    List.getElem?_eq_getElem hlt
  refine ⟨s.frame.stack.items[1], ?_⟩
  change (defined .stack (evmStackPeek s.frame.stack 1) >>= fun exponent => (do
    let byteLength := UInt64.ofNat (uint256ByteLength exponent)
    require (byteLength ≤ (uint64Max - gasExpBase) / gasExpByte) .outOfGas
    charge (gasExpBase + gasExpByte * byteLength) : Op Unit)) s = _
  rw [hpeek]
  rfl

instance : Shifts (a + 2) f chargeExp (a + 2) f where
  avoids {s} hs := by
    obtain ⟨exponent, heq⟩ := chargeExp_peek hs
    rw [heq]
    exact (inferInstance : Aside _).avoids s
  holds {s s' _} hs h := by
    obtain ⟨exponent, heq⟩ := chargeExp_peek hs
    rw [heq] at h
    exact hs.congr ((inferInstance : Aside _).stack h)

instance (depth : ℕ) : Within (depth + 1) f (getFrame >>= fun frame =>
    defined .stack (evmStackSwap frame.stack depth) >>= fun stack => setStack stack) where
  avoids {s} hs := by
    have hlt : depth < s.frame.stack.items.length := hs.1
    have htop : s.frame.stack.items[0]? = some s.frame.stack.items[0] :=
      List.getElem?_eq_getElem (lt_of_le_of_lt (Nat.zero_le depth) hlt)
    have hother : s.frame.stack.items[depth]? = some s.frame.stack.items[depth] :=
      List.getElem?_eq_getElem hlt
    change Avoids StackFault ((defined .stack (evmStackSwap s.frame.stack depth) >>= setStack) s)
    simp only [evmStackSwap, htop, hother]
    trivial

end Primitives

section Handlers

set_option synthInstance.maxSize 1024

instance (g : Word → Word → Word) (cost : UInt64) : Within 0 0 (binaryOp g cost) := by
  unfold binaryOp
  infer_instance

instance (g : Word → Word) (cost : UInt64) : Within 0 0 (unaryOp g cost) := by
  unfold unaryOp
  infer_instance

instance (g : Word → Word → Word → Word) (cost : UInt64) : Within 0 0 (ternaryOp g cost) := by
  unfold ternaryOp
  infer_instance

instance (value : Active → Word) (cost : UInt64) : Within 0 0 (pushOp value cost) := by
  unfold pushOp
  infer_instance

instance (g : Active → Word → Word) (cost : UInt64) : Within 0 0 (lookupOp g cost) := by
  unfold lookupOp
  infer_instance

instance (g : World → Address → Word) : Within 0 0 (accountOp host g) := by
  unfold accountOp
  infer_instance

instance (source : CallFrame → Bytes) (cost : UInt64) : Within 0 0 (copyOp host source cost) := by
  unfold copyOp
  infer_instance

instance : Within 0 0 (returnRange host) := by
  unfold returnRange
  infer_instance

end Handlers

section Calls

variable {f : ℕ}

instance : Shifts 7 f popCallArgs 0 (f + 7) := by
  unfold popCallArgs
  infer_instance

instance : Shifts 6 f popCallArgsNoValue 0 (f + 6) := by
  unfold popCallArgsNoValue
  infer_instance

instance (items : ℕ) (popArgs : Op CallStackArgs) [∀ f, Shifts items f popArgs 0 (f + items)]
    (chargesNewAccount : Bool) (ws : World) :
    Shifts 0 f (prepare host items popArgs chargesNewAccount ws) 0 (f + items) := by
  have hcases : ∀ args : CallStackArgs, Aside
      (match validateMemoryArgs args with
      | none => fail .outOfGas
      | some regions => do
        return some (← setUpCall host chargesNewAccount ws args regions) :
          Op (Option CallSetup)) := by
    intro args
    cases validateMemoryArgs args <;> infer_instance
  unfold prepare
  infer_instance

instance (ws : World) : Shifts 0 f (prepareCall host ws) 0 (f + 7) := by
  unfold prepareCall
  infer_instance

instance (ws : World) : Shifts 0 f (prepareCallcode host ws) 0 (f + 7) := by
  unfold prepareCallcode
  infer_instance

instance (ws : World) : Shifts 0 f (prepareStaticcall host ws) 0 (f + 6) := by
  unfold prepareStaticcall
  infer_instance

instance (ws : World) : Shifts 0 f (prepareDelegatecall host ws) 0 (f + 6) := by
  unfold prepareDelegatecall
  infer_instance

instance : Within 0 (f + 1) giveUp := by
  unfold giveUp
  infer_instance

instance (setup : CallSetup) (params : ChildFrameParams) :
    Within 0 (f + 1) (enterChild setup params) := by
  unfold enterChild
  infer_instance

instance (transfers : Bool) (params : ParamsOf) (setup : CallSetup) :
    Within 0 (f + 1) (startCall host transfers params setup) := by
  unfold startCall
  infer_instance

instance {k : ℕ} (prep : World → Op (Option CallSetup)) [∀ ws, Shifts 0 0 (prep ws) 0 (k + 1)]
    (transfers : Bool) (params : ParamsOf) : Within 0 0 (callWith host prep transfers params) := by
  have hcases : ∀ prepared : Option CallSetup, Within 0 (k + 1)
      (match prepared with
      | none => giveUp
      | some setup => startCall host transfers params setup : Op Bool) := by
    intro prepared
    cases prepared <;> infer_instance
  unfold callWith
  infer_instance

theorem enterChild_stack {setup : CallSetup} {params : ChildFrameParams}
    (h : enterChild setup params s = .ok true s') : s'.frame.stack = s.frame.stack := by
  unfold enterChild at h
  obtain ⟨ws, -, h⟩ := requireState_ok h
  obtain ⟨_, _, ⟨⟩, h⟩ := bind_ok h
  split at h
  · split at h
    · exact (inferInstance : Aside _).stack h
    · cases h
  · obtain ⟨_, _, _, ⟨⟩⟩ := bind_ok h

/-- A caller that is left for its child has room for the result. -/
theorem callWith_room {k : ℕ} {prep : World → Op (Option CallSetup)}
    [hprep : ∀ ws, Shifts 0 0 (prep ws) 0 (k + 1)] {transfers : Bool} {params : ParamsOf}
    (h : callWith host prep transfers params s = .ok true s') : Holds 0 (k + 1) s' := by
  obtain ⟨ws, setup, s₁, s₂, hprepared, hsent, h⟩ := callWith_true h
  have hroom : Holds 0 (k + 1) s₁ := (hprep ws).holds (holds_zero s) hprepared
  have hstack := (inferInstance : Aside (sendValue host transfers setup)).stack hsent
  exact (hroom.congr hstack).congr (enterChild_stack h)

end Calls

section Dispatch

set_option synthInstance.maxSize 1024

variable {cost : Opcode → UInt64} {schedule : GasSchedule}

instance {a f : ℕ} (op : Op Unit) [Within a f op] : Within a f (next op) := by
  unfold next
  infer_instance

instance {a f : ℕ} (op : Op Bool) [Within a f op] : Within a f (nextCall op) := by
  unfold nextCall
  infer_instance

instance (offset : UInt64) (bytes : Bytes) : Aside (storeMemory offset bytes) :=
  aside_of_every _

variable (host cost schedule) in
theorem handler_within {opcode : Opcode} (hdup : ∀ n, opcode ≠ .dup n) :
    Within 0 0 (handler host cost schedule opcode) := by
  cases opcode
  case dup n => exact absurd rfl (hdup n)
  case log n => simp only [handler, opLogN, Nat.add_comm 2 n]; infer_instance
  all_goals
    simp only [handler, opAdd, opExp, opPush0, opPushN, opPop, opSwap, opMload, opMstore, opMstore8,
      opKeccak256, opReturndatacopy, opJump, opJumpi, opSload, opSstore, opExtcodecopy,
      opSelfbalance]
    infer_instance

/-- A caller that is left for its child has room for the result. -/
theorem handler_room {opcode : Opcode}
    (h : handler host cost schedule opcode s = .ok (some .call) s') : Holds 0 1 s' := by
  have hone : ∀ {k : ℕ}, Holds 0 (k + 1) s' → Holds 0 1 s' := fun {k} hs =>
    ⟨hs.1, le_trans (by omega) hs.2⟩
  have hcall := isCallOp_of_handler h
  cases opcode <;> simp only [isCallOp, Bool.false_eq_true] at hcall
  case call | callcode | delegatecall | staticcall => exact hone (callWith_room (nextCall_ok h))

theorem dispatch_room (h : dispatch host s = .ok (some .call) s') : Holds 0 1 s' := by
  obtain ⟨opcode, -, h⟩ := dispatch_inv h (by simp)
  exact handler_room h

end Dispatch

section Dup

def DupFits (s : Active) (n : ℕ) (cost : UInt64) : Prop :=
  n ≤ s.frame.stack.items.length → s.frame.stack.items.length < stackMaxDepth →
    cost ≤ s.frame.gas → s.frame.stack.items.length < s.frame.stack.capacity

theorem hasItems_eq (n : ℕ) (s : Active) : hasItems n s =
    if n ≤ s.frame.stack.items.length then .ok () s else .error (.status .stackUnderflow) s := by
  change require (decide (n ≤ s.frame.stack.items.length)) .stackUnderflow s = _
  by_cases hitems : n ≤ s.frame.stack.items.length
  · rw [if_pos hitems, decide_eq_true hitems]
    rfl
  · rw [if_neg hitems, decide_eq_false hitems]
    rfl

/-- DUP stays within the stack exactly if there is room for the copy. -/
theorem opDup_avoids_iff (n : ℕ) (cost : UInt64) (s : Active) :
    Avoids StackFault (opDup (n + 1) cost s) ↔ DupFits s (n + 1) cost := by
  have hmax : stackMaxDepth = 1024 := rfl
  unfold opDup DupFits
  rw [bind_apply, hasItems_eq]
  by_cases hitems : n + 1 ≤ s.frame.stack.items.length
  swap
  · rw [if_neg hitems]
    exact ⟨fun _ h => absurd h hitems, fun _ h => by cases h⟩
  rw [if_pos hitems]
  change Avoids StackFault ((require (evmStackHasSpace s.frame.stack 1) .stackOverflow >>= fun _ =>
    charge cost >>= fun _ => getFrame >>= fun frame =>
      defined .stack (evmStackDup frame.stack (n + 1)) >>= setStack) s) ↔ _
  by_cases hspace : s.frame.stack.items.length + 1 ≤ stackMaxDepth
  swap
  · have hfull : evmStackHasSpace s.frame.stack 1 = false := decide_eq_false hspace
    rw [hfull]
    exact ⟨fun _ _ h => absurd h hspace, fun _ h => by cases h⟩
  have hfits : evmStackHasSpace s.frame.stack 1 = true := decide_eq_true hspace
  have hpassed : require (evmStackHasSpace s.frame.stack 1) .stackOverflow s = .ok () s := by
    rw [hfits]
    rfl
  rw [bind_of_ok hpassed]
  by_cases hgas : cost ≤ s.frame.gas
  swap
  · rw [bind_apply, charge_error hgas]
    exact ⟨fun _ _ _ h => absurd h hgas, fun _ h => by cases h⟩
  rw [bind_of_ok (charge_ok hgas)]
  change Avoids StackFault ((defined .stack (evmStackDup s.frame.stack (n + 1)) >>= setStack) _) ↔ _
  have hvalue : s.frame.stack.items[n + 1 - 1]? = some s.frame.stack.items[n] :=
    List.getElem?_eq_getElem hitems
  by_cases hroom : s.frame.stack.items.length < s.frame.stack.capacity
  · simp only [evmStackDup, hvalue, evmStackPush, dif_pos hroom]
    exact ⟨fun _ _ _ _ => hroom, fun _ => trivial⟩
  · simp only [evmStackDup, hvalue, evmStackPush, dif_neg hroom]
    exact ⟨fun h => absurd rfl h, fun h => absurd (h hitems hspace hgas) hroom⟩

/-- The opcodes DUP1 to DUP16. -/
theorem dispatchTable_dup {code : UInt8} {n : ℕ} (h : dispatchTable code = .dup n) : 0 < n := by
  have hall : ∀ c : Fin 256, (match dispatchTable (UInt8.ofFin c) with
      | .dup n => decide (0 < n)
      | _ => true) = true := by
    decide +kernel
  have hcode := hall code.toFin
  rw [UInt8.ofFin_toFin, h] at hcode
  exact of_decide_eq_true hcode

theorem next_avoids_iff (op : Op Unit) (s : Active) :
    Avoids StackFault (next op s) ↔ Avoids StackFault (op s) := by
  rw [next, bind_apply]
  cases op s <;> rfl

/-- A dispatch stays within the stack exactly if it is no DUP without room. -/
theorem dispatch_avoids_iff (s : Active) : Avoids StackFault (dispatch host s) ↔
    ∀ n, nextOpcode s.frame = some (.dup n) → DupFits s n (gasTable s.evm.fork (.dup n)) := by
  rw [dispatch_eq]
  cases hop : nextOpcode s.frame with
  | none => exact ⟨fun _ _ h => (Option.some_ne_none _ h.symm).elim, fun _ => trivial⟩
  | some opcode =>
    by_cases hdup : ∃ n, opcode = .dup n
    swap
    · have hwithin := handler_within host (gasTable s.evm.fork) (gasSchedule s.evm.fork)
        fun n h => hdup ⟨n, h⟩
      exact ⟨fun _ n h => absurd ⟨n, Option.some.inj h⟩ hdup, fun _ => hwithin.avoids (holds_zero _)⟩
    obtain ⟨n, rfl⟩ := hdup
    obtain ⟨code, -, hcode⟩ := Option.map_eq_some_iff.mp hop
    obtain ⟨k, rfl⟩ := Nat.exists_eq_succ_of_ne_zero (Nat.pos_iff_ne_zero.mp (dispatchTable_dup hcode))
    have hnext : Avoids StackFault (handler host (gasTable s.evm.fork) (gasSchedule s.evm.fork)
        (.dup (k + 1)) (fetched s)) ↔
        DupFits s (k + 1) (gasTable s.evm.fork (.dup (k + 1))) := by
      rw [handler, next_avoids_iff, opDup_avoids_iff]
      rfl
    refine hnext.trans ⟨fun h n hn => ?_, fun h => h _ rfl⟩
    cases hn
    exact h

end Dup

section Runs

variable {m m' : Machine}

/-- Callers have room for a result, and every stack has a capacity it can grow from. -/
structure Roomy (m : Machine) : Prop where
  parents : ∀ saved ∈ m.parents, saved.stack.items.length < saved.stack.capacity
  capacity : ∀ frame ∈ frames m, 0 < frame.stack.capacity

theorem roomy_start (evm : Evm) (env : ExecutionEnv) : Roomy (start evm env) := by
  refine ⟨fun saved h => absurd h List.not_mem_nil, fun frame h => ?_⟩
  obtain rfl := List.mem_singleton.mp h
  exact Nat.succ_pos 31

theorem Roomy.step [OnArena host] (h : Roomy m) (hstep : step host m = .running m') : Roomy m' := by
  obtain ⟨hparents, hcapacity⟩ := h
  constructor
  · cases moves_of_step hstep with
    | goesOn hdispatch => exact hparents
    | enters hdispatch hroom hpending =>
      exact List.forall_mem_cons.mpr ⟨(dispatch_room hdispatch).2, hparents⟩
    | delivers hlast hcall hs hdepth hsaved hcopied hdelivered =>
      rw [hsaved] at hparents
      exact fun other hother => hparents other (List.mem_cons_of_mem _ hother)
  · refine frames_step hcapacity hstep
      (fun hdispatch hactive => lt_of_lt_of_le hactive (ordinary_of_none hdispatch).stack)
      (fun hdispatch hstarts _ => ⟨lt_of_le_of_lt (Nat.zero_le _) (dispatch_room hdispatch).2, ?_⟩)
      (fun hdelivered hsaved => ?_)
    · rw [hstarts.stack]
      exact Nat.succ_pos 31
    · rw [evmStackPush_capacity hdelivered.stack]
      exact hsaved

def unbounded (stack : EvmStack) : EvmStack :=
  ⟨stack.items, stackMaxDepth, le_trans stack.fits stack.bounded, le_refl _⟩

def unboundedMachine (m : Machine) : Machine :=
  { m with
    active := { m.active with
      frame := { m.active.frame with stack := unbounded m.active.frame.stack } }
    parents := m.parents.map fun frame => { frame with stack := unbounded frame.stack } }

theorem Roomy.twin (h : Roomy m) (hevm : TwinEvms m.active.evm m.active.evm) :
    TwinMachines m (unboundedMachine m) := by
  have hframe : ∀ frame ∈ frames m, TwinFrames frame { frame with stack := unbounded frame.stack } :=
    fun frame hframe => .twin (.inr ⟨rfl, h.capacity frame hframe, rfl⟩)
  refine ⟨⟨hevm, hframe _ List.mem_cons_self⟩, ?_, rfl⟩
  change List.Forall₂ TwinFrames m.parents (m.parents.map _)
  rw [List.forall₂_map_right_iff, List.forall₂_same]
  exact fun frame hparent => hframe frame (List.mem_cons_of_mem _ hparent)

/-- The machine is a twin of itself: its buffers are as growing leaves them. -/
theorem twin_self_of_reaches [OnArena host] {m₀ : Machine} (h₀ : TwinMachines m₀ m₀)
    (hreach : Reaches (step host) m₀ m) : TwinMachines m m := by
  refine reaches_invariant (I := fun m => TwinMachines m m) (fun m m' hm hstep => ?_) h₀ hreach
  have halong : Along TwinMachines TwinOutcomes (step host m) (step host m) :=
    step_along hm (by rw [hstep]; simp)
  rw [hstep] at halong
  cases halong with
  | running h => exact h

/-- In every state of a run on a reset EVM the stacks are within their capacities, and there is
room for the result of a call in the frame that made it. The next opcode stays within the stack
exactly if it is no DUP that finds no room, and then it does what it does on a list that is
limited by the maximal depth alone; so does the whole step. -/
theorem stack_disciplined (host : Host) [OnArena host] {fork : Fork} {evm : Evm}
    (hhistory : History host fork evm) (state : Option World) (env : ExecutionEnv)
    {m : Machine}
    (hreach : Reaches (step host) (start { evmReset evm with state := state } env) m) :
    (∀ frame ∈ frames m, frame.stack.items.length ≤ frame.stack.capacity ∧
      frame.stack.capacity ≤ stackMaxDepth) ∧
    (∀ saved ∈ m.parents, saved.stack.items.length < saved.stack.capacity) ∧
    (Avoids StackFault (dispatch host m.active) ↔
      ∀ n, nextOpcode m.active.frame = some (.dup n) →
        DupFits m.active n (gasTable m.active.evm.fork (.dup n))) ∧
    (Avoids StackFault (dispatch host m.active) →
      Agree Twins (dispatch host m.active) (dispatch host (unboundedMachine m).active)) ∧
    (step host m ≠ .stuck →
      Along TwinMachines TwinOutcomes (step host m) (step host (unboundedMachine m))) := by
  have hroomy : Roomy m :=
    reaches_invariant (fun _ _ hm hstep => Roomy.step hm hstep) (roomy_start _ env) hreach
  have hgrown := hhistory.invariant.2
  have hself : TwinEvms { evmReset evm with state := state } { evmReset evm with state := state } :=
    TwinEvms.refl ⟨Nat.zero_le _, hgrown.logsCapacity, hgrown.returnData⟩
  have htwin : TwinMachines m m := twin_self_of_reaches (start_twin hself env) hreach
  have hlist : TwinMachines m (unboundedMachine m) := hroomy.twin htwin.active.evm
  refine ⟨fun frame _ => ⟨frame.stack.fits, frame.stack.bounded⟩, hroomy.parents,
    dispatch_avoids_iff m.active, fun havoids => ?_, fun hstuck => step_along hlist hstuck⟩
  exact (inferInstance : Twinned (dispatch host)).follows _ _ hlist.active havoids

def pushesThenDup (pushes : ℕ) : Bytes := List.replicate pushes 0x5f ++ [0x80]

def pushesStart (pushes : ℕ) : Machine :=
  start { evmReset (evmInit .cancun) with state := none } (running 100000 (pushesThenDup pushes))

/-- With 31 words on the stack, DUP1 has room for its copy. -/
theorem stack_disciplined_dup :
    nextOpcode (stepped 31 (pushesStart 31)).active.frame = some (.dup 1) ∧
      Avoids StackFault
        (dispatch paddedHost (stepped 31 (pushesStart 31)).active) := by
  refine ⟨by decide +kernel, ?_⟩
  refine (stack_disciplined paddedHost History.init none (running 100000 (pushesThenDup 31))
    (reaches_advance _ 31 (pushesStart 31))).2.2.1.mpr fun n _ _ _ _ => ?_
  decide +kernel

/-- With 32 words the stack is full, and DUP1 writes past its end. -/
theorem dup_past_capacity :
    ∃ m, Reaches (step paddedHost) (pushesStart 32) m ∧
      m.active.frame.stack.items.length = 32 ∧ m.active.frame.stack.capacity = 32 ∧
      ¬Avoids StackFault (dispatch paddedHost m.active) := by
  refine ⟨_, reaches_advance _ 32 (pushesStart 32), by decide +kernel, by decide +kernel, ?_⟩
  intro havoids
  have hroom := (dispatch_avoids_iff _).mp havoids 1 (by decide +kernel) (by decide +kernel)
    (by decide +kernel) (by decide +kernel)
  exact absurd hroom (by decide +kernel)

end Runs

end Div0.StackSafety
