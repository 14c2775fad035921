import Div0.CallSetups

/-!
When memory expansion does not come back. The loop that doubles the capacity ends only if
some doubling, cut to 64 bits, reaches the size that is asked for. The gas is looked at
after the loop by most instructions, and what a call pays in front of it is cut to 64 bits,
so the operands alone decide whether an instruction can hang.
-/

namespace Div0.MemoryHangs

open BigEndian Buffer Effects EvmContext Memory Node Uint256 WorldState Frame Opcodes FrameOps
open StateOps CallOps Interpreter OpPrograms OpEffects CallEffects GasConservation MemoryPricing
open MemoryInstructions CallSetups

variable {host : Host} {s : Active}

section Primitives

/-- The ends that are no error and no access outside a stack. -/
class Rare (halt : Halt) : Prop where
  status : ∀ error, Halt.status error ≠ halt
  stack : Halt.undefined .stack ≠ halt

instance : Rare .diverges := ⟨nofun, nofun⟩

instance : Rare (.undefined .memory) := ⟨nofun, nofun⟩

instance : Rare (.undefined .pool) := ⟨nofun, nofun⟩

abbrev Ending (halt : Halt) : ∀ ⦃α : Type⦄, Op α → Prop := fun _ m => Avoids halt m

variable {α : Type} {halt : Halt}

instance (priority := low) avoids_of_every (m : Op α) [h : Every (Ending halt) m] :
    Avoids halt m := h.holds

theorem avoids_throw {other : Halt} (h : other ≠ halt) : Avoids halt (throw other : Op α) :=
  ⟨fun _ hends => h ((ends_of_error (m := (throw other : Op α)) rfl).mp hends)⟩

instance (stack : EvmStack) : Every (Ending halt) (setStack stack) := ⟨inferInstance⟩

instance (pc : ℕ) : Every (Ending halt) (setPc pc) := ⟨⟨fun _ => not_ends_of_ok rfl⟩⟩

instance (bitmap : Option Bytes) : Every (Ending halt) (setJumpdestBitmap bitmap) :=
  ⟨⟨fun _ => not_ends_of_ok rfl⟩⟩

instance (f : World → World) : Every (Ending halt) (updateState f) :=
  ⟨⟨fun _ => not_ends_of_ok rfl⟩⟩

instance (refund : UInt64) : Every (Ending halt) (setGasRefund refund) :=
  ⟨⟨fun _ => not_ends_of_ok rfl⟩⟩

instance (logs : List EvmLog) (capacity : ℕ) : Every (Ending halt) (setLogs logs capacity) :=
  ⟨⟨fun _ => not_ends_of_ok rfl⟩⟩

instance (child : CallFrame) (r : CallRegions) : Every (Ending halt) (switchTo child r) :=
  ⟨⟨fun _ => not_ends_of_ok rfl⟩⟩

instance : Strays (Ending .diverges) := ⟨fun _ => avoids_throw nofun⟩

variable [hrare : Rare halt]

instance (o : Option α) : Every (Ending halt) (defined .stack o) := by
  cases o with
  | none => exact ⟨avoids_throw hrare.stack⟩
  | some a => exact ⟨inferInstanceAs (Avoids halt (pure a : Op α))⟩

instance : Reads (Ending halt) where
  pure a := inferInstance
  bind {_ _ m f} hm hf := by
    have hfirst : Avoids halt m := hm
    have hrest : ∀ a, Avoids halt (f a) := hf
    infer_instance
  get := ⟨fun _ => not_ends_of_ok rfl⟩
  fail error := avoids_throw (hrare.status error)

instance : Stacks (Ending halt) where
  pop := by
    have hpop : Every (Ending halt) pop := by
      unfold pop
      infer_instance
    exact hpop.holds
  push value := by
    have hpush : Every (Ending halt) (push value) := by
      unfold push
      infer_instance
    exact hpush.holds
  ensureSpace n := by
    have hspace : Every (Ending halt) (ensureSpace n) := by
      unfold ensureSpace
      refine every_then fun frame => ?_
      split <;> infer_instance
    exact hspace.holds

instance (cost : UInt64) : Every (Ending halt) (charge cost) := by
  have hpay : Every (Ending halt)
      (modify fun s => { s with frame := { s.frame with gas := s.frame.gas - cost } } : Op Unit) :=
    ⟨⟨fun _ => not_ends_of_ok rfl⟩⟩
  unfold charge
  infer_instance

end Primitives

section Handlers

set_option synthInstance.maxSize 1024

def isMemoryOp : Opcode → Bool
  | .mload | .mstore | .mstore8 | .calldatacopy | .codecopy | .returndatacopy | .extcodecopy
  | .keccak256 | .log _ | .return_ | .revert | .call | .callcode | .delegatecall
  | .staticcall => true
  | _ => false

theorem handler_avoids (halt : Halt) [Rare halt] (cost : Opcode → UInt64)
    (schedule : GasSchedule) {opcode : Opcode} (h : isMemoryOp opcode = false) :
    Avoids halt (handler host cost schedule opcode) := by
  cases hplain : isPlainOp opcode with
  | true => exact (handler_plain (P := Ending halt) host cost schedule hplain).holds
  | false =>
    cases opcode <;> simp only [isPlainOp, isMemoryOp, Bool.true_eq_false] at hplain h
    all_goals
      simp only [handler, opPushN, opDup, opSwap, opJump, opJumpi]
      infer_instance

end Handlers

variable {mem : EvmMemory} {offset size : UInt64}

section Operands

/-- The region between two operands of 64 bits, where the instruction has all its operands and
passes the tests in front of the expansion. -/
def asked (s : Active) (count : ℕ) (tests : Bool) (offset size : Word) :
    Option (UInt64 × UInt64) :=
  if count ≤ s.frame.stack.items.length ∧ tests = true ∧ uint256FitsU64 offset = true ∧
      uint256FitsU64 size = true then
    some (uint256ToU64Unsafe offset, uint256ToU64Unsafe size)
  else none

def callAsked (kind : CallKind) (s : Active) : Option (UInt64 × UInt64) :=
  if kind.count ≤ s.frame.stack.items.length ∧ s.frame.depth < maxCallDepth ∧
      (s.frame.isStatic && movesValue (kind.args s.frame.stack.items)) = false ∧
      s.evm.state.isSome = true then
    match validateMemoryArgs (kind.args s.frame.stack.items) with
    | some r =>
      if regionOverflows r.argsOffset r.argsSize || regionOverflows r.retOffset r.retSize then none
      else some (0, maxEnd r)
    | none => none
  else none

def expansionOf (s : Active) : Opcode → Option (UInt64 × UInt64)
  | .mload => asked s 1 true (operand s 0) (uint256FromU64 32)
  | .mstore => asked s 2 true (operand s 0) (uint256FromU64 32)
  | .mstore8 => asked s 2 true (operand s 0) (uint256FromU64 1)
  | .calldatacopy | .codecopy => asked s 3 true (operand s 0) (operand s 2)
  | .returndatacopy => asked s 3
      (uint256FitsU64 (operand s 1) &&
        decide ((operand s 1).toNat + (operand s 2).toNat ≤ s.evm.returnData.length))
      (operand s 0) (operand s 2)
  | .extcodecopy => asked s 4 s.evm.state.isSome (operand s 1) (operand s 3)
  | .keccak256 | .return_ | .revert => asked s 2 true (operand s 0) (operand s 1)
  | .log topicCount => asked s (2 + topicCount)
      (!s.frame.isStatic && decide (375 + 375 * topicCount + 8 * (operand s 1).toNat < 2 ^ 64))
      (operand s 0) (operand s 1)
  | .call => callAsked .call s
  | .callcode => callAsked .callcode s
  | .delegatecall => callAsked .delegatecall s
  | .staticcall => callAsked .staticcall s
  | _ => none

def Loops (host : Host) (mem : EvmMemory) (region : Option (UInt64 × UInt64)) : Prop :=
  ∃ r, region = some r ∧ evmMemoryExpand host.alloc mem r.1 r.2 = .diverges

theorem loops_asked {count : ℕ} {tests : Bool} {offset size : Word} :
    Loops host mem (asked s count tests offset size) ↔
      count ≤ s.frame.stack.items.length ∧ tests = true ∧ uint256FitsU64 offset = true ∧
        uint256FitsU64 size = true ∧
        evmMemoryExpand host.alloc mem (uint256ToU64Unsafe offset) (uint256ToU64Unsafe size) =
          .diverges := by
  unfold Loops asked
  constructor
  · rintro ⟨r, hasked, hloops⟩
    split at hasked
    · next h =>
      cases hasked
      exact ⟨h.1, h.2.1, h.2.2.1, h.2.2.2, hloops⟩
    · cases hasked
  · rintro ⟨hitems, htests, hoffset, hsize, hloops⟩
    exact ⟨_, if_pos ⟨hitems, htests, hoffset, hsize⟩, hloops⟩

variable {α : Type}

theorem popTwo_ends {f : Word → Word → Op α} (h : 2 ≤ s.frame.stack.items.length) :
    Ends .diverges (pop >>= fun a => pop >>= f a) s ↔
      Ends .diverges (f (operand s 0) (operand s 1)) (dropItems 2 s) := by
  unfold Ends
  rw [popTwo_eq h]

theorem hasItems_diverges {n : ℕ} {rest : Unit → Op α} :
    Ends .diverges (hasItems n >>= rest) s ↔
      n ≤ s.frame.stack.items.length ∧ Ends .diverges (rest ()) s := by
  by_cases hitems : n ≤ s.frame.stack.items.length
  · rw [ends_bind_of_ok (hasItems_eq hitems)]
    exact (and_iff_right hitems).symm
  · rw [ends_of_error (bind_of_error (hasItems_error hitems))]
    exact iff_of_false nofun fun h => hitems h.1

theorem require_diverges {c : Bool} {error : EvmStatus} {rest : Unit → Op α} :
    Ends .diverges (require c error >>= rest) s ↔ c = true ∧ Ends .diverges (rest ()) s := by
  cases c with
  | true =>
    rw [ends_bind_of_ok (require_true rfl)]
    exact (and_iff_right rfl).symm
  | false =>
    rw [ends_of_error (bind_of_error (require_false rfl))]
    exact iff_of_false nofun fun h => nomatch h.1

variable {rest : UInt64 → Op α}

theorem toU64_diverges {value : Word} :
    Ends .diverges (toU64 value >>= rest) s ↔
      uint256FitsU64 value = true ∧ Ends .diverges (rest (uint256ToU64Unsafe value)) s := by
  by_cases hfits : value.toNat < 2 ^ 64
  · rw [ends_bind_of_ok (toU64_eq hfits)]
    exact (and_iff_right ((fitsU64_iff value).mpr hfits)).symm
  · rw [ends_of_error (bind_of_error (toU64_error hfits))]
    exact iff_of_false nofun fun h => hfits ((fitsU64_iff value).mp h.1)

theorem expandMemory_diverges [∀ cost, Avoids .diverges (rest cost)] :
    Ends .diverges (expandMemory host offset size >>= rest) s ↔
      evmMemoryExpand host.alloc s.frame.memory offset size = .diverges := by
  have hrun := expandMemory_eq host offset size s
  rw [ends_bind_avoids]
  cases hexpand : evmMemoryExpand host.alloc s.frame.memory offset size with
  | expanded cost mem =>
    rw [hexpand] at hrun
    exact iff_of_false (not_ends_of_ok hrun) nofun
  | refused =>
    rw [hexpand] at hrun
    rw [ends_of_error hrun]
    exact iff_of_false nofun nofun
  | diverges =>
    rw [hexpand] at hrun
    exact iff_of_true ⟨_, hrun⟩ rfl

/-- An expansion that does not come back has passed the test of its end. -/
theorem fits_of_diverges {alloc : Alloc} (h : evmMemoryExpand alloc mem offset size = .diverges) :
    offset ≤ uint64Max - size := by
  by_contra hwide
  unfold evmMemoryExpand at h
  split at h
  · cases h
  · rw [if_pos (UInt64.not_le.mp hwide)] at h
    cases h

theorem expandMemory_tested_diverges [∀ cost, Avoids .diverges (rest cost)] :
    Ends .diverges (require (decide (offset ≤ uint64Max - size)) .outOfGas >>= fun _ =>
        expandMemory host offset size >>= rest) s ↔
      evmMemoryExpand host.alloc s.frame.memory offset size = .diverges := by
  rw [require_diverges, expandMemory_diverges, decide_eq_true_iff]
  exact and_iff_right_of_imp fits_of_diverges

end Operands

section Instructions

set_option synthInstance.maxSize 1024

variable {cost : UInt64}

theorem accessMemory_diverges {offset : Word} {width : UInt64} :
    Ends .diverges (accessMemory host offset width cost) s ↔
      uint256FitsU64 offset = true ∧
        evmMemoryExpand host.alloc s.frame.memory (uint256ToU64Unsafe offset) width =
          .diverges := by
  unfold accessMemory
  rw [toU64_diverges, expandMemory_tested_diverges]

theorem chargeCopy_diverges {destOffset : Word} {size : UInt64} :
    Ends .diverges (chargeCopy host destOffset size cost) s ↔
      uint256FitsU64 destOffset = true ∧
        evmMemoryExpand host.alloc s.frame.memory (uint256ToU64Unsafe destOffset) size =
          .diverges := by
  unfold chargeCopy
  rw [toU64_diverges, expandMemory_tested_diverges]

theorem chargeKeccak256_diverges :
    Ends .diverges (chargeKeccak256 host offset size cost) s ↔
      evmMemoryExpand host.alloc s.frame.memory offset size = .diverges := by
  unfold chargeKeccak256
  rw [expandMemory_tested_diverges]

theorem opMload_diverges :
    Ends .diverges (opMload host cost) s ↔ Loops host s.frame.memory (expansionOf s .mload) := by
  unfold opMload
  rw [expansionOf, loops_asked, hasItems_diverges]
  refine and_congr_right fun hitems => ?_
  rw [ends_bind_of_ok (pop_first hitems), ends_bind_avoids, accessMemory_diverges]
  exact ⟨fun h => ⟨rfl, h.1, rfl, h.2⟩, fun h => ⟨h.2.1, h.2.2.2⟩⟩

/-- MSTORE and MSTORE8. -/
theorem store_diverges (width : Word) {bytes : Word → Bytes}
    (hwidth : uint256FitsU64 width = true) :
    Ends .diverges (hasItems 2 >>= fun _ => pop >>= fun offset => pop >>= fun value =>
      accessMemory host offset (uint256ToU64Unsafe width) cost >>= fun offset =>
        storeMemory offset (bytes value)) s ↔
      Loops host s.frame.memory (asked s 2 true (operand s 0) width) := by
  rw [loops_asked, hasItems_diverges]
  refine and_congr_right fun hitems => ?_
  rw [popTwo_ends (by omega),
    ends_bind_avoids, accessMemory_diverges]
  exact ⟨fun h => ⟨rfl, h.1, hwidth, h.2⟩, fun h => ⟨h.2.1, h.2.2.2⟩⟩

theorem expand_zero_ne_diverges {alloc : Alloc} {offset : UInt64} {size : Word}
    (h : uint256IsZero size = true) :
    evmMemoryExpand alloc mem offset (uint256ToU64Unsafe size) ≠ .diverges := by
  have hvalue := (isZero_iff size).mp h
  have hzero : uint256ToU64Unsafe size = 0 := by
    rw [← UInt64.toNat_inj, toU64_toNat size (by omega), hvalue]
    rfl
  rw [hzero, evmMemoryExpand, if_pos rfl]
  rintro ⟨⟩

/-- A copy to the region between two operands. -/
theorem copy_diverges {dest size : Word} {rest : UInt64 → UInt64 → Op Unit}
    [∀ size dest, Avoids .diverges (rest size dest)] :
    Ends .diverges (if uint256IsZero size = true then charge cost
        else toU64 size >>= fun size => chargeCopy host dest size cost >>= rest size) s ↔
      uint256FitsU64 dest = true ∧ uint256FitsU64 size = true ∧
        evmMemoryExpand host.alloc s.frame.memory (uint256ToU64Unsafe dest)
          (uint256ToU64Unsafe size) = .diverges := by
  by_cases hzero : uint256IsZero size = true
  · rw [if_pos hzero]
    exact iff_of_false (Avoids.avoids s) fun h => expand_zero_ne_diverges hzero h.2.2
  · rw [if_neg hzero, toU64_diverges, ends_bind_avoids, chargeCopy_diverges]
    exact and_left_comm

theorem copyOp_diverges {source : CallFrame → Bytes} :
    Ends .diverges (copyOp host source cost) s ↔
      Loops host s.frame.memory (asked s 3 true (operand s 0) (operand s 2)) := by
  unfold copyOp
  rw [loops_asked, hasItems_diverges]
  refine and_congr_right fun hitems => ?_
  rw [popTwo_ends (by omega),
    ends_bind_of_ok (pop_next (by omega)), copy_diverges]
  exact (and_iff_right rfl).symm

theorem opExtcodecopy_diverges :
    Ends .diverges (opExtcodecopy host) s ↔
      Loops host s.frame.memory (expansionOf s .extcodecopy) := by
  have hread := requireState_eq .stateUnavailable s
  unfold opExtcodecopy
  rw [expansionOf, loops_asked]
  cases hstate : s.evm.state with
  | none =>
    rw [hstate] at hread
    rw [ends_of_error (bind_of_error hread)]
    exact iff_of_false nofun fun h => nomatch h.2.1
  | some ws =>
    rw [hstate] at hread
    rw [ends_bind_of_ok hread, hasItems_diverges]
    refine and_congr_right fun hitems => ?_
    rw [popTwo_ends (by omega),
      ends_bind_of_ok (pop_next (by omega)), ends_bind_of_ok (pop_next (by omega)),
      ends_bind_of_ok (updateState_eq _ _), copy_diverges]
    exact (and_iff_right rfl).symm

theorem opReturndatacopy_diverges :
    Ends .diverges (opReturndatacopy host cost) s ↔
      Loops host s.frame.memory (expansionOf s .returndatacopy) := by
  unfold opReturndatacopy
  rw [expansionOf, loops_asked, hasItems_diverges]
  refine and_congr_right fun hitems => ?_
  rw [popTwo_ends (by omega),
    ends_bind_of_ok (pop_next (by omega)), Bool.and_eq_true, decide_eq_true_iff]
  by_cases hzero : uint256IsZero (operand s 2) = true
  · rw [if_pos hzero]
    exact iff_of_false (Avoids.avoids _) fun h => expand_zero_ne_diverges hzero h.2.2.2
  · rw [if_neg hzero, toU64_diverges, toU64_diverges,
      ends_bind_of_ok (getEvm_eq _), require_diverges, ends_bind_avoids,
      chargeCopy_diverges, decide_eq_true_iff]
    constructor
    · rintro ⟨hsize, hsrc, hlength, hdest, hloops⟩
      rw [toU64_toNat _ ((fitsU64_iff _).mp hsrc), toU64_toNat _ ((fitsU64_iff _).mp hsize)]
        at hlength
      exact ⟨⟨hsrc, hlength⟩, hdest, hsize, hloops⟩
    · rintro ⟨⟨hsrc, hlength⟩, hdest, hsize, hloops⟩
      refine ⟨hsize, hsrc, ?_, hdest, hloops⟩
      rw [toU64_toNat _ ((fitsU64_iff _).mp hsrc), toU64_toNat _ ((fitsU64_iff _).mp hsize)]
      exact hlength

theorem opKeccak256_diverges :
    Ends .diverges (opKeccak256 host cost) s ↔
      Loops host s.frame.memory (expansionOf s .keccak256) := by
  unfold opKeccak256
  rw [expansionOf, loops_asked, hasItems_diverges]
  refine and_congr_right fun hitems => ?_
  rw [popTwo_ends (by omega),
    and_iff_right rfl]
  by_cases hzero : uint256IsZero (operand s 1) = true
  · rw [if_pos hzero]
    exact iff_of_false (Avoids.avoids _) fun h => expand_zero_ne_diverges hzero h.2.2
  · rw [if_neg hzero, require_diverges, ends_bind_avoids, chargeKeccak256_diverges,
      Bool.and_eq_true, and_assoc]
    rfl

theorem returnRange_diverges :
    Ends .diverges (returnRange host) s ↔
      Loops host s.frame.memory (asked s 2 true (operand s 0) (operand s 1)) := by
  unfold returnRange
  rw [loops_asked, hasItems_diverges]
  refine and_congr_right fun hitems => ?_
  rw [popTwo_ends (by omega),
    require_diverges, expandMemory_diverges, Bool.and_eq_true, and_assoc, and_iff_right rfl]
  rfl

theorem le_max_sub_iff (a b : UInt64) : a ≤ uint64Max - b ↔ a.toNat + b.toNat < 2 ^ 64 := by
  rw [← UInt64.not_lt, fits_iff]

/-- The three tests of `op_log_n` say that the price without the memory has 64 bits. -/
theorem chargeLog_diverges {topicCount : ℕ} (hcount : topicCount ≤ stackMaxDepth) :
    Ends .diverges (chargeLog host topicCount offset size) s ↔
      375 + 375 * topicCount + 8 * size.toNat < 2 ^ 64 ∧
        evmMemoryExpand host.alloc s.frame.memory offset size = .diverges := by
  unfold stackMaxDepth at hcount
  have htopics := topicCost_toNat topicCount (by omega)
  have hfixed := logCost_toNat topicCount (by omega)
  have hmost : (uint64Max / gasLogData).toNat = (2 ^ 64 - 1) / 8 := by decide
  unfold chargeLog
  rw [require_diverges, require_diverges, require_diverges, expandMemory_diverges,
    decide_eq_true_iff, decide_eq_true_iff, decide_eq_true_iff, le_max_sub_iff, le_max_sub_iff,
    UInt64.le_iff_toNat_le, hmost, htopics, hfixed]
  change 375 + 375 * topicCount < 2 ^ 64 ∧ _ ∧ _ ∧ _ ↔ _
  constructor
  · rintro ⟨-, hsize, hsum, hloops⟩
    rw [mul_toNat (by change _ * 8 < _; omega)] at hsum
    change 375 + 375 * topicCount + size.toNat * 8 < 2 ^ 64 at hsum
    exact ⟨by omega, hloops⟩
  · rintro ⟨hsum, hloops⟩
    refine ⟨by omega, by omega, ?_, hloops⟩
    rw [mul_toNat (by change _ * 8 < _; omega)]
    change 375 + 375 * topicCount + size.toNat * 8 < 2 ^ 64
    omega

theorem opLogN_diverges {topicCount : ℕ} :
    Ends .diverges (opLogN host topicCount) s ↔
      Loops host s.frame.memory (expansionOf s (.log topicCount)) := by
  unfold opLogN
  rw [expansionOf, loops_asked, hasItems_diverges]
  refine and_congr_right fun hitems => ?_
  have hbounded := s.frame.stack.bounded
  have hfits := s.frame.stack.fits
  rw [ends_bind_of_ok (show getFrame s = .ok s.frame s from rfl), require_diverges,
    popTwo_ends (by omega),
    require_diverges]
  have hrest : topicCount ≤ (dropItems 2 s).frame.stack.items.length := by
    change _ ≤ (List.drop 2 _).length
    rw [List.length_drop]
    omega
  rw [ends_bind_of_ok (popAll_eq hrest), ends_bind_avoids, chargeLog_diverges (by omega),
    Bool.and_eq_true, Bool.and_eq_true, decide_eq_true_iff]
  constructor
  · rintro ⟨hstatic, ⟨hoffset, hsize⟩, hprice, hloops⟩
    rw [toU64_toNat _ ((fitsU64_iff _).mp hsize)] at hprice
    exact ⟨⟨hstatic, hprice⟩, hoffset, hsize, hloops⟩
  · rintro ⟨⟨hstatic, hprice⟩, hoffset, hsize, hloops⟩
    refine ⟨hstatic, ⟨hoffset, hsize⟩, ?_, hloops⟩
    rw [toU64_toNat _ ((fitsU64_iff _).mp hsize)]
    exact hprice

end Instructions

section Calls

set_option synthInstance.maxSize 1024

theorem callWith_diverges {prep : World → Op (Option CallSetup)} {transfers : Bool}
    {params : ParamsOf} :
    Ends .diverges (callWith host prep transfers params) s ↔
      ∃ ws, s.evm.state = some ws ∧ Ends .diverges (prep ws) s := by
  have hread := requireState_eq .invalidOpcode s
  unfold callWith
  cases hstate : s.evm.state with
  | none =>
    rw [hstate] at hread
    rw [ends_of_error (bind_of_error hread)]
    refine iff_of_false (by rintro ⟨⟩) ?_
    rintro ⟨_, h, -⟩
    cases h
  | some ws =>
    rw [hstate] at hread
    rw [ends_bind_of_ok hread]
    refine (@ends_bind_avoids _ _ _ _ _ _ ?_).trans ⟨fun h => ⟨ws, rfl, h⟩, ?_⟩
    · intro made
      cases made <;> infer_instance
    · rintro ⟨_, hws, h⟩
      exact Option.some.inj hws ▸ h

theorem op_diverges (kind : CallKind) :
    Ends .diverges (kind.op host) s ↔
      ∃ ws, s.evm.state = some ws ∧ Ends .diverges (kind.prepare host ws) s := by
  obtain ⟨params, hop⟩ := kind.op_eq host
  rw [hop]
  exact callWith_diverges

/-- The set-up of a call does not come back if it is admitted, can pay its overhead, and the
expansion does not come back. -/
theorem prepare_diverges_iff (kind : CallKind) (ws : World) :
    Ends .diverges (kind.prepare host ws) s ↔
      ∃ regions memCost, Admitted kind.count (kind.args s.frame.stack.items) s regions ∧
        callMemoryCost s.frame.memory regions = some memCost ∧
        callOverhead host kind.chargesNewAccount ws (kind.args s.frame.stack.items) memCost ≤
          s.frame.gas ∧
        callMemory host.alloc s.frame.memory regions = none := by
  have hcases := kind.prepare_cases host ws s
  generalize hrun : kind.prepare host ws s = result at hcases
  cases hcases with
  | rejected hreason =>
    rw [ends_of_error hrun]
    refine iff_of_false nofun ?_
    rintro ⟨regions, memCost, hadmitted, hcost, hgas, -⟩
    exact UInt64.not_le.mpr (hreason regions memCost hadmitted hcost) hgas
  | deep hitems hdepth =>
    refine iff_of_false (not_ends_of_ok hrun) ?_
    rintro ⟨regions, memCost, hadmitted, -⟩
    exact absurd hadmitted.depth (not_lt.mpr hdepth)
  | made hadmitted hcost hgas hleft hmem =>
    refine iff_of_false (not_ends_of_ok hrun) ?_
    rintro ⟨regions, memCost, hother, -, -, hnone⟩
    rw [Option.some.inj (hother.valid.symm.trans hadmitted.valid), hmem] at hnone
    cases hnone
  | diverges hadmitted hcost hgas hleft hmem =>
    exact iff_of_true ⟨_, hrun⟩ ⟨_, _, hadmitted, hcost, hgas, hmem⟩

/-- An expansion that does not come back asks for more than there is. -/
theorem callMemory_eq_none_iff {alloc : Alloc} {r : CallRegions} :
    callMemory alloc mem r = none ↔ evmMemoryExpand alloc mem 0 (maxEnd r) = .diverges := by
  unfold callMemory
  by_cases hgrows : evmMemorySize mem < maxEnd r
  · rw [if_pos hgrows]
    cases evmMemoryExpand alloc mem 0 (maxEnd r) <;> simp
  · rw [if_neg hgrows]
    refine iff_of_false nofun fun hloops => ?_
    obtain ⟨hsize, hend, hlarge, -⟩ := evmMemoryExpand_diverges_iff.mp hloops
    have hfits := mem.fits
    have haligned := mem.aligned
    rw [UInt64.lt_iff_toNat_lt, evmMemorySize_toNat, not_lt] at hgrows
    have hstop : (0 : UInt64).toNat + (maxEnd r).toNat = (maxEnd r).toNat := Nat.zero_add _
    rw [newSize_toNat _ _ hend, hstop] at hlarge
    unfold wordsFor at hlarge
    split at hlarge <;> omega

theorem callMemoryCost_isSome_iff (mem : EvmMemory) {r : CallRegions} :
    (∃ memCost, callMemoryCost mem r = some memCost) ↔
      ¬(regionOverflows r.argsOffset r.argsSize ||
        regionOverflows r.retOffset r.retSize) = true := by
  unfold callMemoryCost
  split
  · next h => exact iff_of_false (fun ⟨_, hnone⟩ => nomatch hnone) (not_not.mpr h)
  · next h =>
    refine iff_of_true ?_ h
    split <;> exact ⟨_, rfl⟩

theorem loops_callAsked (kind : CallKind) :
    Loops host s.frame.memory (callAsked kind s) ↔
      s.evm.state.isSome = true ∧ ∃ regions memCost,
        Admitted kind.count (kind.args s.frame.stack.items) s regions ∧
        callMemoryCost s.frame.memory regions = some memCost ∧
        callMemory host.alloc s.frame.memory regions = none := by
  unfold Loops callAsked
  constructor
  · rintro ⟨r, hasked, hloops⟩
    split at hasked
    · next hadmitted =>
      obtain ⟨hitems, hdepth, hstatic, hstate⟩ := hadmitted
      split at hasked
      · next regions hvalid =>
        split at hasked
        · cases hasked
        · next hends =>
          obtain ⟨memCost, hcost⟩ := (callMemoryCost_isSome_iff s.frame.memory).mpr hends
          cases hasked
          exact ⟨hstate, regions, memCost, ⟨hitems, hdepth, hvalid, hstatic⟩, hcost,
            callMemory_eq_none_iff.mpr hloops⟩
      · cases hasked
    · cases hasked
  · rintro ⟨hstate, regions, memCost, hadmitted, hcost, hnone⟩
    refine ⟨(0, maxEnd regions), ?_, callMemory_eq_none_iff.mp hnone⟩
    rw [if_pos ⟨hadmitted.items, hadmitted.depth, hadmitted.static, hstate⟩, hadmitted.valid]
    exact if_neg ((callMemoryCost_isSome_iff _).mp ⟨memCost, hcost⟩)

end Calls

section Termination

variable {cost : Opcode → UInt64} {schedule : GasSchedule}

theorem le_uint64Max (n : UInt64) : n ≤ uint64Max :=
  UInt64.le_iff_toNat_le.mpr (Nat.le_of_lt_succ n.toNat_lt)

/-- A call can hang with some amount of gas if and only if its expansion does not come back:
the overhead is a number of 64 bits, so there is an amount that pays it. -/
theorem call_hangs_iff (kind : CallKind) :
    (∃ gas, Ends .diverges (kind.op host) (withGas gas s)) ↔
      Loops host s.frame.memory (callAsked kind s) := by
  rw [loops_callAsked]
  constructor
  · rintro ⟨gas, hends⟩
    obtain ⟨ws, hstate, hprepare⟩ := (op_diverges kind).mp hends
    obtain ⟨regions, memCost, hadmitted, hcost, -, hnone⟩ := (prepare_diverges_iff kind ws).mp
      hprepare
    have hsome : s.evm.state = some ws := hstate
    refine ⟨by rw [hsome]; rfl, regions, memCost, ?_, hcost, hnone⟩
    exact ⟨hadmitted.items, hadmitted.depth, hadmitted.valid, hadmitted.static⟩
  · rintro ⟨hstate, regions, memCost, hadmitted, hcost, hnone⟩
    obtain ⟨ws, hws⟩ := Option.isSome_iff_exists.mp hstate
    refine ⟨uint64Max, (op_diverges kind).mpr ⟨ws, hws, (prepare_diverges_iff kind ws).mpr ?_⟩⟩
    refine ⟨regions, memCost, ?_, hcost, le_uint64Max _, hnone⟩
    exact ⟨hadmitted.items, hadmitted.depth, hadmitted.valid, hadmitted.static⟩

theorem nextCall_diverges {op : Op Bool} :
    Ends .diverges (nextCall op) s ↔ Ends .diverges op s := by
  unfold nextCall
  exact ends_bind_avoids

/-- The instructions other than calls look at the gas behind the expansion. -/
theorem handler_diverges_iff {opcode : Opcode} (hcall : isCallOp opcode = false) :
    Ends .diverges (handler host cost schedule opcode) s ↔
      Loops host s.frame.memory (expansionOf s opcode) := by
  by_cases hmemory : isMemoryOp opcode = true
  · cases opcode <;> simp only [isMemoryOp, Bool.false_eq_true] at hmemory
    case mload => rw [handler, ends_next, opMload_diverges]
    case mstore => exact ends_next.trans (store_diverges (uint256FromU64 32) rfl)
    case mstore8 => exact ends_next.trans (store_diverges (uint256FromU64 1) rfl)
    case calldatacopy | codecopy => exact ends_next.trans copyOp_diverges
    case returndatacopy => rw [handler, ends_next, opReturndatacopy_diverges]
    case extcodecopy => rw [handler, ends_next, opExtcodecopy_diverges]
    case keccak256 => rw [handler, ends_next, opKeccak256_diverges]
    case log => rw [handler, ends_next, opLogN_diverges]
    case return_ | revert => exact ends_bind_avoids.trans returnRange_diverges
    all_goals cases hcall
  · have hnone : expansionOf s opcode = none := by
      cases opcode <;> first | rfl | exact absurd rfl hmemory
    have hother := Bool.not_eq_true _ ▸ hmemory
    refine iff_of_false ((handler_avoids .diverges cost schedule hother).avoids s) ?_
    rw [hnone]
    rintro ⟨r, h, -⟩
    cases h

/-- Whether an instruction can hang, whatever gas it has, is decided by its operands. -/
theorem handler_hangs_iff (cost : Opcode → UInt64) (schedule : GasSchedule) (s : Active)
    (opcode : Opcode) :
    (∃ gas, Ends .diverges (handler host cost schedule opcode) (withGas gas s)) ↔
      Loops host s.frame.memory (expansionOf s opcode) := by
  by_cases hcall : isCallOp opcode = true
  · cases opcode <;> simp only [isCallOp, Bool.false_eq_true] at hcall <;>
      simp only [handler, nextCall_diverges]
    case call => exact call_hangs_iff .call
    case callcode => exact call_hangs_iff .callcode
    case delegatecall => exact call_hangs_iff .delegatecall
    case staticcall => exact call_hangs_iff .staticcall
  · rw [Bool.not_eq_true] at hcall
    have hsame : ∀ gas, Ends .diverges (handler host cost schedule opcode) (withGas gas s) ↔
        Loops host s.frame.memory (expansionOf s opcode) := by
      intro gas
      rw [handler_diverges_iff hcall]
      cases opcode <;> exact Iff.rfl
    refine ⟨?_, fun h => ⟨0, (hsame 0).mpr h⟩⟩
    rintro ⟨gas, h⟩
    exact (hsame gas).mp h

/-- `evm_memory_expand` comes back: where it has to find a larger buffer, its loop ends after
finitely many rounds. -/
def Returns (mem : EvmMemory) (offset size : UInt64) : Prop :=
  size ≠ 0 → offset.toNat + size.toNat < 2 ^ 64 →
    mem.capacity.toNat < (roundUp32 (offset + size)).toNat →
      ∃ rounds, (doubleUntil (roundUp32 (offset + size)) rounds (firstCapacity mem)).isSome = true

/-- A loop that has not ended after 65 rounds never ends. -/
theorem growCapacity_eq_none_iff (mem : EvmMemory) (wanted : UInt64) :
    growCapacity wanted mem.capacity = none ↔
      ¬∃ rounds, (doubleUntil wanted rounds (firstCapacity mem)).isSome = true := by
  rw [← Option.not_isSome_iff_eq_none, growCapacity_isSome_iff]
  refine not_congr ⟨fun ⟨k, hk⟩ => ⟨k + 1, ?_⟩, fun ⟨rounds, h⟩ => ?_⟩
  · exact (doubleUntil_isSome_iff _ _ _).mpr ⟨k, Nat.lt_succ_self k, hk⟩
  · obtain ⟨k, -, hk⟩ := (doubleUntil_isSome_iff _ _ _).mp h
    exact ⟨k, hk⟩

theorem expand_diverges_iff (alloc : Alloc) :
    evmMemoryExpand alloc mem offset size = .diverges ↔ ¬Returns mem offset size := by
  rw [evmMemoryExpand_diverges_iff, growCapacity_eq_none_iff]
  unfold Returns
  constructor
  · rintro ⟨hsize, hend, hlarge, hnever⟩ hreturns
    exact hnever (hreturns hsize hend hlarge)
  · intro h
    simp only [Classical.not_imp] at h
    exact h

theorem returns_iff : Returns mem offset size ↔ Attainable mem offset size := by
  rw [← not_iff_not, ← expand_diverges_iff arenaAlloc, ← evmMemoryExpand_returns_iff,
    not_not]

/-- `evm_memory_expand` comes back if and only if some doubling of the capacity reaches the end
that is asked for, and the next instruction comes back, whatever gas the frame has, if and
only if this is so for the region its operands ask for. -/
theorem memory_expansion_terminates_iff (host : Host) :
    (∀ mem offset size, Returns mem offset size ↔ Attainable mem offset size) ∧
    ∀ s opcode, nextOpcode s.frame = some opcode →
      ((∀ gas s', dispatch host (withGas gas s) ≠ .error .diverges s') ↔
        ∀ region, expansionOf s opcode = some region →
          Attainable s.frame.memory region.1 region.2) := by
  refine ⟨fun _ _ _ => returns_iff, fun s opcode hnext => ?_⟩
  have hends : (∃ gas, Ends .diverges (dispatch host) (withGas gas s)) ↔
      Loops host s.frame.memory (expansionOf s opcode) := by
    have hfetched : expansionOf (fetched s) opcode = expansionOf s opcode := by
      cases opcode <;> rfl
    rw [← hfetched]
    refine Iff.trans (exists_congr fun gas => ?_) (handler_hangs_iff (gasTable s.evm.fork)
      (gasSchedule s.evm.fork) (fetched s) opcode)
    exact dispatch_ends (s := withGas gas s) hnext
  unfold Ends Loops at hends
  rw [← not_iff_not]
  refine Iff.trans ?_ (hends.trans ?_)
  · simp only [ne_eq, not_forall, not_not]
  · simp only [expand_diverges_iff, returns_iff, not_forall, exists_prop]

theorem memory_expansion_terminates_near :
    nextOpcode nearLoad.val.frame = some .mload ∧
    ∀ gas s', dispatch paddedHost (withGas gas nearLoad.val) ≠ .error .diverges s' := by
  have hnext : nextOpcode nearLoad.val.frame = some .mload := by decide +kernel
  refine ⟨hnext, ((memory_expansion_terminates_iff paddedHost).2 nearLoad.val .mload
    hnext).mpr ?_⟩
  intro region hregion hhigh
  obtain rfl : region = (0, 32) := Option.some.inj (hregion.symm.trans rfl)
  exact absurd hhigh (by decide)

def highStore : Active :=
  withGas 0 (afterSteps 2 [0x5f, 0x67, 0x80, 0, 0, 0, 0, 0, 0, 0, 0x52])

theorem memory_expansion_loops :
    ¬Returns evmMemoryInit 0x8000000000000000 32 ∧
    nextOpcode highStore.frame = some .mstore ∧
    ∃ s', dispatch paddedHost highStore = .error .diverges s' :=
  ⟨(expand_diverges_iff arenaAlloc).mp rfl, by decide +kernel, ⟨_, rfl⟩⟩

end Termination

end Div0.MemoryHangs
