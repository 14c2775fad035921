import Div0.FailedCalls
import Div0.WriteLogs

/-!
The memory of a frame as an array of zeros that is written to. The buffer grows, moves to
larger blocks of the arena, and belongs to a pool from which later frames borrow; none of
that shows in the bytes a frame reads. What a frame reads outside its buffer is another
matter: most instructions stop when the buffer cannot grow, but a call goes on and reads its
input all the same.
-/

namespace Div0.MemoryContents

open BigEndian Buffer Effects EvmContext Memory Node Uint256 Uint256Ops WorldState Frame Opcodes
open FrameOps StateOps CallOps Interpreter OpEffects FrameViews CallEffects RunEffects
open GasConservation MemoryPricing MemoryInstructions CallSetups FailedCalls WriteLogs

variable {host : Host} {s s' : Active} {w : Write UInt8}

section Contents

def contents (mem : EvmMemory) : ℕ → UInt8 := cellsOf 0 mem.data

variable {mem mem' : EvmMemory} {offset size : UInt64} {bytes : Bytes}

theorem evmMemoryLoad_eq (h : offset.toNat + size.toNat ≤ mem.data.length) :
    evmMemoryLoad mem offset size = some (span (contents mem) offset.toNat size.toNat) := by
  rw [evmMemoryLoad, if_pos h, contents, span_cellsOf 0 h]

theorem inside_of_load (h : evmMemoryLoad mem offset size = some bytes) :
    offset.toNat + size.toNat ≤ mem.data.length := by
  by_contra hout
  rw [evmMemoryLoad, if_neg hout] at h
  cases h

theorem evmMemoryStore_contents (h : evmMemoryStore mem offset bytes = some mem')
    (hinside : offset.toNat + bytes.length ≤ mem.data.length) :
    contents mem' = overlay (contents mem) ⟨offset.toNat, bytes⟩ := by
  unfold evmMemoryStore at h
  split at h
  · cases h
    have hall : bytes.take (mem.data.length - offset.toNat) = bytes :=
      List.take_of_length_le (by omega)
    change cellsOf 0 (overwrite mem.data offset.toNat bytes) = _
    rw [overwrite, hall, cellsOf_replace 0 hinside]
    rfl
  · cases h

theorem evmMemoryStore_length (h : evmMemoryStore mem offset bytes = some mem') :
    mem'.data.length = mem.data.length := by
  unfold evmMemoryStore at h
  split at h
  · cases h
    exact overwrite_length _ _ _
  · cases h

theorem evmMemoryStore_isSome (h : offset.toNat + bytes.length ≤ mem.data.length) :
    ∃ mem', evmMemoryStore mem offset bytes = some mem' := by
  rw [evmMemoryStore, if_pos (le_trans h mem.fits)]
  exact ⟨_, rfl⟩

/-- What an instruction may do to its frame without a write to the memory. -/
structure Extends (s s' : Active) : Prop where
  memory : ∃ n, s'.frame.memory.data = s.frame.memory.data ++ List.replicate n 0
  code : s'.frame.code = s.frame.code
  input : s'.frame.input = s.frame.input

theorem Extends.contents (h : Extends s s') :
    contents s'.frame.memory = contents s.frame.memory := by
  obtain ⟨n, hdata⟩ := h.memory
  rw [MemoryContents.contents, hdata, cellsOf_append_blank]
  rfl

theorem Extends.length_le (h : Extends s s') :
    s.frame.memory.data.length ≤ s'.frame.memory.data.length := by
  obtain ⟨n, hdata⟩ := h.memory
  rw [hdata, List.length_append]
  exact Nat.le_add_right _ _

theorem Extends.of_memory (hmemory : s'.frame.memory = s.frame.memory)
    (hcode : s'.frame.code = s.frame.code) (hinput : s'.frame.input = s.frame.input) :
    Extends s s' :=
  ⟨⟨0, by rw [hmemory, List.replicate_zero, List.append_nil]⟩, hcode, hinput⟩

theorem Extends.refl (s : Active) : Extends s s := .of_memory rfl rfl rfl

theorem Extends.trans {s'' : Active} (h : Extends s s') (h' : Extends s' s'') :
    Extends s s'' := by
  obtain ⟨n, hdata⟩ := h.memory
  obtain ⟨n', hdata'⟩ := h'.memory
  refine ⟨⟨n + n', ?_⟩, h'.code.trans h.code, h'.input.trans h.input⟩
  rw [hdata', hdata, List.append_assoc, List.replicate_append_replicate]

def EndsBy (bound : ℕ) (w : Write UInt8) : Prop := w.values ≠ [] → w.stop ≤ bound

/-- Rounding up the end to whole words wraps round. -/
abbrev Wraps (stop : ℕ) : Prop := 2 ^ 64 - 32 < stop ∧ stop < 2 ^ 64

def Clear (w : Write UInt8) : Prop := w.values ≠ [] → ¬Wraps w.stop

theorem EndsBy.clear (h : EndsBy (2 ^ 63) w) : Clear w := by
  intro hvalues hwraps
  have hstop := h hvalues
  omega

/-- The memory with a write: it may have grown, the write lies inside it, and all other
bytes are as they were. -/
structure Stored (s s' : Active) (w : Write UInt8) : Prop where
  contents : contents s'.frame.memory = overlay (contents s.frame.memory) w
  grown : s.frame.memory.data.length ≤ s'.frame.memory.data.length
  inside : EndsBy s'.frame.memory.data.length w

theorem Stored.of_extends {s₁ s₂ : Active} (h : Extends s s₁) (hstored : Stored s₁ s₂ w) :
    Stored s s₂ w where
  contents := by rw [hstored.contents, h.contents]
  grown := h.length_le.trans hstored.grown
  inside := hstored.inside

/-- Writing nothing. -/
theorem Stored.nothing (h : Extends s s') (start : ℕ) : Stored s s' ⟨start, []⟩ where
  contents := by rw [overlay_nil, h.contents]
  grown := h.length_le
  inside hne := absurd rfl hne

theorem extends_dropItems (s : Active) (n : ℕ) : Extends s (dropItems n s) :=
  .of_memory rfl rfl rfl

instance : FrameView Extends where
  refl := Extends.refl
  trans _ _ _ := Extends.trans
  evm _ _ := .of_memory rfl rfl rfl
  stack _ _ := .of_memory rfl rfl rfl
  gas _ _ := .of_memory rfl rfl rfl
  output _ _ _ := .of_memory rfl rfl rfl

theorem extends_expanded {alloc : Alloc} {cost : UInt64}
    (h : evmMemoryExpand alloc s.frame.memory offset size = .expanded cost mem) :
    Extends s (withMemory mem s) := by
  by_cases hsize : size = 0
  · rw [evmMemoryExpand, if_pos hsize] at h
    cases h
    exact .refl s
  · exact ⟨⟨_, (evmMemoryExpand_inv hsize h).2.2.1⟩, rfl, rfl⟩

/-- After an expansion the region lies inside the memory, unless rounding up its end wrapped
round. -/
theorem expanded_covers {alloc : Alloc} {cost : UInt64} (hsize : size ≠ 0)
    (hend : ¬Wraps (offset.toNat + size.toNat))
    (h : evmMemoryExpand alloc mem offset size = .expanded cost mem') :
    offset.toNat + size.toNat ≤ mem'.data.length := by
  obtain ⟨hfits, -, hdata, -⟩ := evmMemoryExpand_inv hsize h
  have hnew := newSize_toNat offset size hfits
  rw [if_pos (by omega)] at hnew
  rw [hdata, List.length_append, List.length_replicate, hnew, wordsFor]
  omega

end Contents

variable {opcode : Opcode} {cost : Opcode → UInt64} {schedule : GasSchedule}

section Views

set_option synthInstance.maxSize 1024

instance (offset size : UInt64) : Every (Kept Extends) (expandMemory host offset size) := by
  refine ⟨⟨fun s => ?_⟩⟩
  have hrun := expandMemory_eq host offset size s
  cases hexpand : evmMemoryExpand host.alloc s.frame.memory offset size with
  | expanded cost mem =>
    rw [hexpand] at hrun
    rw [after_of_ok hrun]
    exact extends_expanded hexpand
  | refused | diverges =>
    rw [hexpand] at hrun
    rw [after_of_error hrun]
    exact .refl s

theorem extends_called {r : CallRegions} {s : Active} {mem : EvmMemory}
    (h : callMemory host.alloc s.frame.memory r = some mem) : Extends s (withMemory mem s) := by
  unfold callMemory at h
  split at h
  · cases hexpand : evmMemoryExpand host.alloc s.frame.memory 0 (maxEnd r) with
    | expanded cost grown =>
      rw [hexpand] at h
      cases h
      exact extends_expanded hexpand
    | refused =>
      rw [hexpand] at h
      cases h
      exact .refl s
    | diverges =>
      rw [hexpand] at h
      cases h
  · cases h
    exact .refl s

instance (r : CallRegions) : Every (Kept Extends) (expandCallMemory host r) := by
  refine ⟨⟨fun s => ?_⟩⟩
  have hrun := expandCallMemory_eq host r s
  cases hmem : callMemory host.alloc s.frame.memory r with
  | some mem =>
    rw [hmem] at hrun
    rw [after_of_ok hrun]
    exact extends_called hmem
  | none =>
    rw [hmem] at hrun
    rw [after_of_error hrun]
    exact .refl s

instance (pc : ℕ) : Every (Kept Extends) (setPc pc) :=
  ⟨keeps_modify fun _ => .of_memory rfl rfl rfl⟩

instance (bitmap : Option Bytes) : Every (Kept Extends) (setJumpdestBitmap bitmap) :=
  ⟨keeps_modify fun _ => .of_memory rfl rfl rfl⟩

/-- Only the instructions that store change what is in the memory. -/
theorem handler_extends (hstore : isStoreOp opcode = false) :
    Keeps Extends (handler host cost schedule opcode) := by
  cases hjump : isJumpOp opcode with
  | true =>
    cases opcode <;> simp only [isJumpOp, Bool.false_eq_true] at hjump <;>
      simp only [handler, opJump, opJumpi, jumpTo] <;> infer_instance
  | false =>
    cases hpush : isPushOp opcode with
    | true =>
      cases opcode <;> simp only [isPushOp, Bool.false_eq_true] at hpush
      simp only [handler, opPushN]
      infer_instance
    | false => exact handler_view hjump hpush hstore

end Views

variable {offset size : UInt64} {bytes : Bytes}

section Walks

/-- The end of a program that may be left to others: an error, a memory expansion that does
not come back, or an access outside a stack. -/
class Tolerates (allowed : Halt → Prop) : Prop where
  status : ∀ error, allowed (.status error)
  diverges : allowed .diverges
  stack : allowed (.undefined .stack)

def StaysInside (halt : Halt) : Prop := halt ≠ .undefined .memory

instance : Tolerates StaysInside := ⟨nofun, nofun, by rintro ⟨⟩⟩

variable {α : Type} {allowed : Halt → Prop} [htol : Tolerates allowed]

variable {post : α → Active → Prop}

theorem require_meets {c : Bool} {error : EvmStatus} {f : Unit → Op α}
    (h : c = true → Meets allowed (f ()) s post) :
    Meets allowed (require c error >>= f) s post := by
  cases c with
  | true => exact (meets_bind_of_ok (require_true rfl)).mpr (h rfl)
  | false => exact (meets_of_error (bind_of_error (require_false rfl))).mpr (htol.status _)

omit htol in
theorem popTwo_meets {f : Word → Word → Op α} (h : 2 ≤ s.frame.stack.items.length) :
    Meets allowed (pop >>= fun a => pop >>= f a) s post ↔
      Meets allowed (f (operand s 0) (operand s 1)) (dropItems 2 s) post := by
  unfold Meets
  rw [popTwo_eq h]

theorem hasItems_meets {n : ℕ} {f : Unit → Op α}
    (h : n ≤ s.frame.stack.items.length → Meets allowed (f ()) s post) :
    Meets allowed (hasItems n >>= f) s post := by
  by_cases hitems : n ≤ s.frame.stack.items.length
  · exact (meets_bind_of_ok (hasItems_eq hitems)).mpr (h hitems)
  · exact (meets_of_error (bind_of_error (hasItems_error hitems))).mpr (htol.status _)

theorem toU64_meets {value : Word} {f : UInt64 → Op α}
    (h : value.toNat < 2 ^ 64 → Meets allowed (f (uint256ToU64Unsafe value)) s post) :
    Meets allowed (toU64 value >>= f) s post := by
  by_cases hfits : value.toNat < 2 ^ 64
  · exact (meets_bind_of_ok (toU64_eq hfits)).mpr (h hfits)
  · exact (meets_of_error (bind_of_error (toU64_error hfits))).mpr (htol.status _)

theorem requireState_meets {error : EvmStatus} {f : World → Op α}
    (h : ∀ ws, s.evm.state = some ws → Meets allowed (f ws) s post) :
    Meets allowed (requireState error >>= f) s post := by
  have hread := requireState_eq error s
  cases hstate : s.evm.state with
  | none =>
    rw [hstate] at hread
    exact (meets_of_error (bind_of_error hread)).mpr (htol.status _)
  | some ws =>
    rw [hstate] at hread
    exact (meets_bind_of_ok hread).mpr (h ws hstate)

theorem fits_meets {offset size : Word} {error : EvmStatus} {f : Unit → Op α}
    (h : (uint256ToU64Unsafe offset).toNat = offset.toNat →
      (uint256ToU64Unsafe size).toNat = size.toNat → Meets allowed (f ()) s post) :
    Meets allowed (require (uint256FitsU64 offset && uint256FitsU64 size) error >>= f) s post := by
  refine require_meets fun hfits => ?_
  rw [Bool.and_eq_true, fitsU64_iff, fitsU64_iff] at hfits
  exact h (toU64_toNat _ hfits.1) (toU64_toNat _ hfits.2)

theorem charge_meets {cost : UInt64} {post : Unit → Active → Prop}
    (h : ∀ s', Extends s s' → post () s') : Meets allowed (charge cost) s post := by
  by_cases henough : cost ≤ s.frame.gas
  · exact (meets_of_ok (charge_ok henough)).mpr (h _ (.of_memory rfl rfl rfl))
  · exact (meets_of_error (charge_error henough)).mpr (htol.status _)

theorem expandMemory_meets {f : UInt64 → Op α}
    (h : ∀ cost s', Extends s s' → (size ≠ 0 → ¬Wraps (offset.toNat + size.toNat) →
      offset.toNat + size.toNat ≤ s'.frame.memory.data.length) → Meets allowed (f cost) s' post) :
    Meets allowed (expandMemory host offset size >>= f) s post := by
  have hrun := expandMemory_eq host offset size s
  cases hexpand : evmMemoryExpand host.alloc s.frame.memory offset size with
  | expanded cost mem =>
    rw [hexpand] at hrun
    refine (meets_bind_of_ok hrun).mpr (h _ _ (extends_expanded hexpand) ?_)
    intro hsize hend
    exact expanded_covers hsize hend hexpand
  | refused =>
    rw [hexpand] at hrun
    exact (meets_of_error (bind_of_error hrun)).mpr (htol.status _)
  | diverges =>
    rw [hexpand] at hrun
    exact (meets_of_error (bind_of_error hrun)).mpr htol.diverges

variable {offset size cost : UInt64}

theorem loadMemory_eq (h : offset.toNat + size.toNat ≤ s.frame.memory.data.length) :
    loadMemory offset size s =
      .ok (span (contents s.frame.memory) offset.toNat size.toNat) s := by
  unfold loadMemory
  rw [bind_of_ok (getFrame_eq s), evmMemoryLoad_eq h]
  rfl

omit htol in
theorem storeMemory_meets (h : offset.toNat + bytes.length ≤ s.frame.memory.data.length) :
    Meets allowed (storeMemory offset bytes) s fun _ s' =>
      Stored s s' ⟨offset.toNat, bytes⟩ := by
  obtain ⟨mem, hstore⟩ := evmMemoryStore_isSome h
  have hrun : storeMemory offset bytes s = .ok () (withMemory mem s) := by
    unfold storeMemory
    rw [bind_of_ok (getFrame_eq s), hstore]
    rfl
  have hlength := evmMemoryStore_length hstore
  exact (meets_of_ok hrun).mpr
    ⟨evmMemoryStore_contents hstore h, hlength.ge, fun _ => h.trans hlength.ge⟩

theorem push_items_meets (value : Word) :
    Meets allowed (push value) s fun _ s' =>
      s'.frame.stack.items = value :: s.frame.stack.items := by
  unfold push
  rw [meets_bind_of_ok (getFrame_eq s)]
  cases hpush : evmStackPush s.frame.stack value with
  | none =>
    have hrun : (defined .stack none >>= setStack : Op Unit) s = .error (.undefined .stack) s := rfl
    exact (meets_of_error hrun).mpr htol.stack
  | some stack =>
    have hrun : (defined .stack (some stack) >>= setStack : Op Unit) s =
        .ok () { s with frame := { s.frame with stack := stack } } := rfl
    refine (meets_of_ok hrun).mpr ?_
    dsimp only
    unfold evmStackPush at hpush
    split at hpush
    · cases hpush
      rfl
    · cases hpush

theorem push_meets (value : Word) :
    Meets allowed (push value) s fun _ s' =>
      s'.frame.stack.items.head? = some value :=
  (push_items_meets value).mono fun _ s' hitems => by rw [hitems, List.head?_cons]

/-- The region of an access lies inside the memory afterwards. -/
theorem accessMemory_meets {offset : Word} {width : UInt64} (hwidth : width ≠ 0)
    (hend : ¬Wraps (offset.toNat + width.toNat)) :
    Meets allowed (accessMemory host offset width cost) s fun start s' =>
      start.toNat = offset.toNat ∧ Extends s s' ∧
        start.toNat + width.toNat ≤ s'.frame.memory.data.length := by
  unfold accessMemory
  refine toU64_meets fun hfits => ?_
  have hstart := toU64_toNat offset hfits
  refine require_meets fun _ => ?_
  refine expandMemory_meets fun memCost s₁ hgrown hcovers => ?_
  refine require_meets fun _ => ?_
  refine meets_bind.mpr (charge_meets fun s₂ hpaid => ?_)
  have hinside := hcovers hwidth (by omega)
  exact meets_pure.mpr ⟨hstart, hgrown.trans hpaid, le_trans hinside hpaid.length_le⟩

theorem chargeCopy_meets {dest : Word} (hsize : size ≠ 0)
    (hend : ¬Wraps (dest.toNat + size.toNat)) :
    Meets allowed (chargeCopy host dest size cost) s fun start s' =>
      start.toNat = dest.toNat ∧ Extends s s' ∧
        start.toNat + size.toNat ≤ s'.frame.memory.data.length := by
  unfold chargeCopy
  refine toU64_meets fun hfits => ?_
  have hstart := toU64_toNat dest hfits
  refine require_meets fun _ => ?_
  refine expandMemory_meets fun memCost s₁ hgrown hcovers => ?_
  refine meets_bind.mpr (charge_meets fun s₂ hpaid => ?_)
  have hinside := hcovers hsize (by omega)
  exact meets_pure.mpr ⟨hstart, hgrown.trans hpaid, le_trans hinside hpaid.length_le⟩

theorem chargeKeccak256_meets (hsize : size ≠ 0) (hend : ¬Wraps (offset.toNat + size.toNat)) :
    Meets allowed (chargeKeccak256 host offset size cost) s fun _ s' =>
      Extends s s' ∧ offset.toNat + size.toNat ≤ s'.frame.memory.data.length := by
  unfold chargeKeccak256
  refine require_meets fun _ => ?_
  refine expandMemory_meets fun memCost s₁ hgrown hcovers => ?_
  refine require_meets fun _ => ?_
  refine require_meets fun _ => ?_
  refine require_meets fun _ => ?_
  refine require_meets fun _ => ?_
  refine charge_meets fun s₂ hpaid => ?_
  exact ⟨hgrown.trans hpaid, le_trans (hcovers hsize hend) hpaid.length_le⟩

theorem chargeLog_meets (topicCount : ℕ)
    (hend : size ≠ 0 → ¬Wraps (offset.toNat + size.toNat)) :
    Meets allowed (chargeLog host topicCount offset size) s fun _ s' =>
      Extends s s' ∧
        (size ≠ 0 → offset.toNat + size.toNat ≤ s'.frame.memory.data.length) := by
  unfold chargeLog
  refine require_meets fun _ => ?_
  refine require_meets fun _ => ?_
  refine require_meets fun _ => ?_
  refine expandMemory_meets fun memCost s₁ hgrown hcovers => ?_
  refine require_meets fun _ => ?_
  refine charge_meets fun s₂ hpaid => ?_
  refine ⟨hgrown.trans hpaid, fun hsize => ?_⟩
  exact le_trans (hcovers hsize (hend hsize)) hpaid.length_le

end Walks

section Stores

def copyOf (source : Bytes) (dest src size : Word) : Write UInt8 :=
  ⟨dest.toNat, zeroPadded source src (uint256ToU64Unsafe size)⟩

def codeAt (evm : Evm) (addr : Address) : Bytes :=
  match evm.state with
  | some ws => wsGetCode ws addr
  | none => []

def writeOf (s : Active) : Opcode → Option (Write UInt8)
  | .mstore => some ⟨(operand s 0).toNat, uint256ToBytesBe (operand s 1)⟩
  | .mstore8 => some ⟨(operand s 0).toNat, [(operand s 1).limb0.toUInt8]⟩
  | .calldatacopy => some (copyOf s.frame.input (operand s 0) (operand s 1) (operand s 2))
  | .codecopy => some (copyOf s.frame.code (operand s 0) (operand s 1) (operand s 2))
  | .returndatacopy => some ⟨(operand s 0).toNat,
      (s.evm.returnData.drop (operand s 1).toNat).take (operand s 2).toNat⟩
  | .extcodecopy => some (copyOf (codeAt s.evm (addressFromUint256 (operand s 0))) (operand s 1)
      (operand s 2) (operand s 3))
  | _ => none

variable {cost : UInt64} {allowed : Halt → Prop} [htol : Tolerates allowed]

theorem zeroPadded_length (source : Bytes) (src : Word) (size : UInt64) :
    (zeroPadded source src size).length = size.toNat := by
  unfold zeroPadded
  dsimp only
  split
  · simp only [List.length_append, List.length_replicate, List.length_take]
    omega
  · simp only [List.nil_append, List.length_replicate, List.length_nil, Nat.sub_zero]

/-- A program that makes the write, where its end does not wrap round. -/
def Writes (allowed : Halt → Prop) (m : Op Unit) (s : Active) (w : Write UInt8) : Prop :=
  Clear w → Meets allowed m s fun _ s' => Stored s s' w

omit htol in
/-- What was done before without a write does not count. -/
theorem Writes.stored {s₁ : Active} {m : Op Unit} (hm : Writes allowed m s₁ w) (h : Extends s s₁)
    (hend : Clear w) : Meets allowed m s₁ fun _ s' => Stored s s' w :=
  (hm hend).mono fun _ _ hstored => .of_extends h hstored

/-- The stores of one word or one byte. -/
theorem access_store_writes {offset : Word} {width : UInt64} (hwidth : width.toNat = bytes.length)
    (hne : bytes ≠ []) : Writes allowed (accessMemory host offset width cost >>= fun start =>
      storeMemory start bytes) s ⟨offset.toNat, bytes⟩ := by
  intro hend
  have hstop : ¬Wraps (offset.toNat + bytes.length) := hend hne
  have hpos : width ≠ 0 := by
    rintro rfl
    exact hne (List.eq_nil_of_length_eq_zero hwidth.symm)
  refine meets_bind.mpr ((accessMemory_meets hpos (by omega)).mono ?_)
  rintro start s₁ ⟨hstart, hgrown, hinside⟩
  refine (storeMemory_meets (by omega)).mono fun _ s₂ hstored => ?_
  exact .of_extends hgrown (hstart ▸ hstored)

theorem opMstore_writes : Writes allowed (opMstore host cost) s
    ⟨(operand s 0).toNat, uint256ToBytesBe (operand s 1)⟩ := by
  intro hend
  have hlength := toBytesBe_length (operand s 1)
  have hne : uint256ToBytesBe (operand s 1) ≠ [] := by
    intro hnil
    rw [hnil] at hlength
    cases hlength
  unfold opMstore
  refine hasItems_meets fun hitems => ?_
  rw [popTwo_meets (by omega)]
  exact Writes.stored (access_store_writes hlength.symm hne) (extends_dropItems s 2) hend

theorem opMstore8_writes : Writes allowed (opMstore8 host cost) s
    ⟨(operand s 0).toNat, [(operand s 1).limb0.toUInt8]⟩ := by
  intro hend
  unfold opMstore8
  refine hasItems_meets fun hitems => ?_
  rw [popTwo_meets (by omega)]
  exact (access_store_writes rfl (List.cons_ne_nil _ _)).stored (extends_dropItems s 2) hend

/-- A store behind the charge of a copy. -/
theorem chargeCopy_store_writes {dest : Word} {size : UInt64} {rest : UInt64 → Op Unit}
    (hlength : bytes.length = size.toNat) (hsize : size ≠ 0)
    (hrest : ∀ start s₁, Extends s s₁ → rest start s₁ = storeMemory start bytes s₁) :
    Writes allowed (chargeCopy host dest size cost >>= rest) s ⟨dest.toNat, bytes⟩ := by
  intro hend
  have hne : bytes ≠ [] := by
    rintro rfl
    exact hsize (UInt64.toNat_inj.mp hlength.symm)
  have hstop : ¬Wraps (dest.toNat + bytes.length) := hend hne
  refine meets_bind.mpr ((chargeCopy_meets hsize (by omega)).mono ?_)
  rintro start s₁ ⟨hstart, hgrown, hinside⟩
  rw [meets_congr (hrest start s₁ hgrown)]
  refine (storeMemory_meets (by omega)).mono fun _ s₂ hstored => ?_
  exact .of_extends hgrown (hstart ▸ hstored)

theorem size_eq_zero {size : Word} (h : uint256IsZero size = true) :
    uint256ToU64Unsafe size = 0 := by
  have hvalue := (isZero_iff size).mp h
  rw [← UInt64.toNat_inj, toU64_toNat size (by omega), hvalue]
  rfl

theorem size_ne_zero {size : Word} (h : ¬uint256IsZero size = true)
    (hvalue : (uint256ToU64Unsafe size).toNat = size.toNat) : uint256ToU64Unsafe size ≠ 0 := by
  intro hzero
  rw [hzero] at hvalue
  exact h ((isZero_iff size).mpr hvalue.symm)

/-- CALLDATACOPY, CODECOPY and EXTCODECOPY behind their operands; nothing is copied where the
size is zero. -/
theorem copy_writes {source : Bytes} {dest src size : Word} {rest : UInt64 → UInt64 → Op Unit}
    (hrest : ∀ size start s₁, Extends s s₁ →
      rest size start s₁ = storeMemory start (zeroPadded source src size) s₁) :
    Writes allowed (if uint256IsZero size = true then charge cost
        else toU64 size >>= fun size => chargeCopy host dest size cost >>= rest size) s
      (copyOf source dest src size) := by
  intro hend
  have hlength := zeroPadded_length source src (uint256ToU64Unsafe size)
  split
  · next hzero =>
    have hnone : zeroPadded source src (uint256ToU64Unsafe size) = [] := by
      rw [size_eq_zero hzero] at hlength ⊢
      exact List.eq_nil_of_length_eq_zero hlength
    refine charge_meets fun s₁ hpaid => ?_
    rw [copyOf, hnone]
    exact .nothing hpaid _
  · next hzero =>
    refine toU64_meets fun hfits => ?_
    exact chargeCopy_store_writes hlength (size_ne_zero hzero (toU64_toNat _ hfits)) (hrest _) hend

theorem copyOp_writes {source : CallFrame → Bytes}
    (hsource : ∀ s₁, Extends s s₁ → source s₁.frame = source s.frame) :
    Writes allowed (copyOp host source cost) s
      (copyOf (source s.frame) (operand s 0) (operand s 1) (operand s 2)) := by
  intro hend
  unfold copyOp
  refine hasItems_meets fun hitems => ?_
  rw [popTwo_meets (by omega), meets_bind_of_ok (pop_next (by omega))]
  refine (copy_writes fun size start s₁ hgrown => ?_).stored (extends_dropItems s 3) hend
  rw [bind_of_ok (getFrame_eq s₁), hsource s₁ ((extends_dropItems s 3).trans hgrown)]

theorem wsGetCode_warmed (ws : World) (warmed addr : Address) :
    wsGetCode (wsWarmAddress host ws warmed).2 addr = wsGetCode ws addr := by
  unfold wsWarmAddress
  split <;> rfl

theorem opExtcodecopy_writes : Writes allowed (opExtcodecopy host) s
    (copyOf (codeAt s.evm (addressFromUint256 (operand s 0))) (operand s 1) (operand s 2)
      (operand s 3)) := by
  intro hend
  unfold opExtcodecopy
  refine requireState_meets fun ws hstate => ?_
  have hcode : codeAt s.evm (addressFromUint256 (operand s 0)) =
      wsGetCode ws (addressFromUint256 (operand s 0)) := by
    rw [codeAt, hstate]
  rw [hcode] at hend ⊢
  refine hasItems_meets fun hitems => ?_
  rw [popTwo_meets (by omega),
    meets_bind_of_ok (pop_next (by omega)), meets_bind_of_ok (pop_next (by omega)),
    meets_bind_of_ok (updateState_eq _ _)]
  refine (copy_writes fun size start s₁ _ => ?_).stored (.of_memory rfl rfl rfl) hend
  rw [wsGetCode_warmed]

theorem opReturndatacopy_writes : Writes allowed (opReturndatacopy host cost) s
    ⟨(operand s 0).toNat,
      (s.evm.returnData.drop (operand s 1).toNat).take (operand s 2).toNat⟩ := by
  intro hend
  unfold opReturndatacopy
  refine hasItems_meets fun hitems => ?_
  rw [popTwo_meets (by omega), meets_bind_of_ok (pop_next (by omega))]
  split
  · next hzero =>
    refine charge_meets fun s₁ hpaid => ?_
    rw [(isZero_iff _).mp hzero, List.take_zero]
    exact .nothing ((extends_dropItems s 3).trans hpaid) _
  · next hzero =>
    refine toU64_meets fun hsize => ?_
    refine toU64_meets fun hsrc => ?_
    rw [meets_bind_of_ok (getEvm_eq _)]
    refine require_meets fun hlength => ?_
    replace hlength := of_decide_eq_true hlength
    rw [toU64_toNat _ hsize, toU64_toNat _ hsrc] at *
    refine (chargeCopy_store_writes ?_ (size_ne_zero hzero (toU64_toNat _ hsize))
      fun _ _ _ => rfl).stored (extends_dropItems s 3) hend
    rw [List.length_take, List.length_drop, toU64_toNat _ hsize]
    exact Nat.min_eq_left (Nat.le_sub_of_add_le' hlength)

omit htol in
theorem next_meets {op : Op Unit} {post : Active → Prop}
    (h : Meets allowed op s fun _ s' => post s') :
    Meets allowed (next op) s fun _ s' => post s' :=
  meets_bind.mpr (h.mono fun _ _ hpost => meets_pure.mpr hpost)

/-- Every instruction that stores leaves its write in the memory, or fails without an access
outside the memory. -/
theorem handler_stores {cost : Opcode → UInt64}
    (hwrite : writeOf s opcode = some w) (hend : Clear w) :
    Meets allowed (handler host cost schedule opcode) s fun _ s' => Stored s s' w := by
  cases opcode <;> simp only [writeOf, reduceCtorEq, Option.some.injEq] at hwrite <;> subst hwrite
  case mstore => exact next_meets (opMstore_writes hend)
  case mstore8 => exact next_meets (opMstore8_writes hend)
  case calldatacopy => exact next_meets (copyOp_writes (fun _ h => h.input) hend)
  case codecopy => exact next_meets (copyOp_writes (fun _ h => h.code) hend)
  case returndatacopy => exact next_meets (opReturndatacopy_writes hend)
  case extcodecopy => exact next_meets (opExtcodecopy_writes hend)

end Stores

section Reads

variable {cost : UInt64} {allowed : Halt → Prop} [htol : Tolerates allowed]

theorem opMload_meets (hend : ¬Wraps ((operand s 0).toNat + 32)) :
    Meets allowed (opMload host cost) s fun _ s' => s'.frame.stack.items.head? =
      some (uint256FromBytesBe (span (contents s.frame.memory) (operand s 0).toNat 32)) := by
  unfold opMload
  refine hasItems_meets fun hitems => ?_
  rw [meets_bind_of_ok (pop_first hitems)]
  refine meets_bind.mpr ((accessMemory_meets (by decide) hend).mono ?_)
  rintro start s₁ ⟨hstart, hgrown, hinside⟩
  rw [meets_bind_of_ok (loadMemory_eq hinside), hgrown.contents, hstart]
  exact push_meets _

section

variable (hend : (operand s 1).toNat ≠ 0 → ¬Wraps ((operand s 0).toNat + (operand s 1).toNat))
include hend

theorem opKeccak256_meets :
    Meets allowed (opKeccak256 host cost) s fun _ s' => s'.frame.stack.items.head? =
      some (hashToUint256 (host.keccak256
        (span (contents s.frame.memory) (operand s 0).toNat (operand s 1).toNat))) := by
  unfold opKeccak256
  refine hasItems_meets fun hitems => ?_
  rw [popTwo_meets (by omega)]
  split
  · next hzero =>
    refine meets_bind.mpr (charge_meets fun s₁ _ => ?_)
    rw [(isZero_iff _).mp hzero, span_zero]
    exact push_meets _
  · next hzero =>
    refine fits_meets fun hoffset hsize => ?_
    have hstop := hend fun heq => hzero ((isZero_iff _).mpr heq)
    refine meets_bind.mpr ((chargeKeccak256_meets (size_ne_zero hzero hsize) ?_).mono ?_)
    · rw [hoffset, hsize]
      exact hstop
    rintro _ s₁ ⟨hgrown, hinside⟩
    rw [meets_bind_of_ok (loadMemory_eq hinside), hgrown.contents, hoffset, hsize]
    exact push_meets _

omit hend in
theorem logData_meets
    (hinside : size ≠ 0 → offset.toNat + size.toNat ≤ s.frame.memory.data.length) :
    Meets allowed (logData host offset size) s fun data _ =>
      data = span (contents s.frame.memory) offset.toNat size.toNat := by
  unfold logData
  split
  · next hzero =>
    rw [hzero]
    exact meets_pure.mpr rfl
  · next hsize =>
    refine require_meets fun _ => ?_
    exact (meets_of_ok (loadMemory_eq (hinside hsize))).mpr rfl

omit hend in
theorem setLogs_eq (logs : List EvmLog) (capacity : ℕ) (s : Active) :
    setLogs logs capacity s =
      .ok () { s with evm := { s.evm with logs := logs, logsCapacity := capacity } } := rfl

omit hend in
theorem evmLogVecPush_meets (log : EvmLog) :
    Meets allowed (evmLogVecPush host log) s fun _ s' =>
      s'.evm.logs.getLast? = some log := by
  unfold evmLogVecPush
  rw [meets_bind_of_ok (getEvm_eq s)]
  split
  · refine require_meets fun _ => ?_
    exact (meets_of_ok (setLogs_eq _ _ s)).mpr List.getLast?_concat
  · exact (meets_of_ok (setLogs_eq _ _ s)).mpr List.getLast?_concat

theorem opLogN_meets {topicCount : ℕ} :
    Meets allowed (opLogN host topicCount) s fun _ s' =>
      s'.evm.logs.getLast?.map EvmLog.data =
        some (span (contents s.frame.memory) (operand s 0).toNat (operand s 1).toNat) := by
  unfold opLogN
  refine hasItems_meets fun hitems => ?_
  rw [meets_bind_of_ok (getFrame_eq s)]
  refine require_meets fun _ => ?_
  rw [popTwo_meets (by omega)]
  refine fits_meets fun hoffset hsize => ?_
  have hrest : topicCount ≤ (dropItems (1 + 1) s).frame.stack.items.length := by
    change _ ≤ (s.frame.stack.items.drop 2).length
    rw [List.length_drop]
    omega
  rw [meets_bind_of_ok (popAll_eq hrest)]
  refine meets_bind.mpr ((chargeLog_meets topicCount ?_).mono ?_)
  · intro hne
    rw [hoffset, hsize]
    refine hend fun heq => hne ?_
    rw [← UInt64.toNat_inj, hsize]
    exact heq
  rintro _ s₁ ⟨hgrown, hinside⟩
  refine meets_bind.mpr ((logData_meets hinside).mono fun data s₂ hdata => ?_)
  rw [hgrown.contents, hoffset, hsize] at hdata
  rw [meets_bind_of_ok (getFrame_eq s₂)]
  refine (evmLogVecPush_meets _).mono fun _ s₃ hlast => ?_
  rw [hlast, Option.map_some, hdata]
  rfl

/-- RETURN and REVERT: the region they name lies inside the memory. -/
theorem returnRange_meets :
    Meets allowed (returnRange host) s fun range s' =>
      Extends s s' ∧ range.1.toNat = (operand s 0).toNat ∧ range.2.toNat = (operand s 1).toNat ∧
        (range.2 ≠ 0 → range.1.toNat + range.2.toNat ≤ s'.frame.memory.data.length) := by
  unfold returnRange
  refine hasItems_meets fun hitems => ?_
  rw [popTwo_meets (by omega)]
  refine fits_meets fun hoffset hsize => ?_
  refine expandMemory_meets fun memCost s₁ hgrown hcovers => ?_
  refine meets_bind.mpr (charge_meets fun s₂ hpaid => meets_pure.mpr ?_)
  refine ⟨(extends_dropItems s _).trans (hgrown.trans hpaid), hoffset, hsize, fun hne => ?_⟩
  refine le_trans (hcovers hne ?_) hpaid.length_le
  rw [hoffset, hsize]
  refine hend fun heq => hne ?_
  rw [← UInt64.toNat_inj, hsize]
  exact heq

end

end Reads

section Inputs

variable {allowed : Halt → Prop} [htol : Tolerates allowed]

theorem giveUp_meets {post : Bool → Active → Prop} (h : ∀ s', post false s') :
    Meets allowed giveUp s post :=
  meets_bind.mpr ((push_meets uint256Zero).mono fun _ s' _ => meets_pure.mpr (h s'))

theorem callInput_eq {r : CallRegions}
    (hinside : regionStop r.argsOffset r.argsSize ≤ s.frame.memory.data.length) :
    callInput r s =
      .ok (span (contents s.frame.memory) r.argsOffset.toNat r.argsSize.toNat) s := by
  unfold callInput
  split
  · next hzero =>
    rw [hzero]
    rfl
  · next hsize =>
    rw [regionStop, if_neg hsize] at hinside
    exact loadMemory_eq hinside

theorem switchTo_eq (child : CallFrame) (r : CallRegions) (s : Active) :
    switchTo child r s = .ok () (after (switchTo child r) s) := rfl

/-- The pool has a memory for a child, or may run out of them. -/
def PoolServed (allowed : Halt → Prop) (s : Active) : Prop :=
  allowed (.undefined .pool) ∨ s.evm.memoryPoolDepth < evmMaxCallDepth

/-- A child waits to be started, with the given input. -/
def Waits (s : Active) (bytes : Bytes) : Prop :=
  ∃ child, s.evm.pendingFrame = some child ∧ child.input = bytes

/-- A child that is entered reads its input out of the memory of the caller. -/
theorem enterChild_meets {setup : CallSetup} {params : ChildFrameParams}
    (hpool : PoolServed allowed s)
    (hinside : regionStop setup.regions.argsOffset setup.regions.argsSize ≤
      s.frame.memory.data.length) :
    Meets allowed (enterChild setup params) s fun started s' => started = true →
      Waits s' (span (contents s.frame.memory) setup.regions.argsOffset.toNat
        setup.regions.argsSize.toNat) := by
  unfold enterChild
  refine requireState_meets fun ws _ => ?_
  rw [meets_bind_of_ok (getEvm_eq s)]
  split
  · split
    · rw [meets_bind_of_ok (callInput_eq hinside), meets_bind_of_ok (getFrame_eq s),
        meets_bind_of_ok (switchTo_eq _ _ s)]
      exact meets_pure.mpr fun _ => ⟨_, rfl, rfl⟩
    · next hfull => exact (meets_of_error rfl).mpr (hpool.resolve_right hfull)
  · exact giveUp_meets fun _ => nofun

theorem startCall_meets {transfers : Bool} {params : ParamsOf} {setup : CallSetup} {ws : World}
    (hws : s.evm.state = some ws) (hpool : PoolServed allowed s)
    (hinside : regionStop setup.regions.argsOffset setup.regions.argsSize ≤
      s.frame.memory.data.length) :
    Meets allowed (startCall host transfers params setup) s fun started s' => started = true →
      Waits s' (span (contents s.frame.memory) setup.regions.argsOffset.toNat
        setup.regions.argsSize.toNat) := by
  have hsend := sendValue_eq host transfers setup hws
  unfold startCall
  cases hafford : affords host ws s.frame.address setup.value with
  | false =>
    rw [hafford] at hsend
    rw [meets_bind_of_ok hsend]
    exact giveUp_meets fun _ => nofun
  | true =>
    rw [hafford] at hsend
    rw [meets_bind_of_ok hsend, if_pos rfl, meets_bind_of_ok (getFrame_eq _)]
    exact enterChild_meets (s := transferred host transfers setup s) hpool hinside

def inputOf (kind : CallKind) (s : Active) : ℕ × ℕ :=
  ((kind.args s.frame.stack.items).argsOffset.toNat,
    (kind.args s.frame.stack.items).argsSize.toNat)

/-- The input of a call lies inside the memory, or the arena serves the larger end of the two
regions. -/
def InputServed (kind : CallKind) (s : Active) : Prop :=
  regionStop (operandRegions (kind.args s.frame.stack.items)).argsOffset
      (operandRegions (kind.args s.frame.stack.items)).argsSize ≤ s.frame.memory.data.length ∨
    Granted s.frame.memory 0 (stopOf (operandRegions (kind.args s.frame.stack.items)))

theorem validateMemoryArgs_fits {args : CallStackArgs} {regions : CallRegions}
    (h : validateMemoryArgs args = some regions) :
    args.argsOffset.toNat < 2 ^ 64 ∧ args.argsSize.toNat < 2 ^ 64 := by
  unfold validateMemoryArgs at h
  split at h
  · next hfits =>
    simp only [Bool.and_eq_true, fitsU64_iff] at hfits
    exact ⟨hfits.1.1.1, hfits.1.1.2⟩
  · cases h

theorem op_meets [harena : OnArena host] (kind : CallKind) (hserved : InputServed kind s)
    (hpool : PoolServed allowed s) :
    Meets allowed (kind.op host) s fun started s' => started = true →
      Waits s' (span (contents s.frame.memory) (inputOf kind s).1 (inputOf kind s).2) := by
  obtain ⟨params, hop⟩ := kind.op_eq host
  rw [hop]
  unfold callWith
  refine requireState_meets fun ws hstate => ?_
  have hcases := kind.prepare_cases host ws s
  generalize hprep : kind.prepare host ws s = result at hcases
  cases hcases with
  | rejected _ => exact (meets_of_error (bind_of_error hprep)).mpr (htol.status _)
  | diverges _ _ _ _ _ => exact (meets_of_error (bind_of_error hprep)).mpr htol.diverges
  | deep _ _ =>
    rw [meets_bind_of_ok hprep]
    exact giveUp_meets fun _ => nofun
  | @made regions memCost left mem hadmitted hcost hgas hleft hmem =>
    rw [meets_bind_of_ok hprep]
    have hgrown := extends_called hmem
    have hfits := validateMemoryArgs_fits hadmitted.valid
    obtain rfl := validateMemoryArgs_inv hadmitted.valid
    have hinside : regionStop (operandRegions (kind.args s.frame.stack.items)).argsOffset
        (operandRegions (kind.args s.frame.stack.items)).argsSize ≤ mem.data.length := by
      rcases hserved with hinside | hgranted
      · exact le_trans hinside hgrown.length_le
      · rw [harena.alloc_eq] at hmem
        exact le_trans (le_max_left _ _) ((callMemory_covers_iff hcost hmem).mpr hgranted)
    have hws : (withMemory mem (paid host (kind.args s.frame.stack.items) left
        (dropItems kind.count s))).evm.state = some
          (wsWarmAddress host ws (addressFromUint256 (kind.args s.frame.stack.items).addr)).2 :=
      congrArg (Option.map _) hstate
    refine (startCall_meets hws hpool hinside).mono fun started s' hchild hstart => ?_
    obtain ⟨child, hpending, hinput⟩ := hchild hstart
    have hsame : contents mem = contents s.frame.memory := hgrown.contents
    refine ⟨child, hpending, hinput.trans ?_⟩
    change span (contents mem) (uint256ToU64Unsafe _).toNat (uint256ToU64Unsafe _).toNat = _
    rw [hsame, toU64_toNat _ hfits.1, toU64_toNat _ hfits.2]
    rfl

end Inputs

section Instructions

def readOf (s : Active) : Opcode → Option (ℕ × ℕ)
  | .mload => some ((operand s 0).toNat, 32)
  | .keccak256 | .log _ | .return_ | .revert => some ((operand s 0).toNat, (operand s 1).toNat)
  | .call => some (inputOf .call s)
  | .callcode => some (inputOf .callcode s)
  | .delegatecall => some (inputOf .delegatecall s)
  | .staticcall => some (inputOf .staticcall s)
  | _ => none

def HandsBack (host : Host) (s : Active) (offset size : UInt64) (bytes : Bytes) : Prop :=
  (size = 0 ∨ evmMemoryLoad s.frame.memory offset size = some bytes) ∧
    ∀ evm, copyReturnData host s.evm s.frame.memory offset size = some evm →
      evm.returnData = bytes

def HasRead (host : Host) (bytes : Bytes) (result : Option FrameResult) (s : Active) :
    Opcode → Prop
  | .mload => s.frame.stack.items.head? = some (uint256FromBytesBe bytes)
  | .keccak256 => s.frame.stack.items.head? = some (hashToUint256 (host.keccak256 bytes))
  | .log _ => s.evm.logs.getLast?.map EvmLog.data = some bytes
  | .return_ => ∃ offset size, result = some (.return_ offset size) ∧
      HandsBack host s offset size bytes
  | .revert => ∃ offset size, result = some (.revert offset size) ∧
      HandsBack host s offset size bytes
  | .call | .callcode | .delegatecall | .staticcall => result = some .call → Waits s bytes
  | _ => True

/-- The input of a call is served. -/
def CallServed (s : Active) : Opcode → Prop
  | .call => InputServed .call s
  | .callcode => InputServed .callcode s
  | .delegatecall => InputServed .delegatecall s
  | .staticcall => InputServed .staticcall s
  | _ => True

variable {allowed : Halt → Prop} [htol : Tolerates allowed]

theorem copyReturnData_data {evm evm' : Evm} {mem : EvmMemory}
    (h : copyReturnData host evm mem offset size = some evm') :
    evm'.returnData = span (contents mem) offset.toNat size.toNat := by
  unfold copyReturnData at h
  split at h
  · next hzero =>
    cases h
    rw [hzero]
    rfl
  · split at h
    · cases h
    · next bytes hload =>
      rw [evmMemoryLoad_eq (inside_of_load hload)] at hload
      cases hload
      dsimp only at h
      split at h
      · cases h
        rfl
      · split at h
        · cases h
          rfl
        · cases h

theorem handsBack_of_inside {s' : Active} {range : UInt64 × UInt64} {offset size : ℕ}
    (hgrown : Extends s s') (hoffset : range.1.toNat = offset) (hsize : range.2.toNat = size)
    (hinside : range.2 ≠ 0 → range.1.toNat + range.2.toNat ≤ s'.frame.memory.data.length) :
    HandsBack host s' range.1 range.2 (span (contents s.frame.memory) offset size) := by
  rw [← hoffset, ← hsize, ← hgrown.contents]
  refine ⟨?_, fun evm hcopy => copyReturnData_data hcopy⟩
  by_cases hzero : range.2 = 0
  · exact Or.inl hzero
  · exact Or.inr (evmMemoryLoad_eq (hinside hzero))

omit htol in
theorem nextCall_meets {op : Op Bool}
    (h : Meets allowed op s fun started s' => started = true → Waits s' bytes) :
    Meets allowed (nextCall op) s fun result s' => result = some .call → Waits s' bytes := by
  refine meets_bind.mpr (h.mono fun started s' hchild => ?_)
  cases started with
  | true => exact meets_pure.mpr fun _ => hchild rfl
  | false => exact meets_pure.mpr nofun

/-- Every instruction that reads finds the contents of the memory, or fails without an access
outside the memory. -/
theorem handler_reads [OnArena host] {region : ℕ × ℕ} (hread : readOf s opcode = some region)
    (hend : region.2 ≠ 0 → ¬Wraps (region.1 + region.2)) (hserved : CallServed s opcode)
    (hpool : isCallOp opcode = true → PoolServed allowed s) :
    Meets allowed (handler host cost schedule opcode) s fun result s' =>
      HasRead host (span (contents s.frame.memory) region.1 region.2) result s' opcode := by
  cases opcode <;> simp only [readOf, reduceCtorEq, Option.some.injEq] at hread <;> subst hread
  case mload => exact next_meets (opMload_meets (hend (Nat.succ_ne_zero 31)))
  case keccak256 => exact next_meets (opKeccak256_meets hend)
  case log topicCount => exact next_meets (opLogN_meets hend)
  case return_ | revert =>
    refine meets_bind.mpr ((returnRange_meets hend).mono ?_)
    rintro range s' ⟨hgrown, hoffset, hsize, hinside⟩
    exact meets_pure.mpr ⟨_, _, rfl, handsBack_of_inside hgrown hoffset hsize hinside⟩
  case call => exact nextCall_meets (op_meets .call hserved (hpool rfl))
  case callcode => exact nextCall_meets (op_meets .callcode hserved (hpool rfl))
  case delegatecall => exact nextCall_meets (op_meets .delegatecall hserved (hpool rfl))
  case staticcall => exact nextCall_meets (op_meets .staticcall hserved (hpool rfl))

theorem dispatch_meets {allowed : Halt → Prop} {post : Option FrameResult → Active → Prop}
    (hnext : nextOpcode s.frame = some opcode) :
    Meets allowed (dispatch host) s post ↔
      Meets allowed (handler host (gasTable s.evm.fork) (gasSchedule s.evm.fork) opcode)
        (fetched s) post := by
  rw [Meets, Meets, dispatch_eq, hnext]

theorem writeOf_fetched (s : Active) (opcode : Opcode) :
    writeOf (fetched s) opcode = writeOf s opcode := by
  cases opcode <;> rfl

theorem readOf_fetched (s : Active) (opcode : Opcode) :
    readOf (fetched s) opcode = readOf s opcode := by
  cases opcode <;> rfl

theorem dispatch_stores (hnext : nextOpcode s.frame = some opcode)
    (hwrite : writeOf s opcode = some w) (hclear : Clear w) :
    Meets allowed (dispatch host) s fun _ s' => Stored s s' w := by
  have hfetched : Extends s (fetched s) := .of_memory rfl rfl rfl
  rw [dispatch_meets hnext]
  exact (handler_stores ((writeOf_fetched s opcode).trans hwrite) hclear).mono
    fun _ _ hstored => .of_extends hfetched hstored

theorem dispatch_reads [OnArena host] (hnext : nextOpcode s.frame = some opcode)
    {region : ℕ × ℕ} (hread : readOf s opcode = some region)
    (hend : region.2 ≠ 0 → ¬Wraps (region.1 + region.2)) (hserved : CallServed s opcode)
    (hpool : isCallOp opcode = true → PoolServed allowed s) :
    Meets allowed (dispatch host) s fun result s' =>
      HasRead host (span (contents s.frame.memory) region.1 region.2) result s' opcode := by
  have hcall : CallServed (fetched s) opcode := by
    cases opcode <;> exact hserved
  rw [dispatch_meets hnext]
  exact handler_reads ((readOf_fetched s opcode).trans hread) hend hcall hpool

/-- The memory behaves as the array `cells`: what the next instruction reads is in `cells`,
what it writes changes `cells`, and it makes no access outside the memory. Regions that end
above 2^63 are left out. -/
structure Serves (host : Host) (s : Active) (cells : ℕ → UInt8) : Prop where
  reads : ∀ opcode region, nextOpcode s.frame = some opcode → readOf s opcode = some region →
    (region.2 ≠ 0 → region.1 + region.2 ≤ 2 ^ 63) →
      Meets StaysInside (dispatch host) s fun result s' =>
        HasRead host (span cells region.1 region.2) result s' opcode
  writes : ∀ opcode w, nextOpcode s.frame = some opcode → writeOf s opcode = some w →
    EndsBy (2 ^ 63) w → Meets StaysInside (dispatch host) s fun _ s' =>
      contents s'.frame.memory = overlay cells w

theorem serves_contents [OnArena host]
    (hserved : ∀ opcode, nextOpcode s.frame = some opcode → CallServed s opcode) :
    Serves host s (contents s.frame.memory) where
  reads opcode region hnext hread hend :=
    dispatch_reads hnext hread (fun hsize hwraps => absurd (hend hsize) (by omega))
      (hserved opcode hnext) fun _ => Or.inl (by rintro ⟨⟩)
  writes opcode w hnext hwrite hend :=
    (dispatch_stores hnext hwrite hend.clear).mono fun _ _ hstored => hstored.contents

end Instructions

section Runs

/-- The writes to the memory of one frame, the last one first. -/
abbrev Log := List (Write UInt8)

def nextWrite (s : Active) : Option (Write UInt8) := (nextOpcode s.frame).bind (writeOf s)

def delivered (m : Machine) : Write UInt8 :=
  ⟨m.active.frame.outputOffset.toNat,
    m.active.evm.returnData.take m.active.frame.outputSize.toNat⟩

/-- The logs of the frames after a step from `m` to `m'`: the instruction writes to its own
frame, a child starts with nothing written, and the end of a child writes to its parent. -/
def logsAfter (host : Host) (m m' : Machine) : List Log → List Log
  | [] => []
  | log :: logs =>
    match dispatch host m.active with
    | .ok none _ => ((nextWrite m.active).toList ++ log) :: logs
    | .ok (some .call) _ => [] :: log :: logs
    | _ =>
      match logs with
      | [] => []
      | saved :: logs => (delivered m' :: saved) :: logs

/-- The write of a step is in range: an instruction writes up to 2^63, and a child leaves its
data inside the memory of its parent. -/
def InRange (host : Host) (m m' : Machine) : Prop :=
  match dispatch host m.active with
  | .ok none _ => ∀ w, nextWrite m.active = some w → EndsBy (2 ^ 63) w
  | .ok (some .call) _ => True
  | _ => EndsBy m'.active.frame.memory.data.length (delivered m')

/-- A run from `m₀`, with the writes to the memory of every frame. -/
inductive Logged (host : Host) (m₀ : Machine) : Machine → List Log → Prop
  | start : Logged host m₀ m₀ [[]]
  | step {m m' : Machine} {logs : List Log} (hrun : Logged host m₀ m logs)
      (hstep : step host m = .running m') (hrange : InRange host m m') :
      Logged host m₀ m' (logsAfter host m m' logs)

/-- The frame holds the bytes last written to it, and zeros elsewhere. -/
def Recalls (frame : CallFrame) (log : Log) : Prop := contents frame.memory = replay 0 log

variable {m m' : Machine}

theorem writeOf_none (h : isStoreOp opcode = false) : writeOf s opcode = none := by
  cases opcode <;> first | rfl | cases h

theorem writeOf_some (h : isStoreOp opcode = true) : ∃ w, writeOf s opcode = some w := by
  cases opcode <;> first | exact ⟨_, rfl⟩ | cases h

variable {log : Log}

/-- A frame that goes on has made the write of its instruction. -/
theorem goesOn_contents (h : dispatch host s = .ok none s')
    (hrange : ∀ w, nextWrite s = some w → EndsBy (2 ^ 63) w) (hlog : Recalls s.frame log) :
    Recalls s'.frame ((nextWrite s).toList ++ log) := by
  unfold Recalls at hlog ⊢
  obtain ⟨opcode, hnext, hrun⟩ := dispatch_inv h (by simp)
  rw [nextWrite, hnext, Option.bind_some] at hrange ⊢
  cases hstore : isStoreOp opcode with
  | false =>
    rw [writeOf_none hstore]
    have hgrown := (handler_extends hstore).ok hrun
    exact hgrown.contents.trans hlog
  | true =>
    obtain ⟨w, hwrite⟩ := writeOf_some (s := s) hstore
    rw [hwrite] at hrange ⊢
    have hmeets : Meets StaysInside (dispatch host) s fun _ s' => Stored s s' w :=
      dispatch_stores hnext hwrite (hrange w rfl).clear
    have hstored := (meets_of_ok h).mp hmeets
    change contents s'.frame.memory = overlay (replay 0 log) w
    rw [hstored.contents, ← hlog]

/-- A frame that calls has written nothing. -/
theorem enters_contents (h : dispatch host s = .ok (some .call) s') (hlog : Recalls s.frame log) :
    Recalls s'.frame log := by
  obtain ⟨opcode, -, h⟩ := dispatch_inv h (by simp)
  cases hstore : isStoreOp opcode with
  | false =>
    have hgrown := (handler_extends hstore).ok h
    exact hgrown.contents.trans hlog
  | true =>
    -- an instruction that stores does not leave its frame
    exfalso
    cases opcode <;> simp only [isStoreOp, Bool.false_eq_true] at hstore <;>
      · obtain ⟨_, _, _, ⟨⟩⟩ := bind_ok h

/-- The end of a child writes the part of its data that the parent asked for. -/
theorem storeOutput_contents {evm : Evm} {saved parent : CallFrame}
    (h : storeOutput evm saved = some parent)
    (hrange : EndsBy parent.memory.data.length
      ⟨saved.outputOffset.toNat, evm.returnData.take saved.outputSize.toNat⟩) :
    contents parent.memory = overlay (contents saved.memory)
      ⟨saved.outputOffset.toNat, evm.returnData.take saved.outputSize.toNat⟩ := by
  unfold storeOutput at h
  dsimp only at h
  split at h
  · next hnone =>
    cases h
    rw [List.eq_nil_of_length_eq_zero hnone, overlay_nil]
  · next hsome =>
    split at h
    · cases h
    · next mem hstore =>
      cases h
      have hinside := hrange fun hnil => hsome (congrArg List.length hnil)
      rw [evmMemoryStore_length hstore] at hinside
      exact evmMemoryStore_contents hstore hinside

theorem storeOutput_empty {evm : Evm} (saved : CallFrame) (h : evm.returnData = []) :
    storeOutput evm saved = some saved := by
  rw [storeOutput, h, List.take_nil]
  rfl

/-- A frame whose child has ended goes on with the child's data in its memory. -/
structure Receives (m m' : Machine) (saved : CallFrame) : Prop where
  parents : m.parents = saved :: m'.parents
  stored : ∃ parent, storeOutput m'.active.evm saved = some parent ∧
    m'.active.frame.memory = parent.memory
  offset : m'.active.frame.outputOffset = saved.outputOffset
  size : m'.active.frame.outputSize = saved.outputSize

def handedRegion : FrameResult → UInt64 × UInt64
  | .return_ offset size | .revert offset size => (offset, size)
  | _ => (0, 0)

theorem finishChild_receives {result : Word}
    (h : finishChild host m offset size result = .running m') :
    ∃ saved, Receives m m' saved ∧ m'.active.evm.returnData =
      span (contents m.active.frame.memory) offset.toNat size.toNat := by
  unfold finishChild at h
  split at h
  · cases h
  · next saved parents hparents =>
    split at h
    · cases h
    · next evm hcopy =>
      have hdata := copyReturnData_data hcopy
      split at h
      · cases h
      · next parent hstore =>
        obtain ⟨hrest, -⟩ := storeOutput_inv hstore
        unfold resume at h
        split at h
        · cases h
        · cases h
          exact ⟨saved, ⟨hparents, ⟨parent, hstore, rfl⟩, by rw [hrest], by rw [hrest]⟩, hdata⟩

theorem settle_receives {last : FrameResult} (hcall : last ≠ .call)
    (h : settle host m last = .running m') :
    ∃ saved, Receives m m' saved ∧ m'.active.evm.returnData =
      span (contents m.active.frame.memory) (handedRegion last).1.toNat
        (handedRegion last).2.toNat := by
  cases last with
  | call => exact absurd rfl hcall
  | stop | return_ | revert =>
    rw [settle] at h
    split at h
    · first | cases h | split at h <;> cases h
    · exact finishChild_receives h
  | error status =>
    rw [settle] at h
    split at h
    · cases h
    · split at h
      · cases h
      · next saved parents hparents =>
        unfold resume at h
        split at h
        · cases h
        · cases h
          exact ⟨saved, ⟨hparents, ⟨saved, storeOutput_empty saved rfl, rfl⟩, rfl, rfl⟩, rfl⟩

theorem Receives.recalls {saved : CallFrame} (h : Receives m m' saved)
    (hrange : EndsBy m'.active.frame.memory.data.length (delivered m')) (hlog : Recalls saved log) :
    Recalls m'.active.frame (delivered m' :: log) := by
  obtain ⟨parent, hstore, hmemory⟩ := h.stored
  have hwrite : delivered m' = ⟨saved.outputOffset.toNat,
      m'.active.evm.returnData.take saved.outputSize.toNat⟩ := by
    rw [delivered, h.offset, h.size]
  rw [hmemory, hwrite] at hrange
  have hstored := storeOutput_contents hstore hrange
  unfold Recalls at hlog ⊢
  rw [hmemory, hwrite, hstored, hlog]
  rfl

/-- The step that ends a child. -/
theorem step_receives {last : FrameResult} (hlast : ending host m.active = some last)
    (hcall : last ≠ .call) (h : step host m = .running m') :
    ∃ saved, Receives m m' saved ∧ m'.active.evm.returnData =
      span (contents (after (dispatch host) m.active).frame.memory)
        (handedRegion last).1.toNat (handedRegion last).2.toNat := by
  rw [step_of_ending hlast] at h
  obtain ⟨saved, hreceives, hdata⟩ := settle_receives hcall h
  exact ⟨saved, ⟨hreceives.parents, hreceives.stored, hreceives.offset, hreceives.size⟩, hdata⟩

theorem logsAfter_goesOn (h : dispatch host m.active = .ok none s) (log : Log) (logs : List Log) :
    logsAfter host m m' (log :: logs) = ((nextWrite m.active).toList ++ log) :: logs := by
  simp only [logsAfter, h]

theorem logsAfter_enters (h : dispatch host m.active = .ok (some .call) s) (log : Log)
    (logs : List Log) : logsAfter host m m' (log :: logs) = [] :: log :: logs := by
  simp only [logsAfter, h]

section Ended

variable {last : FrameResult} (hlast : ending host m.active = some last) (hcall : last ≠ .call)
include hlast hcall

theorem logsAfter_ended (log saved : Log) (logs : List Log) :
    logsAfter host m m' (log :: saved :: logs) = (delivered m' :: saved) :: logs := by
  rw [logsAfter]
  split
  · next hrun => simp only [ending, hrun, reduceCtorEq] at hlast
  · next hrun => exact absurd hrun (not_call_of_ending hlast hcall _)
  · rfl

theorem inRange_ended :
    InRange host m m' ↔ EndsBy m'.active.frame.memory.data.length (delivered m') := by
  rw [InRange]
  split
  · next hrun => simp only [ending, hrun, reduceCtorEq] at hlast
  · next hrun => exact absurd hrun (not_call_of_ending hlast hcall _)
  · rfl

end Ended

/-- Every step keeps the bytes of every frame in line with the writes to it. -/
theorem step_recalls [OnArena host] {logs : List Log}
    (hlogs : List.Forall₂ Recalls (frames m) logs) (h : step host m = .running m')
    (hrange : InRange host m m') :
    List.Forall₂ Recalls (frames m') (logsAfter host m m' logs) := by
  cases hlogs with
  | cons hlog hlogs =>
    cases moves_of_step h with
    | goesOn hdispatch =>
      rw [InRange, hdispatch] at hrange
      rw [logsAfter_goesOn hdispatch]
      exact .cons (goesOn_contents hdispatch hrange hlog) hlogs
    | enters hdispatch hroom hpending =>
      rw [logsAfter_enters hdispatch]
      have hmemory := (starts_of_pending hdispatch hpending).memory
      refine .cons ?_ (.cons (enters_contents hdispatch hlog) hlogs)
      rw [Recalls, hmemory]
      rfl
    | delivers hlast hcall =>
      obtain ⟨saved, hreceives, -⟩ := step_receives hlast hcall h
      rw [hreceives.parents] at hlogs
      cases hlogs with
      | cons hsaved hrest =>
        rw [inRange_ended hlast hcall] at hrange
        rw [logsAfter_ended hlast hcall]
        exact .cons (hreceives.recalls hrange hsaved) hrest

instance (bound : ℕ) (w : Write UInt8) : Decidable (EndsBy bound w) :=
  inferInstanceAs (Decidable (_ → _))

instance : Decidable (InRange host m m') := by
  unfold InRange
  split
  · exact inferInstanceAs (Decidable (∀ w ∈ nextWrite m.active, EndsBy (2 ^ 63) w))
  · exact inferInstanceAs (Decidable True)
  · exact inferInstanceAs (Decidable (EndsBy _ _))

def logsAt (host : Host) (m₀ : Machine) : ℕ → List Log
  | 0 => [[]]
  | n + 1 => logsAfter host (advance (step host) n m₀) (advance (step host) (n + 1) m₀)
      (logsAt host m₀ n)

def stepInRange (host : Host) (m : Machine) : Bool :=
  match step host m with
  | .running m' => decide (InRange host m m')
  | _ => false

theorem logged_advance {m₀ : Machine} (n : ℕ)
    (h : ∀ k < n, stepInRange host (advance (step host) k m₀) = true) :
    Logged host m₀ (advance (step host) n m₀) (logsAt host m₀ n) := by
  induction n with
  | zero => exact .start
  | succ n ih =>
    have hbefore := ih fun k hk => h k (Nat.lt_succ_of_lt hk)
    have hlast := h n (Nat.lt_succ_self n)
    unfold stepInRange at hlast
    split at hlast
    · next m' hstep =>
      have hmoved : advance (step host) (n + 1) m₀ = m' := by rw [advance_succ, hstep]
      rw [logsAt, hmoved]
      exact .step hbefore hstep (of_decide_eq_true hlast)
    · cases hlast

def onEmptyState (code : Bytes) : Machine :=
  start { evmInit .cancun with state := some worldStateCreate } (running 100000 code)

/-- In every frame of every run, the memory is an array of zeros overwritten by the writes made
to it. As long as the inputs of calls are served, the instructions read the bytes last written
and write nowhere else. -/
theorem memory_recalls_writes (host : Host) [OnArena host] (evm : Evm) (env : ExecutionEnv)
    {m : Machine} {logs : List Log} (h : Logged host (start evm env) m logs) :
    List.Forall₂ Recalls (frames m) logs ∧
      ((∀ opcode, nextOpcode m.active.frame = some opcode → CallServed m.active opcode) →
        Serves host m.active (replay 0 (logs.headD []))) := by
  have hlogs : List.Forall₂ Recalls (frames m) logs := by
    induction h with
    | start => exact .cons rfl .nil
    | step _ hstep hrange ih => exact step_recalls ih hstep hrange
  refine ⟨hlogs, fun hserved => ?_⟩
  cases hlogs with
  | @cons _ log _ _ hlog _ =>
    have hreplay : replay 0 log = contents m.active.frame.memory := hlog.symm
    rw [List.headD_cons, hreplay]
    exact serves_contents hserved

/-- A word is stored and handed to a call, and then loaded. -/
def storeCallLoad : Machine :=
  onEmptyState [0x60, 7, 0x5f, 0x52, 0x5f, 0x5f, 0x60, 0x20, 0x5f, 0x5f, 0x5a, 0xfa, 0x5f, 0x51]

def nearRead : Machine := stepped 12 storeCallLoad

theorem memory_recalls_writes_near :
    Logged paddedHost storeCallLoad nearRead
      [[⟨0, []⟩, ⟨0, List.replicate 31 0 ++ [7]⟩]] ∧
    nextOpcode nearRead.active.frame = some .mload ∧
    Serves paddedHost nearRead.active
      (replay 0 [⟨0, []⟩, ⟨0, List.replicate 31 0 ++ [7]⟩]) := by
  have hrun := @logged_advance paddedHost storeCallLoad 12 (by decide +kernel)
  have hlogs : logsAt paddedHost storeCallLoad 12 =
      [[⟨0, []⟩, ⟨0, List.replicate 31 0 ++ [7]⟩]] := by decide +kernel
  have hnext : nextOpcode nearRead.active.frame = some .mload := by decide +kernel
  rw [hlogs] at hrun
  refine ⟨hrun, hnext, (memory_recalls_writes paddedHost _ _ hrun).2 fun opcode hopcode => ?_⟩
  cases hnext.symm.trans hopcode
  trivial

def farInput : Machine :=
  stepped 6
    (onEmptyState [0x5f, 0x5f, 0x60, 0x20, 0x62, 1, 0, 0, 0x5f, 0x5f, 0xfa])

/-- The input lies in a part of the memory that has never been written, and is read from
outside the buffer. -/
theorem farInput_not_recalled : ∃ logs,
    Logged paddedHost
      (onEmptyState [0x5f, 0x5f, 0x60, 0x20, 0x62, 1, 0, 0, 0x5f, 0x5f, 0xfa]) farInput logs ∧
    nextOpcode farInput.active.frame = some .staticcall ∧
    readOf farInput.active .staticcall = some (65536, 32) ∧
    ¬Serves paddedHost farInput.active (replay 0 (logs.headD [])) := by
  have hnext : nextOpcode farInput.active.frame = some .staticcall := by decide +kernel
  have hread : readOf farInput.active .staticcall = some (65536, 32) := by decide +kernel
  refine ⟨_, logged_advance 6 (by decide +kernel), hnext, hread, fun hserves => ?_⟩
  have hmeets := hserves.reads _ _ hnext hread (fun _ => by norm_num)
  have hfails : ∃ s', dispatch paddedHost farInput.active =
      .error (.undefined .memory) s' := ⟨_, rfl⟩
  obtain ⟨s', hfails⟩ := hfails
  exact (meets_of_error hfails).mp hmeets rfl

end Runs

end Div0.MemoryContents
