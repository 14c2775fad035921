import Div0.Alignment
import Div0.Buffer

/-!
The linear memory of a frame. Its size is always a multiple of 32 and never exceeds the
capacity of the buffer behind it; both facts are fields of the structure. Sizes are 64-bit
as in the source, so rounding up may wrap round, and the loop that doubles the capacity
may pass 2^63 and then never end; `diverges` stands for that.
-/

namespace Div0.Memory

open BigEndian Buffer

structure EvmMemory where
  data : Bytes
  capacity : UInt64
  fits : data.length ≤ capacity.toNat
  aligned : data.length % 32 = 0
  deriving DecidableEq

/-- `evm_memory_init`: no buffer yet. -/
def evmMemoryInit : EvmMemory := ⟨[], 0, by decide, rfl⟩

def evmMemorySize (mem : EvmMemory) : UInt64 := UInt64.ofNat mem.data.length

theorem evmMemorySize_toNat (mem : EvmMemory) :
    (evmMemorySize mem).toNat = mem.data.length := by
  have hlt : mem.data.length < 2 ^ 64 := lt_of_le_of_lt mem.fits mem.capacity.toNat_lt
  exact UInt64.toNat_ofNat_of_lt' hlt

def initialCapacity : UInt64 := 1024

def uint64Max : UInt64 := 0xffffffffffffffff

def roundUp32 (n : UInt64) : UInt64 := (n + 31) &&& ~~~31

theorem roundUp32_toNat (n : UInt64) :
    (roundUp32 n).toNat = (n.toNat + 31) % 2 ^ 64 / 32 * 32 := by
  have hmask : (31 : UInt64).toNat = 2 ^ 5 - 1 := rfl
  rw [roundUp32, Alignment.and_not_toNat hmask, UInt64.toNat_add]
  rfl

theorem roundUp32_aligned (n : UInt64) : (roundUp32 n).toNat % 32 = 0 := by
  rw [roundUp32_toNat]
  exact Nat.mul_mod_left _ 32

def memoryPrice (words : UInt64) : UInt64 := 3 * words + words * words / 512

def evmMemoryExpansionCost (currentWords newWords : UInt64) : UInt64 :=
  if newWords ≤ currentWords then 0 else memoryPrice newWords - memoryPrice currentWords

/-- The loop that doubles the capacity until it reaches `wanted`; `none` when it has not
ended after the given number of rounds. -/
def doubleUntil (wanted : UInt64) : ℕ → UInt64 → Option { c : UInt64 // wanted ≤ c }
  | 0, _ => none
  | rounds + 1, capacity =>
    if h : wanted ≤ capacity then some ⟨capacity, h⟩
    else doubleUntil wanted rounds (capacity * 2)

/-- A capacity is zero after 64 doublings and then stays zero, so a loop that has not
ended after 65 tests never ends. -/
def growCapacity (wanted capacity : UInt64) : Option { c : UInt64 // wanted ≤ c } :=
  doubleUntil wanted 65 (if capacity = 0 then initialCapacity else capacity)

/-- What `evm_memory_expand` gives: the result `true` with the cost, the result `false`,
or no result. -/
inductive Expansion where
  | expanded (cost : UInt64) (mem : EvmMemory)
  | refused
  | diverges

def zeroFill (mem : EvmMemory) (newSize capacity : UInt64)
    (hgrows : mem.data.length ≤ newSize.toNat) (hfits : newSize ≤ capacity)
    (haligned : newSize.toNat % 32 = 0) : EvmMemory where
  data := mem.data ++ List.replicate (newSize.toNat - mem.data.length) 0
  capacity := capacity
  fits := by
    rw [List.length_append, List.length_replicate, Nat.add_sub_cancel' hgrows]
    exact UInt64.le_iff_toNat_le.mp hfits
  aligned := by
    rw [List.length_append, List.length_replicate, Nat.add_sub_cancel' hgrows]
    exact haligned

theorem length_le_of_grows {mem : EvmMemory} {newSize : UInt64}
    (h : ¬newSize ≤ evmMemorySize mem) : mem.data.length ≤ newSize.toNat := by
  have hlt : (evmMemorySize mem).toNat < newSize.toNat := UInt64.lt_iff_toNat_lt.mp
    (UInt64.not_le.mp h)
  rw [evmMemorySize_toNat] at hlt
  exact le_of_lt hlt

def evmMemoryExpand (alloc : Alloc) (mem : EvmMemory) (offset size : UInt64) : Expansion :=
  if size = 0 then .expanded 0 mem
  else if uint64Max - size < offset then .refused
  else
    let newSize := roundUp32 (offset + size)
    let cost := evmMemoryExpansionCost (evmMemorySize mem / 32) (newSize / 32)
    if hgrows : newSize ≤ evmMemorySize mem then .expanded cost mem
    else if hroom : newSize ≤ mem.capacity then
      .expanded cost (zeroFill mem newSize mem.capacity (length_le_of_grows hgrows) hroom
        (roundUp32_aligned _))
    else match growCapacity newSize mem.capacity with
      | none => .diverges
      | some newCapacity =>
        if alloc newCapacity.val.toNat then
          .expanded cost (zeroFill mem newSize newCapacity.val (length_le_of_grows hgrows)
            newCapacity.property (roundUp32_aligned _))
        else .refused

/-- An expanded memory has the buffer it had, or one the arena granted. -/
theorem evmMemoryExpand_capacity {alloc : Alloc} {mem mem' : EvmMemory} {offset size cost : UInt64}
    (h : evmMemoryExpand alloc mem offset size = .expanded cost mem') :
    mem'.capacity = mem.capacity ∨ alloc mem'.capacity.toNat = true := by
  unfold evmMemoryExpand at h
  split at h
  · cases h
    exact Or.inl rfl
  split at h
  · cases h
  dsimp only at h
  split at h
  · cases h
    exact Or.inl rfl
  split at h
  · cases h
    exact Or.inl rfl
  split at h
  · cases h
  split at h
  · next hgranted =>
    cases h
    exact Or.inr hgranted
  · cases h

/-- `evm_memory_load_unsafe`, also the bytes behind `evm_memory_ptr_unsafe`. Bytes past the
size have no value; `none` is a read of one of them. -/
def evmMemoryLoad (mem : EvmMemory) (offset len : UInt64) : Option Bytes :=
  if offset.toNat + len.toNat ≤ mem.data.length then
    some ((mem.data.drop offset.toNat).take len.toNat)
  else none

/-- `bytes` written over `data` from `offset` on; what would lie past the end is dropped. -/
def overwrite (data : Bytes) (offset : ℕ) (bytes : Bytes) : Bytes :=
  data.take offset ++ bytes.take (data.length - offset) ++ data.drop (offset + bytes.length)

@[simp] theorem overwrite_length (data : Bytes) (offset : ℕ) (bytes : Bytes) :
    (overwrite data offset bytes).length = data.length := by
  simp only [overwrite, List.length_append, List.length_take, List.length_drop]
  omega

/-- `evm_memory_store_unsafe`. The buffer may be written up to its capacity; a byte past
the size is zeroed before the size comes to include it. `none` is a write outside the
buffer. -/
def evmMemoryStore (mem : EvmMemory) (offset : UInt64) (bytes : Bytes) : Option EvmMemory :=
  if offset.toNat + bytes.length ≤ mem.capacity.toNat then
    some {
      data := overwrite mem.data offset.toNat bytes
      capacity := mem.capacity
      fits := by rw [overwrite_length]; exact mem.fits
      aligned := by rw [overwrite_length]; exact mem.aligned }
  else none

theorem evmMemoryStore_capacity {mem mem' : EvmMemory} {offset : UInt64} {bytes : Bytes}
    (h : evmMemoryStore mem offset bytes = some mem') : mem'.capacity = mem.capacity := by
  unfold evmMemoryStore at h
  split at h
  · cases h
    rfl
  · cases h

end Div0.Memory
