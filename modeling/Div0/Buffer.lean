import Div0.BigEndian

/-!
The arena and the byte strings allocated in it. An arena hands out at most one
block of 64 KB per request. An arena-backed `bytes_t` is allocated once: when a
later append does not fit, the append fails and leaves the string as it was.
Allocation is a parameter `Alloc`, the answer of the allocator to a size, so that
the same code runs on the real arena and on one that never refuses.
-/

namespace Div0.Buffer

open BigEndian

abbrev Alloc := ℕ → Bool

def arenaBlockSize : ℕ := 64 * 1024

/-- `div0_arena_alloc`: a positive size that fits a block after rounding up to
eight bytes. The blocks themselves come from `malloc`, taken to succeed. -/
def arenaAlloc : Alloc := fun size =>
  decide (size ≠ 0) && decide ((size + 7) / 8 * 8 ≤ arenaBlockSize)

/-- Every positive request is granted. -/
def Unlimited (alloc : Alloc) : Prop := ∀ size, 0 < size → alloc size = true

/-- Every positive request up to `limit` is granted. -/
def GrantsUpTo (alloc : Alloc) (limit : ℕ) : Prop :=
  ∀ size, 0 < size → size ≤ limit → alloc size = true

theorem arenaAlloc_grantsUpTo : GrantsUpTo arenaAlloc 65536 := by
  intro size hpos hle
  have hblock : arenaBlockSize = 65536 := rfl
  simp only [arenaAlloc, Bool.and_eq_true, decide_eq_true_eq]
  exact ⟨by omega, by omega⟩

theorem arenaAlloc_refuses {size : ℕ} (h : 65536 < size) : arenaAlloc size = false := by
  have hblock : arenaBlockSize = 65536 := rfl
  simp only [arenaAlloc, Bool.and_eq_false_iff, decide_eq_false_iff_not]
  exact Or.inr (by omega)

/-- The sizes `fits` are granted, and with a size every smaller one. -/
structure Supply (alloc : Alloc) (fits : ℕ → Prop) : Prop where
  grants : ∀ size, 0 < size → fits size → alloc size = true
  mono : ∀ {a b}, a ≤ b → fits b → fits a

variable {alloc : Alloc}

theorem Supply.grantsUpTo {fits : ℕ → Prop} (h : Supply alloc fits) {limit : ℕ}
    (hlimit : fits limit) : GrantsUpTo alloc limit :=
  fun size hpos hle => h.grants size hpos (h.mono hle hlimit)

theorem Unlimited.supply (h : Unlimited alloc) : Supply alloc fun _ => True :=
  ⟨fun size hpos _ => h size hpos, fun _ _ => trivial⟩

theorem arenaAlloc_supply : Supply arenaAlloc (· ≤ 65536) :=
  ⟨arenaAlloc_grantsUpTo, fun hab hb => le_trans hab hb⟩

/-- An arena-backed `bytes_t`. `block` is `none` while `data` is null and otherwise
the capacity; `overrun` records a write past the capacity, after which the C
program has no defined behaviour. -/
structure Buf where
  data : Bytes
  block : Option ℕ
  overrun : Bool
  deriving DecidableEq, Repr

namespace Buf

def init : Buf := ⟨[], none, false⟩

def size (b : Buf) : ℕ := b.data.length

def capacity (b : Buf) : ℕ := b.block.getD 0

/-- `bytes_reserve`; `none` is the result `false`, which leaves the string as it was. -/
def reserve (alloc : Alloc) (b : Buf) (wanted : ℕ) : Option Buf :=
  if wanted ≤ b.capacity then some b
  else match b.block with
    -- an arena cannot grow a block it has handed out
    | some _ => none
    | none => if alloc wanted then some { b with block := some wanted } else none

def reserve! (alloc : Alloc) (b : Buf) (wanted : ℕ) : Buf :=
  (b.reserve alloc wanted).getD b

def fromData (alloc : Alloc) (src : Bytes) : Option Buf :=
  if src = [] then some init
  else (init.reserve alloc src.length).map fun b => { b with data := src }

def append (alloc : Alloc) (b : Buf) (src : Bytes) : Option Buf :=
  if src = [] then some b
  else (b.reserve alloc (b.size + src.length)).map fun b => { b with data := b.data ++ src }

/-- `bytes_append` where the caller ignores the result: bytes that do not fit are lost. -/
def append! (alloc : Alloc) (b : Buf) (src : Bytes) : Buf :=
  (b.append alloc src).getD b

@[simp] theorem init_data : init.data = [] := rfl
@[simp] theorem init_block : init.block = none := rfl
@[simp] theorem init_overrun : init.overrun = false := rfl

variable {wanted : ℕ}

theorem reserve_data {b b' : Buf} (h : b.reserve alloc wanted = some b') : b'.data = b.data := by
  unfold reserve at h
  split at h
  · cases h
    rfl
  · split at h
    · cases h
    · split at h
      · cases h
        rfl
      · cases h

theorem reserve!_init (h : alloc wanted = true) :
    init.reserve! alloc wanted =
      if wanted = 0 then init else { init with block := some wanted } := by
  by_cases hz : wanted = 0
  · simp [reserve!, reserve, hz]
  · simp [reserve!, reserve, capacity, h, hz]

theorem reserve!_refused (h : alloc wanted = false) : init.reserve! alloc wanted = init := by
  by_cases hz : wanted = 0
  · simp [reserve!, reserve, hz]
  · simp [reserve!, reserve, capacity, h, hz]

theorem reserve_init_isSome (h : alloc wanted = true) :
    (init.reserve alloc wanted).isSome = true := by
  by_cases hz : wanted = 0
  · simp [reserve, hz]
  · simp [reserve, capacity, h, hz]

/-- While the block has room, an append is concatenation. -/
theorem append!_of_room {b : Buf} {src : Bytes} {room : ℕ} (hblock : b.block = some room)
    (hfit : b.data.length + src.length ≤ room) :
    b.append! alloc src = { b with data := b.data ++ src } := by
  by_cases hsrc : src = []
  · simp [append!, append, hsrc]
  · simp [append!, append, reserve, capacity, size, hsrc, hblock, hfit]

/-- An append keeps what is there. -/
theorem isPrefix_append! (alloc : Alloc) (b : Buf) (src : Bytes) :
    b.data <+: (b.append! alloc src).data := by
  unfold append! append
  split
  · exact List.prefix_rfl
  · cases hreserve : b.reserve alloc (b.size + src.length) with
    | none => exact List.prefix_rfl
    | some b' =>
      rw [Option.map_some, Option.getD_some, reserve_data hreserve]
      exact List.prefix_append _ _

/-- A nonempty append that exceeds the block is lost. -/
theorem append!_of_full {b : Buf} {src : Bytes} {room : ℕ} (hblock : b.block = some room)
    (hfull : room < b.data.length + src.length) (hsrc : src ≠ []) : b.append! alloc src = b := by
  have hno : ¬b.data.length + src.length ≤ room := by omega
  simp [append!, append, reserve, capacity, size, hsrc, hblock, hno]

theorem fromData_isSome {src : Bytes} (h : src ≠ [] → alloc src.length = true) :
    ∃ b, fromData alloc src = some b ∧ b.data = src := by
  by_cases hsrc : src = []
  · exact ⟨init, by simp [fromData, hsrc], by simp [hsrc]⟩
  · exact ⟨⟨src, some src.length, false⟩, by
      simp [fromData, hsrc, reserve, capacity, init, h hsrc], rfl⟩

end Buf

end Div0.Buffer
