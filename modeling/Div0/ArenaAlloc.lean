import Div0.Alignment
import Div0.CallTraces
import Mathlib.Data.List.Pairwise

/-!
The arena: a chain of blocks of 64 KiB, handed out from front to back. A request that does
not fit into the current block goes to the next one, which is either left over from before
the last reset or comes from `malloc`. The room in the current block is checked with the
padding for the alignment, the room in the next block is not: the checked size alone fits
into a block, but a block starts only at a multiple of 16.
-/

namespace Div0.ArenaAlloc

open Alignment CallTraces

def blockSize : UInt64 := 65536

def Apart (a b : UInt64) : Prop :=
  a.toNat + 65536 ≤ b.toNat ∨ b.toNat + 65536 ≤ a.toNat

instance : Std.Symm Apart := ⟨fun _ _ h => Or.symm h⟩

/-- `div0_arena_block_t`: the address of its data and the offset of the free part. -/
structure Block where
  base : UInt64
  offset : UInt64
  aligned : 16 ∣ base.toNat
  bounded : base.toNat + 65536 ≤ 2 ^ 64

/-- `div0_arena_t`: the chain, cut at the current block. -/
structure Arena where
  before : List Block
  current : Block
  after : List Block
  apart : ((before ++ current :: after).map Block.base).Pairwise Apart

def Arena.bases (arena : Arena) : List UInt64 :=
  (arena.before ++ arena.current :: arena.after).map Block.base

/-- A block from `malloc` that is apart from those held. -/
structure Fresh (held : List UInt64) where
  base : UInt64
  aligned : 16 ∣ base.toNat
  bounded : base.toNat + 65536 ≤ 2 ^ 64
  apart : ∀ b ∈ held, Apart b base

abbrev Malloc := (held : List UInt64) → Option (Fresh held)

def arenaInit (fresh : Fresh []) : Arena where
  before := []
  current := ⟨fresh.base, 0, fresh.aligned, fresh.bounded⟩
  after := []
  apart := List.pairwise_singleton _ _

def alignedSize (size alignment : UInt64) : Option UInt64 :=
  if size = 0 ∨ alignment = 0 ∨ alignment &&& (alignment - 1) ≠ 0 then none
  else if 0xffffffffffffffff - (alignment - 1) < size then none
  else if blockSize < alignUp size (alignment - 1) then none
  else some (alignUp size (alignment - 1))

def alignedOffset (base offset alignMask : UInt64) : UInt64 :=
  alignUp (base + offset) alignMask - base

def Arena.bump (arena : Arena) (offset : UInt64) : Arena where
  before := arena.before
  current := { arena.current with offset := offset }
  after := arena.after
  apart := by simpa using arena.apart

def Arena.advance (arena : Arena) (next : Block) (rest : List Block)
    (h : arena.after = next :: rest) (offset : UInt64) : Arena where
  before := arena.before ++ [arena.current]
  current := { next with offset := offset }
  after := rest
  apart := by simpa [h] using arena.apart

def Arena.extend (arena : Arena) (h : arena.after = []) (fresh : Fresh arena.bases)
    (offset : UInt64) : Arena where
  before := arena.before ++ [arena.current]
  current := ⟨fresh.base, offset, fresh.aligned, fresh.bounded⟩
  after := []
  apart := by
    have happart : ((arena.before ++ [arena.current]).map Block.base).Pairwise Apart := by
      simpa [h] using arena.apart
    have hfresh : ∀ b ∈ (arena.before ++ [arena.current]).map Block.base, Apart b fresh.base := by
      simpa [Arena.bases, h] using fresh.apart
    rw [List.map_append]
    exact List.pairwise_append.mpr
      ⟨happart, List.pairwise_singleton _ _, fun b hb _ hc => List.mem_singleton.mp hc ▸ hfresh b hb⟩

def arenaAllocAligned (malloc : Malloc) (arena : Arena) (size alignment : UInt64) :
    Option UInt64 × Arena :=
  match alignedSize size alignment with
  | none => (none, arena)
  | some taken =>
    let alignMask := alignment - 1
    let offset := alignedOffset arena.current.base arena.current.offset alignMask
    if offset + taken ≤ blockSize then
      (some (arena.current.base + offset), arena.bump (offset + taken))
    else
      match h : arena.after with
      | next :: rest =>
        let start := alignedOffset next.base 0 alignMask
        (some (next.base + start), arena.advance next rest h (start + taken))
      | [] =>
        match malloc arena.bases with
        | none => (none, arena)
        | some fresh =>
          let start := alignedOffset fresh.base 0 alignMask
          (some (fresh.base + start), arena.extend h fresh (start + taken))

def cleared (blocks : List Block) : List Block := blocks.map fun b => { b with offset := 0 }

def arenaReset (arena : Arena) : Arena :=
  match h : arena.before with
  | [] =>
    { before := [], current := { arena.current with offset := 0 }, after := cleared arena.after
      apart := by simpa [h, cleared, Function.comp_def] using arena.apart }
  | first :: rest =>
    { before := [], current := { first with offset := 0 }
      after := cleared (rest ++ arena.current :: arena.after)
      apart := by simpa [h, cleared, Function.comp_def] using arena.apart }

section Requests

variable {size alignment taken : UInt64}

/-- What a request that is not refused looks like. -/
theorem alignedSize_eq_some (h : alignedSize size alignment = some taken) :
    ∃ k, k ≤ 64 ∧ alignment.toNat = 2 ^ k ∧ (alignment - 1).toNat = 2 ^ k - 1 ∧
      0 < size.toNat ∧ size.toNat ≤ taken.toNat ∧ taken.toNat ≤ 65536 ∧ 2 ^ k ≤ 65536 := by
  rw [alignedSize, Option.ite_none_left_eq_some, Option.ite_none_left_eq_some,
    Option.ite_none_left_eq_some, Option.some.injEq] at h
  obtain ⟨hvalid, hroom, hblock, rfl⟩ := h
  rw [not_or, not_or, not_not] at hvalid
  obtain ⟨hsize, hzero, hand⟩ := hvalid
  obtain ⟨k, hk, hpow, hmask⟩ := exists_pow_of_and_pred hzero hand
  have hpos : 0 < size.toNat := Nat.pos_of_ne_zero fun h => hsize (UInt64.toNat_inj.mp h)
  have hpad := padding_lt (x := size.toNat) (Nat.two_pow_pos k)
  have hpowpos := Nat.two_pow_pos k
  have hpowlt := hpow ▸ alignment.toNat_lt
  -- The sum with the mask does not wrap.
  have hsum : size.toNat + (2 ^ k - 1) < 2 ^ 64 := by
    have hmax : (0xffffffffffffffff : UInt64).toNat = 2 ^ 64 - 1 := by decide
    rw [UInt64.not_lt, UInt64.le_iff_toNat_le, UInt64.toNat_sub, hmask, hmax] at hroom
    omega
  have htaken : (alignUp size (alignment - 1)).toNat = size.toNat + padding (2 ^ k) size.toNat := by
    rw [alignUp_toNat hk.le hmask, Nat.mod_eq_of_lt (by omega)]
  have hle : (alignUp size (alignment - 1)).toNat ≤ 65536 :=
    UInt64.le_iff_toNat_le.mp (UInt64.not_lt.mp hblock)
  have hdvd := Nat.le_of_dvd (by omega) (dvd_add_padding (x := size.toNat) hpowpos)
  exact ⟨k, hk.le, hpow, hmask, hpos, by omega, hle, by omega⟩

/-- The aligned offset does not depend on where the addresses wrap. -/
theorem alignedOffset_toNat (base : UInt64) {offset mask : UInt64} {k : ℕ} (hk : k ≤ 64)
    (hmask : mask.toNat = 2 ^ k - 1) (hpow : 2 ^ k ≤ 65536) (hoffset : offset.toNat ≤ 2 ^ 20) :
    (alignedOffset base offset mask).toNat =
      offset.toNat + padding (2 ^ k) (base.toNat + offset.toNat) := by
  have hpad := padding_lt (x := base.toNat + offset.toNat) (Nat.two_pow_pos k)
  have hlt := base.toNat_lt
  rw [alignedOffset, UInt64.toNat_sub, alignUp_toNat hk hmask, UInt64.toNat_add,
    padding_mod (Nat.pow_dvd_pow 2 hk)]
  omega

end Requests

section Sessions

/-- A range handed out, with the alignment that was asked for. -/
structure Allocation where
  start : UInt64
  size : UInt64
  alignment : UInt64

def Allocation.finish (a : Allocation) : ℕ := a.start.toNat + a.size.toNat

def Allocation.Within (a : Allocation) (base : UInt64) : Prop :=
  base.toNat ≤ a.start.toNat ∧ a.finish ≤ base.toNat + 65536

def Allocation.Disjoint (a b : Allocation) : Prop :=
  a.finish ≤ b.start.toNat ∨ b.finish ≤ a.start.toNat

inductive Call where
  | alloc (malloc : Malloc) (size alignment : UInt64)
  | reset

/-- The arena and what it has handed out since the last reset, latest first. -/
structure Session where
  arena : Arena
  handed : List Allocation

def applyCall (s : Session) : Call → Session
  | .alloc malloc size alignment =>
    let served := arenaAllocAligned malloc s.arena size alignment
    ⟨served.2, (served.1.map fun start => ⟨start, size, alignment⟩).toList ++ s.handed⟩
  | .reset => ⟨arenaReset s.arena, []⟩

def runCalls (first : Fresh []) (calls : List Call) : Session :=
  calls.foldl applyCall ⟨arenaInit first, []⟩

/-- The ranges are aligned, inside a block each, and disjoint. -/
structure Sound (s : Session) : Prop where
  aligned : ∀ a ∈ s.handed, a.alignment.toNat ∣ a.start.toNat
  inside : ∀ a ∈ s.handed, ∃ base ∈ s.arena.bases, a.Within base
  disjoint : s.handed.Pairwise Allocation.Disjoint

def nextBase (malloc : Malloc) (arena : Arena) : Option UInt64 :=
  match arena.after with
  | next :: _ => some next.base
  | [] => (malloc arena.bases).map Fresh.base

/-- A request that goes to another block has room there behind the padding. -/
def Fits (arena : Arena) : Call → Prop
  | .alloc malloc size alignment => ∀ taken, alignedSize size alignment = some taken →
      blockSize < alignedOffset arena.current.base arena.current.offset (alignment - 1) + taken →
      ∀ base, nextBase malloc arena = some base →
        padding alignment.toNat base.toNat + size.toNat ≤ 65536
  | .reset => True

/-- The ways a request is served. -/
inductive Served (malloc : Malloc) (arena : Arena) (size alignment : UInt64) :
    Option UInt64 × Arena → Prop where
  | refused (hnone : ∀ taken, alignedSize size alignment = some taken →
      nextBase malloc arena = none) : Served malloc arena size alignment (none, arena)
  | here {taken offset : UInt64} (hsize : alignedSize size alignment = some taken)
      (hoffset : alignedOffset arena.current.base arena.current.offset (alignment - 1) = offset)
      (hroom : offset + taken ≤ blockSize) :
      Served malloc arena size alignment
        (some (arena.current.base + offset), arena.bump (offset + taken))
  | moved {taken offset : UInt64} (arena' : Arena) (hsize : alignedSize size alignment = some taken)
      (hfull : blockSize <
        alignedOffset arena.current.base arena.current.offset (alignment - 1) + taken)
      (hnext : nextBase malloc arena = some arena'.current.base)
      (hbefore : arena'.before = arena.before ++ [arena.current])
      (hoffset : alignedOffset arena'.current.base 0 (alignment - 1) = offset)
      (hbumped : arena'.current.offset = offset + taken) :
      Served malloc arena size alignment (some (arena'.current.base + offset), arena')

theorem served (malloc : Malloc) (arena : Arena) (size alignment : UInt64) :
    Served malloc arena size alignment (arenaAllocAligned malloc arena size alignment) := by
  unfold arenaAllocAligned
  split
  · next hnone => exact .refused fun taken hsize => absurd (hnone.symm.trans hsize) (by rintro ⟨⟩)
  · next taken hsize =>
    dsimp only
    split
    · next hroom => exact .here hsize rfl hroom
    · next hfull =>
      split
      · next next rest hafter =>
        refine .moved (arena.advance next rest hafter
          (alignedOffset next.base 0 (alignment - 1) + taken)) hsize (UInt64.not_le.mp hfull) ?_
          rfl rfl rfl
        rw [nextBase, hafter]
        rfl
      · next hafter =>
        have hnext : nextBase malloc arena = (malloc arena.bases).map Fresh.base := by
          rw [nextBase, hafter]
        split
        · next hnone => exact .refused fun _ _ => by rw [hnext, hnone]; rfl
        · next fresh hfresh =>
          refine .moved (arena.extend hafter fresh _) hsize (UInt64.not_le.mp hfull) ?_ rfl rfl rfl
          rw [hnext, hfresh]
          rfl

end Sessions

section Invariant

variable {s : Session} {arena : Arena} {a b : Allocation} {base base' : UInt64}

theorem Arena.apart_before {block : Block} (h : block ∈ arena.before) :
    Apart block.base arena.current.base := by
  have happart := arena.apart
  rw [List.map_append] at happart
  exact (List.pairwise_append.mp happart).2.2 _ (List.mem_map_of_mem h) _ List.mem_cons_self

theorem Allocation.disjoint_of_apart (ha : a.Within base) (hb : b.Within base')
    (h : Apart base base') : a.Disjoint b := by
  unfold Allocation.Within at ha hb
  unfold Apart at h
  unfold Allocation.Disjoint
  omega

def Placed (arena : Arena) (a : Allocation) : Prop :=
  (∃ block ∈ arena.before, a.Within block.base) ∨
    a.Within arena.current.base ∧
      a.finish ≤ arena.current.base.toNat + arena.current.offset.toNat

/-- What the calls keep: the blocks behind the current one hold nothing. -/
structure Packed (s : Session) : Prop where
  aligned : ∀ a ∈ s.handed, a.alignment.toNat ∣ a.start.toNat
  placed : ∀ a ∈ s.handed, Placed s.arena a
  disjoint : s.handed.Pairwise Allocation.Disjoint
  offset_le : s.arena.current.offset.toNat ≤ 2 ^ 20

theorem Packed.sound (h : Packed s) : Sound s where
  aligned := h.aligned
  inside := by
    intro a ha
    rcases h.placed a ha with ⟨block, hblock, hwithin⟩ | ⟨hwithin, -⟩
    · exact ⟨block.base, List.mem_map_of_mem (List.mem_append_left _ hblock), hwithin⟩
    · exact ⟨s.arena.current.base,
        List.mem_map_of_mem (List.mem_append_right _ List.mem_cons_self), hwithin⟩
  disjoint := h.disjoint

/-- Handing out one more range. -/
theorem Packed.cons (h : Packed s) {new : Allocation} {arena : Arena}
    (haligned : new.alignment.toNat ∣ new.start.toNat) (hnew : Placed arena new)
    (hold : ∀ a ∈ s.handed, Placed arena a ∧ new.Disjoint a)
    (hoffset : arena.current.offset.toNat ≤ 2 ^ 20) : Packed ⟨arena, new :: s.handed⟩ where
  aligned := List.forall_mem_cons.mpr ⟨haligned, h.aligned⟩
  placed := List.forall_mem_cons.mpr ⟨hnew, fun a ha => (hold a ha).1⟩
  disjoint := List.pairwise_cons.mpr ⟨fun a ha => (hold a ha).2, h.disjoint⟩
  offset_le := hoffset

/-- A range at an aligned offset of a block that ends inside it. -/
theorem within_of_alignedOffset (block : Block) {size alignment start offset : UInt64} {k : ℕ}
    (hk : k ≤ 64) (hmask : (alignment - 1).toNat = 2 ^ k - 1) (hpow : 2 ^ k ≤ 65536)
    (hfirst : start.toNat ≤ 2 ^ 20) (hat : alignedOffset block.base start (alignment - 1) = offset)
    (hpos : 0 < size.toNat) (hend : offset.toNat + size.toNat ≤ 65536) :
    (block.base + offset).toNat = block.base.toNat + offset.toNat ∧
      2 ^ k ∣ (block.base + offset).toNat ∧
      Allocation.Within ⟨block.base + offset, size, alignment⟩ block.base := by
  have hbound := block.bounded
  have hnat := alignedOffset_toNat block.base hk hmask hpow hfirst
  have hstart : (block.base + offset).toNat = block.base.toNat + offset.toNat := by
    rw [UInt64.toNat_add, Nat.mod_eq_of_lt (by omega)]
  refine ⟨hstart, ?_, ?_⟩
  · rw [hstart, ← hat, hnat, ← Nat.add_assoc]
    exact dvd_add_padding (Nat.two_pow_pos k)
  · unfold Allocation.Within Allocation.finish
    dsimp only
    omega

/-- A request with room keeps the ranges packed. -/
theorem packed_alloc (h : Packed s) {malloc : Malloc} {size alignment : UInt64}
    (hfits : Fits s.arena (.alloc malloc size alignment)) :
    Packed (applyCall s (.alloc malloc size alignment)) := by
  have hserved := served malloc s.arena size alignment
  have hused := h.offset_le
  rw [applyCall]
  generalize arenaAllocAligned malloc s.arena size alignment = r at hserved ⊢
  cases hserved with
  | refused => exact h
  | here hsize hat hroom =>
    rename_i taken offset
    obtain ⟨k, hk, hpow, hmask, hpos, hle, htaken, hsmall⟩ := alignedSize_eq_some hsize
    have hpad := padding_lt (x := s.arena.current.base.toNat + s.arena.current.offset.toNat)
      (Nat.two_pow_pos k)
    have hnat := alignedOffset_toNat s.arena.current.base hk hmask hsmall hused
    rw [hat] at hnat
    have hsum : (offset + taken).toNat = offset.toNat + taken.toNat := by
      rw [UInt64.toNat_add, Nat.mod_eq_of_lt (by omega)]
    have hend : offset.toNat + taken.toNat ≤ 65536 := hsum ▸ UInt64.le_iff_toNat_le.mp hroom
    obtain ⟨hstart, hdvd, hwithin⟩ := within_of_alignedOffset s.arena.current hk hmask hsmall
      hused hat hpos (by omega)
    refine h.cons (hpow ▸ hdvd) (Or.inr ⟨hwithin, ?_⟩) (fun a ha => ?_) ?_
    · simp only [Allocation.finish, Arena.bump]
      omega
    · rcases h.placed a ha with ⟨block, hblock, hin⟩ | ⟨hin, hbelow⟩
      · exact ⟨Or.inl ⟨block, hblock, hin⟩,
          Or.symm (Allocation.disjoint_of_apart hin hwithin (Arena.apart_before hblock))⟩
      · refine ⟨Or.inr ⟨hin, ?_⟩, Or.inr ?_⟩
        · simp only [Arena.bump]
          omega
        · dsimp only
          omega
    · simp only [Arena.bump]
      omega
  | moved arena' hsize hfull hnext hbefore hat hbumped =>
    rename_i taken offset
    obtain ⟨k, hk, hpow, hmask, hpos, hle, htaken, hsmall⟩ := alignedSize_eq_some hsize
    have hroom := hfits taken hsize hfull _ hnext
    have hzero : (0 : UInt64).toNat ≤ 2 ^ 20 := by decide
    have hnat := alignedOffset_toNat arena'.current.base hk hmask hsmall hzero
    rw [UInt64.toNat_zero, Nat.zero_add, Nat.add_zero, hat] at hnat
    rw [hpow, ← hnat] at hroom
    have hsum : arena'.current.offset.toNat = offset.toNat + taken.toNat := by
      rw [hbumped, UInt64.toNat_add, Nat.mod_eq_of_lt (by omega)]
    obtain ⟨hstart, hdvd, hwithin⟩ := within_of_alignedOffset arena'.current hk hmask hsmall hzero
      hat hpos hroom
    refine h.cons (hpow ▸ hdvd) (Or.inr ⟨hwithin, ?_⟩) (fun a ha => ?_) ?_
    · simp only [Allocation.finish]
      omega
    · have hin : ∃ block ∈ arena'.before, a.Within block.base := by
        rw [hbefore]
        rcases h.placed a ha with ⟨block, hblock, hin⟩ | ⟨hin, -⟩
        · exact ⟨block, List.mem_append_left _ hblock, hin⟩
        · exact ⟨_, List.mem_append_right _ (List.mem_singleton_self _), hin⟩
      obtain ⟨block, hblock, hblockIn⟩ := hin
      exact ⟨Or.inl ⟨block, hblock, hblockIn⟩,
        Or.symm (Allocation.disjoint_of_apart hblockIn hwithin (Arena.apart_before hblock))⟩
    · dsimp only
      omega

theorem arenaReset_offset (arena : Arena) : (arenaReset arena).current.offset = 0 := by
  unfold arenaReset
  split
  · rfl
  · rfl

theorem packed_step (h : Packed s) {call : Call} (hfits : Fits s.arena call) :
    Packed (applyCall s call) := by
  cases call with
  | alloc malloc size alignment => exact packed_alloc h hfits
  | reset =>
    refine ⟨List.forall_mem_nil _, List.forall_mem_nil _, List.Pairwise.nil, ?_⟩
    rw [applyCall, arenaReset_offset]
    decide

/-- A range that starts in the last block of the chain lies in no other. -/
theorem Arena.base_eq_of_within (harena : base ∈ arena.bases) (hwithin : a.Within base)
    (hpos : 0 < a.size.toNat) (hlow : arena.current.base.toNat ≤ a.start.toNat)
    (hhigh : a.start.toNat < arena.current.base.toNat + 65536) : base = arena.current.base := by
  by_contra hne
  have happart := List.Pairwise.forall arena.apart harena
    (List.mem_map_of_mem (List.mem_append_right _ List.mem_cons_self)) hne
  unfold Apart at happart
  unfold Allocation.Within Allocation.finish at hwithin
  omega

/-- A call after which all ranges are inside a block had room. -/
theorem fits_of_inside {call : Call}
    (h : ∀ a ∈ (applyCall s call).handed, ∃ base ∈ (applyCall s call).arena.bases, a.Within base) :
    Fits s.arena call := by
  cases call with
  | reset => exact trivial
  | alloc malloc size alignment =>
    intro taken hsize hfull base hnext
    have hserved := served malloc s.arena size alignment
    rw [applyCall] at h
    generalize arenaAllocAligned malloc s.arena size alignment = r at hserved h
    cases hserved with
    | refused hnone => exact absurd (hnext.symm.trans (hnone taken hsize)) (by rintro ⟨⟩)
    | here hsize' hat hroom =>
      obtain rfl := Option.some.inj (hsize.symm.trans hsize')
      exact absurd (hat ▸ hfull) (UInt64.not_lt.mpr hroom)
    | moved arena' hsize' hfull' hnext' hbefore hat hbumped =>
      rename_i offset
      obtain rfl := Option.some.inj (hnext.symm.trans hnext')
      obtain ⟨k, hk, hpow, hmask, hpos, -, -, hsmall⟩ := alignedSize_eq_some hsize
      have hpad := padding_lt (x := arena'.current.base.toNat) (Nat.two_pow_pos k)
      have hnat := alignedOffset_toNat arena'.current.base hk hmask hsmall
        (show (0 : UInt64).toNat ≤ 2 ^ 20 by decide)
      rw [UInt64.toNat_zero, Nat.zero_add, Nat.add_zero, hat] at hnat
      have hbound := arena'.current.bounded
      have hstart : (arena'.current.base + offset).toNat =
          arena'.current.base.toNat + offset.toNat := by
        rw [UInt64.toNat_add, Nat.mod_eq_of_lt (by omega)]
      obtain ⟨base, hbase, hwithin⟩ := h _ List.mem_cons_self
      have hsame := Arena.base_eq_of_within hbase hwithin hpos (by dsimp only; omega)
        (by dsimp only; omega)
      rw [hsame] at hwithin
      have hfinish := hwithin.2
      dsimp only [Allocation.finish] at hfinish
      rw [hpow, ← hnat]
      omega

end Invariant

section Runs

theorem runCalls_append (first : Fresh []) (calls : List Call) (call : Call) :
    runCalls first (calls ++ [call]) = applyCall (runCalls first calls) call :=
  List.foldl_concat ..

/-- The ranges handed out since the last reset are aligned, inside one block each and
pairwise disjoint at every point of a sequence of requests and resets exactly if every
request that goes to another block has room there behind the padding. -/
theorem allocations_sound_iff (first : Fresh []) (calls : List Call) :
    Throughout (fun made => Sound (runCalls first made)) calls ↔
      EachCall (fun made call => Fits (runCalls first made).arena call) calls := by
  constructor
  · intro h before call after hcalls
    have hsound : Sound (runCalls first (before ++ [call])) :=
      h (before ++ [call]) after (hcalls.trans (List.append_cons ..))
    rw [runCalls_append] at hsound
    exact fits_of_inside hsound.inside
  · intro h
    have hpacked : Throughout (fun made => Packed (runCalls first made)) calls := by
      refine (throughout_iff ?_ fun before call _ _ hbefore => ?_).mpr h
      · exact ⟨List.forall_mem_nil _, List.forall_mem_nil _, List.Pairwise.nil, Nat.zero_le _⟩
      · rw [runCalls_append]
        exact ⟨fun hafter => fits_of_inside hafter.sound.inside, packed_step hbefore⟩
    exact fun before after hcalls => (hpacked before after hcalls).sound

instance (a b : UInt64) : Decidable (Apart a b) := inferInstanceAs (Decidable (_ ∨ _))

instance (a : Allocation) (base : UInt64) : Decidable (a.Within base) :=
  inferInstanceAs (Decidable (_ ∧ _))

def secondBlock : Malloc := fun held =>
  if h : held.all (fun b => decide (Apart b 0x30010)) = true then
    some ⟨0x30010, by decide, by decide, fun b hb =>
      of_decide_eq_true (List.all_eq_true.mp h b hb)⟩
  else none

def firstBlock : Fresh [] := ⟨0x10010, by decide, by decide, by simp⟩

def wholeBlock : Session := runCalls firstBlock [.alloc secondBlock 65536 32]

/-- The whole block is handed out 16 bytes into a new block, so its last 16 bytes are
behind the block. -/
theorem padding_unchecked :
    wholeBlock.arena.bases = [0x10010, 0x30010] ∧
      wholeBlock.handed.map Allocation.start = [0x30020] ∧
      wholeBlock.handed.map Allocation.size = [65536] ∧ ¬Sound wholeBlock := by
  have hbases : wholeBlock.arena.bases = [0x10010, 0x30010] := by decide
  have hhanded : wholeBlock.handed = [⟨0x30020, 65536, 32⟩] := rfl
  refine ⟨hbases, by rw [hhanded]; rfl, by rw [hhanded]; rfl, fun h => ?_⟩
  have hinside := h.inside
  rw [hbases, hhanded] at hinside
  obtain ⟨base, hbase, hwithin⟩ := hinside _ List.mem_cons_self
  rcases List.mem_cons.mp hbase with rfl | hbase
  · exact absurd hwithin (by decide)
  · rw [List.mem_singleton.mp hbase] at hwithin
    exact absurd hwithin (by decide)

end Runs

end Div0.ArenaAlloc
