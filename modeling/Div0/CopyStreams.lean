import Div0.MemoryContents

/-!
The instructions that copy from the input or from a code, and the one that loads a word of the
input, read the same kind of source: its bytes, and zeros without an end behind them. The
offset into the source may be any word, also one that no 64-bit integer holds.
-/

namespace Div0.CopyStreams

open BigEndian Effects Memory Node Uint256 Uint256Ops Frame Opcodes FrameOps Interpreter CallEffects
open GasConservation MemoryInstructions CallSetups MemoryContents WriteLogs

section Streams

def stream (source : Bytes) : ℕ → UInt8 := cellsOf 0 source

/-- The length of a source is a `size_t`. -/
def Addressable (source : Bytes) : Prop := source.length < 2 ^ 64

variable {source : Bytes} {offset : Word}

theorem drop_of_far (h : Addressable source) (hfar : ¬uint256FitsU64 offset = true) :
    source.drop offset.toNat = [] := by
  rw [fitsU64_iff, not_lt] at hfar
  exact List.drop_eq_nil_of_le (le_trans (le_of_lt h) hfar)

theorem zeroPadded_eq (h : Addressable source) (size : UInt64) :
    zeroPadded source offset size = span (stream source) offset.toNat size.toNat := by
  rw [stream, span_cellsOf_padded]
  unfold zeroPadded
  dsimp only
  split
  · next hfits => rw [toU64_toNat offset ((fitsU64_iff offset).mp hfits)]
  · next hfar => rw [drop_of_far h hfar, List.take_nil]

theorem calldataValue_eq (h : Addressable source) :
    calldataValue source offset =
      uint256FromBytesBe (span (stream source) offset.toNat 32) := by
  rw [stream, span_cellsOf_padded]
  unfold calldataValue
  dsimp only
  split
  · next hfits => rw [toU64_toNat offset ((fitsU64_iff offset).mp hfits)]
  · next hfar =>
    rw [drop_of_far h hfar, List.take_nil]
    rfl

end Streams

section Instructions

/-- The operands of a copy, with the source it reads. -/
structure Copy where
  source : Bytes
  dest : Word
  src : Word
  size : Word

def copyNext (s : Active) : Opcode → Option Copy
  | .calldatacopy => some ⟨s.frame.input, operand s 0, operand s 1, operand s 2⟩
  | .codecopy => some ⟨s.frame.code, operand s 0, operand s 1, operand s 2⟩
  | .extcodecopy => some ⟨codeAt s.evm (addressFromUint256 (operand s 0)), operand s 1,
      operand s 2, operand s 3⟩
  | _ => none

/-- The memory after a copy: the bytes of the stream from `src` on are at `dest`, and every
other byte is as it was, or zero where the memory has grown. -/
structure CopiedTo (c : Copy) (mem mem' : EvmMemory) : Prop where
  bytes : ∀ i < c.size.toNat,
    contents mem' (c.dest.toNat + i) = stream c.source (c.src.toNat + i)
  others : ∀ i, (∀ k < c.size.toNat, i ≠ c.dest.toNat + k) → contents mem' i = contents mem i
  grown : mem.data.length ≤ mem'.data.length
  inside : c.size.toNat ≠ 0 → c.dest.toNat + c.size.toNat ≤ mem'.data.length

variable {host : Host} {s s' : Active}

theorem writeOf_copyNext {opcode : Opcode} {c : Copy} (h : copyNext s opcode = some c) :
    writeOf s opcode = some (copyOf c.source c.dest c.src c.size) := by
  cases opcode <;> cases h <;> rfl

theorem copyOf_eq {c : Copy} (h : Addressable c.source) (hfits : c.size.toNat < 2 ^ 64) :
    copyOf c.source c.dest c.src c.size =
      ⟨c.dest.toNat, span (stream c.source) c.src.toNat c.size.toNat⟩ := by
  rw [copyOf, zeroPadded_eq h, toU64_toNat _ hfits]

/-- The copy written as a stream. -/
theorem copiedTo_of_stored {c : Copy}
    (h : Stored s s' ⟨c.dest.toNat, span (stream c.source) c.src.toNat c.size.toNat⟩) :
    CopiedTo c s.frame.memory s'.frame.memory where
  bytes i hi := by
    rw [h.contents, overlay_span, if_pos ⟨Nat.le_add_right _ _, by omega⟩,
      Nat.add_sub_cancel_left]
  others i hother := by
    rw [h.contents, overlay_span, if_neg]
    rintro ⟨hstart, hstop⟩
    exact hother (i - c.dest.toNat) (by omega) (by omega)
  grown := h.grown
  inside hsize := by
    have hne : span (stream c.source) c.src.toNat c.size.toNat ≠ [] := by
      intro hnil
      have hlength := span_length (stream c.source) c.src.toNat c.size.toNat
      rw [hnil] at hlength
      exact hsize hlength.symm
    have hstop := h.inside hne
    rwa [Write.stop, span_length] at hstop

theorem get_eq (s : Active) : (get : Op Active) s = .ok s s := rfl

theorem opCalldataload_meets (cost : UInt64) :
    Meets StaysInside (opCalldataload cost) s fun _ s' => s'.frame.stack.items =
      calldataValue s.frame.input (operand s 0) :: s.frame.stack.items.drop 1 := by
  unfold opCalldataload lookupOp
  refine hasItems_meets fun hitems => ?_
  by_cases hgas : cost ≤ s.frame.gas
  · rw [meets_bind_of_ok (charge_ok hgas), meets_bind_of_ok (pop_first (by exact hitems))]
    rw [meets_bind_of_ok (get_eq _)]
    exact push_items_meets _
  · exact (meets_of_error (bind_of_error (charge_error hgas))).mpr nofun

/-- CALLDATACOPY, CODECOPY and EXTCODECOPY that succeed leave the bytes of their source, taken
as a stream, in the memory, and CALLDATALOAD pushes 32 of them. -/
theorem copies_read_stream (host : Host) {s s' : Active} {opcode : Opcode}
    {result : Option FrameResult} (hnext : nextOpcode s.frame = some opcode)
    (hrun : dispatch host s = .ok result s') :
    (∀ c, copyNext s opcode = some c → Addressable c.source →
      c.dest.toNat + c.size.toNat ≤ 2 ^ 63 → CopiedTo c s.frame.memory s'.frame.memory) ∧
    (opcode = .calldataload → Addressable s.frame.input →
      ∃ value, s'.frame.stack.items = value :: s.frame.stack.items.drop 1 ∧
        uint256ToBytesBe value = span (stream s.frame.input) (operand s 0).toNat 32) := by
  refine ⟨fun c hcopy hsource hend => ?_, ?_⟩
  · have hwrite := copyOf_eq (c := c) hsource (by omega)
    have hends : EndsBy (2 ^ 63) (copyOf c.source c.dest c.src c.size) := by
      intro _
      rw [hwrite, Write.stop, span_length]
      exact hend
    have hmeets : Meets StaysInside (dispatch host) s fun _ s' =>
        Stored s s' (copyOf c.source c.dest c.src c.size) :=
      dispatch_stores hnext (writeOf_copyNext hcopy) hends.clear
    have hstored := (meets_of_ok hrun).mp hmeets
    rw [hwrite] at hstored
    exact copiedTo_of_stored hstored
  · rintro rfl hinput
    have hmeets : Meets StaysInside (dispatch host) s fun _ s' => s'.frame.stack.items =
        calldataValue s.frame.input (operand s 0) :: s.frame.stack.items.drop 1 :=
      (dispatch_meets hnext).mpr (meets_bind.mpr ((opCalldataload_meets (s := fetched s) _).mono
        fun _ _ hitems => meets_pure.mpr hitems))
    refine ⟨_, (meets_of_ok hrun).mp hmeets, ?_⟩
    rw [calldataValue_eq hinput, toBytesBe_fromBytesBe (span_length _ _ _)]

def tailCopy : Machine :=
  stepped 3 (onEmptyState [0x60, 3, 0x60, 4, 0x5f, 0x39])

theorem copies_read_stream_tail :
    ∃ s', dispatch paddedHost tailCopy.active = .ok none s' ∧
      CopiedTo ⟨[0x60, 3, 0x60, 4, 0x5f, 0x39], uint256Zero, uint256FromU64 4, uint256FromU64 3⟩
        tailCopy.active.frame.memory s'.frame.memory := by
  have hnext : nextOpcode tailCopy.active.frame = some .codecopy := by decide +kernel
  have hrun : ∃ s', dispatch paddedHost tailCopy.active = .ok none s' := ⟨_, rfl⟩
  obtain ⟨s', hrun⟩ := hrun
  refine ⟨s', hrun, (copies_read_stream _ hnext hrun).1 _ rfl ?_ ?_⟩
  · rw [Addressable]
    decide +kernel
  · decide +kernel

end Instructions

end Div0.CopyStreams
