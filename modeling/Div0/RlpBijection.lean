import Div0.RlpDecode
import Div0.RlpEncode

/-!
The encoders and decoders of single items against each other. What an encoder writes is
read back, and what the string decoder accepts is what the string encoder writes. The two
integer decoders accept one string more than the encoders write: a zero byte for zero.
-/

namespace Div0.RlpBijection

open BigEndian Buffer RlpFormat RlpTree RlpEncode RlpDecode Uint256

variable {alloc : Alloc} {d d' : Decoder}

/-- Wherever the bytes stand, the decoder returns the value and consumes exactly them. -/
def ReadsBack {α : Type} (decode : Decoder → Result α) (encoded : Bytes) (value : α) : Prop :=
  ∀ (d : Decoder) (tail : Bytes), d.rest = encoded ++ tail →
    decode d = (.ok ⟨value, encoded.length⟩, d.advance encoded.length)

/-- Strings are read back as they were encoded, and what is accepted as a string is the
encoding of that string; numbers and addresses are read back as they were encoded. -/
theorem rlp_strings_bijection (alloc : Alloc) (hsmall : GrantsUpTo alloc 33) :
    (∀ b : Bytes, b.length < 2 ^ 64 → alloc (encodeString b).length = true →
      ReadsBack rlpDecodeBytes (rlpEncodeBytes alloc b).data b) ∧
    (∀ d r d', rlpDecodeBytes d = (.ok r, d') → alloc (encodeString r.value).length = true →
      Reads d [(rlpEncodeBytes alloc r.value).data] d' ∧
        r.bytesConsumed = (rlpEncodeBytes alloc r.value).data.length) ∧
    (∀ v, ReadsBack rlpDecodeU64 (rlpEncodeU64 alloc v).data v) ∧
    (∀ v, ReadsBack rlpDecodeUint256 (rlpEncodeUint256 alloc v).data v) ∧
    ∀ addr, ReadsBack rlpDecodeAddress (rlpEncodeAddress alloc addr).data addr := by
  refine ⟨?_, ?_, ?_, ?_, ?_⟩
  · intro b hlen halloc d tail hrest
    rw [rlpEncodeBytes_eq halloc] at hrest ⊢
    exact rlpDecodeBytes_encode hlen hrest
  · intro d r d' hdecode halloc
    obtain ⟨-, hconsumed, hreads⟩ := rlpDecodeBytes_ok hdecode
    rw [rlpEncodeBytes_eq halloc]
    exact ⟨hreads, hconsumed⟩
  · intro v d tail hrest
    rw [rlpEncodeU64_data fun size hpos hle => hsmall size hpos (by omega)] at hrest ⊢
    exact rlpDecodeU64_encode hrest
  · intro v d tail hrest
    rw [rlpEncodeUint256_data hsmall] at hrest ⊢
    exact rlpDecodeUint256_encode hrest
  · intro addr d tail hrest
    rw [rlpEncodeAddress_data fun size hpos hle => hsmall size hpos (by omega)] at hrest ⊢
    exact rlpDecodeAddress_encode hrest

theorem rlp_strings_bijection_short :
    rlpDecodeBytes ⟨0x82 :: [1, 2, 3], 0⟩ = (.ok ⟨[1, 2], 3⟩, ⟨0x82 :: [1, 2, 3], 3⟩) :=
  (rlp_strings_bijection arenaAlloc (arenaAlloc_supply.grantsUpTo (by decide))).1 [1, 2]
    (by decide) (by decide) ⟨0x82 :: [1, 2, 3], 0⟩ [3] rfl

/-- The first byte of the encoding of a number is not zero. -/
theorem encodeNat_head {n : ℕ} (hlen : byteLength n < 56) :
    ∃ b rest, encodeNat n = b :: rest ∧ b ≠ 0 := by
  by_cases hzero : n = 0
  · exact ⟨0x80, [], by rw [hzero]; rfl, by decide⟩
  by_cases hsmall : n < 128
  · refine ⟨UInt8.ofNat n, [], encodeNat_small (by omega) hsmall, fun heq => ?_⟩
    have hn := congrArg UInt8.toNat heq
    rw [UInt8.toNat_ofNat', Nat.mod_eq_of_lt (by omega)] at hn
    exact hzero hn
  · refine ⟨_, _, encodeNat_large (by omega) hlen, fun heq => ?_⟩
    have hn := congrArg UInt8.toNat heq
    rw [UInt8.toNat_ofNat', Nat.mod_eq_of_lt (by omega)] at hn
    change 0x80 + byteLength n = 0 at hn
    omega

theorem peek_of_reads {b : UInt8} {rest : Bytes} (h : Reads d [b :: rest] d') : d.peek = b := by
  have hbytes := h.bytes
  rw [List.flatten_singleton, List.cons_append] at hbytes
  exact (Decoder.hasMore_of_rest hbytes).2.1

/-- An accepted integer is read from its encoding unless it is read from a zero byte. -/
theorem reads_encodeNat_iff {n : ℕ} {bytes : Bytes} (hlen : byteLength n < 56)
    (hform : IntegerForm n bytes) (hreads : Reads d [encodeString bytes] d') :
    Reads d [encodeNat n] d' ↔ d.peek ≠ 0 := by
  obtain ⟨b, rest, hhead, hb⟩ := encodeNat_head hlen
  rcases hform.form with rfl | hcanonical
  · have hzero : Reads d [(0 : UInt8) :: []] d' := hreads
    have hpeek := peek_of_reads hzero
    refine ⟨fun h => ?_, fun h => absurd hpeek h⟩
    rw [hhead] at h
    exact absurd ((peek_of_reads h).symm.trans hpeek) hb
  · rw [hcanonical] at hreads
    refine ⟨fun _ => ?_, fun _ => hreads⟩
    rw [hhead] at hreads
    rw [peek_of_reads hreads]
    exact hb

/-- The bytes consumed for an accepted integer are the encoding of its value exactly when
the first of them is not zero. -/
theorem rlp_integers_canonical_iff (alloc : Alloc) (hsmall : GrantsUpTo alloc 33) (d d' : Decoder) :
    (∀ r, rlpDecodeU64 d = (.ok r, d') →
      (Reads d [(rlpEncodeU64 alloc r.value).data] d' ↔ d.peek ≠ 0)) ∧
    ∀ r, rlpDecodeUint256 d = (.ok r, d') →
      (Reads d [(rlpEncodeUint256 alloc r.value).data] d' ↔ d.peek ≠ 0) := by
  constructor
  · intro r hdecode
    obtain ⟨bytes, -, -, hform, hreads⟩ := rlpDecodeU64_ok hdecode
    have hlen := byteLength_le_eight r.value.toNat_lt
    rw [rlpEncodeU64_data fun size hpos hle => hsmall size hpos (by omega)]
    exact reads_encodeNat_iff (by omega) hform hreads
  · intro r hdecode
    obtain ⟨bytes, -, -, hform, hreads⟩ := rlpDecodeUint256_ok hdecode
    have hlen := byteLength_word r.value
    rw [rlpEncodeUint256_data hsmall]
    exact reads_encodeNat_iff (by omega) hform hreads

theorem rlp_integers_canonical_iff_one :
    Reads ⟨[1], 0⟩ [(rlpEncodeU64 arenaAlloc 1).data] ⟨[1], 1⟩ :=
  ((rlp_integers_canonical_iff arenaAlloc (arenaAlloc_supply.grantsUpTo (by decide)) ⟨[1], 0⟩
    ⟨[1], 1⟩).1 ⟨1, 1⟩ (by decide)).mpr (by decide)

/-- A zero byte is accepted as zero, whose encoding is 0x80. -/
theorem zero_byte_accepted :
    rlpDecodeU64 ⟨[0], 0⟩ = (.ok ⟨0, 1⟩, ⟨[0], 1⟩) ∧
    rlpDecodeUint256 ⟨[0], 0⟩ = (.ok ⟨uint256Zero, 1⟩, ⟨[0], 1⟩) ∧
    (rlpEncodeU64 arenaAlloc 0).data = [0x80] ∧
    (rlpEncodeUint256 arenaAlloc uint256Zero).data = [0x80] := by
  decide

end Div0.RlpBijection
