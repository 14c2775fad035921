import Div0.Buffer
import Div0.RlpTree
import Div0.Uint256

/-!
The encoder half of the RLP library: strings and numbers are encoded into a string
of their own, lists are built in place. `rlp_list_start` leaves nine bytes for the
header, `rlp_list_end` writes the real header there and moves the payload down.
While the block has room they all agree with the format; the lemmas say so.
-/

namespace Div0.RlpEncode

open BigEndian Buffer RlpFormat RlpTree Uint256

/-- `rlp_length_of_length`; `64 - clz` is the bit length of the value. -/
def rlpLengthOfLength (value : ℕ) : ℕ :=
  if value < 56 then 0 else (Nat.log2 value + 1 + 7) / 8

def writeLengthBytes (len : ℕ) : Bytes := toBytes (rlpLengthOfLength len) len

def rlpEncodeBytes (alloc : Alloc) (data : Bytes) : Buf :=
  if data.length = 1 ∧ (data.headD 0).toNat ≤ 0x7f then
    (Buf.init.reserve! alloc 1).append! alloc [data.headD 0]
  else if data.length < 56 then
    ((Buf.init.reserve! alloc (1 + data.length)).append! alloc
      [UInt8.ofNat (0x80 + data.length)]).append! alloc data
  else
    let lenBytes := rlpLengthOfLength data.length
    (((Buf.init.reserve! alloc (1 + lenBytes + data.length)).append! alloc
      [UInt8.ofNat (0xb7 + lenBytes)]).append! alloc
      (writeLengthBytes data.length)).append! alloc data

/-- `rlp_byte_length_u64`; the number of leading zero bits is `63 - log2`. -/
def rlpByteLengthU64 (value : UInt64) : ℕ :=
  if value = 0 then 0 else 8 - (63 - Nat.log2 value.toNat) / 8

def rlpEncodeU64 (alloc : Alloc) (value : UInt64) : Buf :=
  if value = 0 then (Buf.init.reserve! alloc 1).append! alloc [0x80]
  else if value < 128 then (Buf.init.reserve! alloc 1).append! alloc [value.toUInt8]
  else
    let numBytes := rlpByteLengthU64 value
    -- the bytes are appended one by one, most significant first
    (toBytes numBytes value.toNat).foldl (fun result b => result.append! alloc [b])
      ((Buf.init.reserve! alloc (1 + numBytes)).append! alloc [UInt8.ofNat (0x80 + numBytes)])

def rlpEncodeUint256 (alloc : Alloc) (value : Word) : Buf :=
  if uint256IsZero value then (Buf.init.reserve! alloc 1).append! alloc [0x80]
  else if value.limb3 = 0 ∧ value.limb2 = 0 ∧ value.limb1 = 0 ∧ value.limb0 < 128 then
    (Buf.init.reserve! alloc 1).append! alloc [value.limb0.toUInt8]
  else
    let beBytes := uint256ToBytesBe value
    let start := (beBytes.takeWhile (· == 0)).length
    let numBytes := 32 - start
    ((Buf.init.reserve! alloc (1 + numBytes)).append! alloc
      [UInt8.ofNat (0x80 + numBytes)]).append! alloc (beBytes.drop start)

def rlpEncodeAddress (alloc : Alloc) (addr : Address) : Buf :=
  ((Buf.init.reserve! alloc 21).append! alloc [0x94]).append! alloc addr.bytes

def rlpMaxHeaderSize : ℕ := 9

/-- `rlp_list_start`: the string with the placeholder and the header position. -/
def rlpListStart (alloc : Alloc) (output : Buf) : Buf × ℕ :=
  (output.append! alloc (List.replicate rlpMaxHeaderSize 0), output.size)

def listHeader (payloadLen : ℕ) : Bytes :=
  if payloadLen < 56 then [UInt8.ofNat (0xc0 + payloadLen)]
  else UInt8.ofNat (0xf7 + rlpLengthOfLength payloadLen) :: writeLengthBytes payloadLen

/-- `rlp_list_end`. When the placeholder was lost, the payload length wraps around,
the header takes nine bytes and is written past the end of the block. -/
def rlpListEnd (output : Buf) (headerPos : ℕ) : Buf :=
  if output.size < headerPos + rlpMaxHeaderSize then { output with overrun := true }
  else
    let payloadLen := output.size - headerPos - rlpMaxHeaderSize
    { output with
      data := output.data.take headerPos ++ listHeader payloadLen ++
        output.data.drop (headerPos + rlpMaxHeaderSize) }

def rlpListAppendAll (alloc : Alloc) (output : Buf) (items : List Bytes) : Buf :=
  items.foldl (fun out item => out.append! alloc item) output

theorem rlpLengthOfLength_eq {value : ℕ} (h : ¬value < 56) :
    rlpLengthOfLength value = byteLength value := by
  have hz : value ≠ 0 := by omega
  simp only [rlpLengthOfLength, if_neg h, byteLength, if_neg hz]
  omega

theorem listHeader_eq (payloadLen : ℕ) : listHeader payloadLen = header 0xc0 0xf7 payloadLen := by
  unfold listHeader header
  split
  · rfl
  · next h => rw [writeLengthBytes, rlpLengthOfLength_eq h]

theorem isSingle_iff (data : Bytes) :
    IsSingle data ↔ data.length = 1 ∧ (data.headD 0).toNat ≤ 0x7f := by
  constructor
  · rintro ⟨b, rfl, hb⟩
    exact ⟨rfl, hb⟩
  · rintro ⟨hlen, hb⟩
    obtain ⟨b, rfl⟩ := List.length_eq_one_iff.mp hlen
    exact ⟨b, rfl, hb⟩

abbrev inRoom (room : ℕ) (data : Bytes) : Buf := ⟨data, some room, false⟩

variable {alloc : Alloc} {room : ℕ}

theorem append_inRoom {data src : Bytes} (h : data.length + src.length ≤ room) :
    (inRoom room data).append! alloc src = inRoom room (data ++ src) :=
  Buf.append!_of_room rfl h

theorem reserve_inRoom (hpos : 0 < room) (h : alloc room = true) :
    Buf.init.reserve! alloc room = inRoom room [] := by
  rw [Buf.reserve!_init h, if_neg (by omega)]
  rfl

/-- With its allocation granted, the string encoder produces the format's bytes. -/
theorem rlpEncodeBytes_eq {data : Bytes} (h : alloc (encodeString data).length = true) :
    rlpEncodeBytes alloc data = inRoom (encodeString data).length (encodeString data) := by
  unfold rlpEncodeBytes
  by_cases hs : data.length = 1 ∧ (data.headD 0).toNat ≤ 0x7f
  · have henc : encodeString data = data := by
      unfold encodeString
      rw [if_pos ((isSingle_iff data).mpr hs)]
    obtain ⟨b, rfl⟩ := List.length_eq_one_iff.mp hs.1
    rw [henc] at h ⊢
    have hone : alloc 1 = true := h
    rw [if_pos hs, reserve_inRoom (by omega) hone, append_inRoom (by simp)]
    rfl
  · have henc : encodeString data = header 0x80 0xb7 data.length ++ data := by
      unfold encodeString
      rw [if_neg (mt (isSingle_iff data).mp hs)]
    rw [if_neg hs]
    by_cases hshort : data.length < 56
    · have hlen : (encodeString data).length = 1 + data.length := by
        rw [henc, List.length_append, header_length, if_pos hshort]
      rw [hlen] at h ⊢
      rw [if_pos hshort, reserve_inRoom (by omega) h,
        append_inRoom (by simp), append_inRoom (by simp [Nat.add_comm]), henc, header,
        if_pos hshort]
      rfl
    · have hlen : (encodeString data).length = 1 + byteLength data.length + data.length := by
        rw [henc, List.length_append, header_length, if_neg hshort]
      rw [hlen] at h ⊢
      simp only [if_neg hshort, rlpLengthOfLength_eq hshort, writeLengthBytes]
      have hbytes := toBytes_length (byteLength data.length) data.length
      rw [reserve_inRoom (by omega) h,
        append_inRoom (by rw [List.length_nil, List.length_singleton]; omega),
        append_inRoom (by rw [List.nil_append, List.length_singleton, hbytes]; omega),
        append_inRoom (by rw [List.nil_append, List.length_append, List.length_singleton, hbytes]),
        henc, header, if_neg hshort, List.nil_append, List.singleton_append]

/-- Closing a list whose placeholder is in place frames the payload after it. -/
theorem rlpListEnd_eq (pre payload : Bytes) :
    rlpListEnd (inRoom room (pre ++ (List.replicate rlpMaxHeaderSize 0 ++ payload))) pre.length =
      inRoom room (pre ++ encodeList payload) := by
  have hsize : (inRoom room (pre ++ (List.replicate rlpMaxHeaderSize 0 ++ payload))).size =
      pre.length + rlpMaxHeaderSize + payload.length := by
    simp [Buf.size, Nat.add_assoc]
  unfold rlpListEnd
  rw [hsize, if_neg (by omega)]
  simp only [show pre.length + rlpMaxHeaderSize + payload.length - pre.length -
    rlpMaxHeaderSize = payload.length by omega, listHeader_eq]
  rw [List.take_left' rfl, ← List.append_assoc,
    List.drop_left' (by rw [List.length_append, List.length_replicate]), List.append_assoc]
  rfl

theorem rlpListAppendAll_inRoom {data : Bytes} {items : List Bytes}
    (h : data.length + items.flatten.length ≤ room) :
    rlpListAppendAll alloc (inRoom room data) items = inRoom room (data ++ items.flatten) := by
  induction items generalizing data with
  | nil => simp [rlpListAppendAll]
  | cons item rest ih =>
    rw [List.flatten_cons, List.length_append] at h
    have hstep : rlpListAppendAll alloc (inRoom room data) (item :: rest) =
        rlpListAppendAll alloc ((inRoom room data).append! alloc item) rest := rfl
    rw [hstep, append_inRoom (by omega), ih (by rw [List.length_append]; omega),
      List.flatten_cons, List.append_assoc]

/-- A list built into a block that has room for its placeholder and its items. -/
theorem buildList_eq {items : List Bytes} (h : rlpMaxHeaderSize + items.flatten.length ≤ room) :
    rlpListEnd (rlpListAppendAll alloc (rlpListStart alloc (inRoom room [])).1 items)
      (rlpListStart alloc (inRoom room [])).2 = inRoom room (encodeList items.flatten) := by
  have hstart : (rlpListStart alloc (inRoom room [])).1 =
      inRoom room (List.replicate rlpMaxHeaderSize 0) := by
    rw [rlpListStart, append_inRoom (by simp; omega), List.nil_append]
  have hpos : (rlpListStart alloc (inRoom room [])).2 = 0 := rfl
  have hend := @rlpListEnd_eq room [] items.flatten
  rw [hpos, hstart, rlpListAppendAll_inRoom (by rw [List.length_replicate]; omega)]
  simpa only [List.nil_append, List.length_nil] using hend

section Numbers

variable {alloc : Alloc}

/-- A number below 128 is its own encoding. -/
theorem encodeNat_small {n : ℕ} (hpos : 0 < n) (h : n < 128) : encodeNat n = [UInt8.ofNat n] := by
  have hlen : byteLength n = 1 := by
    have hle : byteLength n ≤ 1 := byteLength_le_of_lt_pow (by omega)
    have := byteLength_pos (show n ≠ 0 by omega)
    omega
  have hsingle : IsSingle [UInt8.ofNat n] := by
    refine ⟨UInt8.ofNat n, rfl, ?_⟩
    rw [UInt8.toNat_ofNat', Nat.mod_eq_of_lt (by omega)]
    omega
  have hbytes : toBytes 1 n = [UInt8.ofNat n] := by simp [toBytes]
  rw [encodeNat, hlen, hbytes, encodeString, if_pos hsingle]

/-- A number of 128 or more is framed by a short header. -/
theorem encodeNat_large {n : ℕ} (hlow : 128 ≤ n) (hlen : byteLength n < 56) :
    encodeNat n = UInt8.ofNat (0x80 + byteLength n) :: toBytes (byteLength n) n := by
  have hnot : ¬IsSingle (toBytes (byteLength n) n) := by
    intro hsingle
    obtain ⟨b, hb, hle⟩ := hsingle
    have hvalue := ofBytes_toBytes_byteLength n
    rw [hb, ofBytes_cons] at hvalue
    simp at hvalue
    omega
  rw [encodeNat, encodeString, if_neg hnot, toBytes_length, header, if_pos hlen]
  rfl

theorem rlpByteLengthU64_eq (value : UInt64) :
    rlpByteLengthU64 value = byteLength value.toNat := by
  unfold rlpByteLengthU64 byteLength
  by_cases hz : value = 0
  · simp [hz]
  · have hne : value.toNat ≠ 0 := fun h => hz (UInt64.toNat_inj.mp h)
    have hlog : Nat.log2 value.toNat < 64 := (Nat.log2_lt hne).mpr value.toNat_lt
    rw [if_neg hz, if_neg hne]
    omega

theorem appendBytes_inRoom (bytes data : Bytes) (h : data.length + bytes.length ≤ room) :
    bytes.foldl (fun result b => result.append! alloc [b]) (inRoom room data) =
      inRoom room (data ++ bytes) := by
  induction bytes generalizing data with
  | nil => simp
  | cons b rest ih =>
    rw [List.length_cons] at h
    rw [List.foldl_cons, append_inRoom (by rw [List.length_singleton]; omega),
      ih _ (by rw [List.length_append, List.length_singleton]; omega), List.append_assoc,
      List.singleton_append]

/-- One byte in a block of its own. -/
theorem singleByte_data (h : alloc 1 = true) (b : UInt8) :
    ((Buf.init.reserve! alloc 1).append! alloc [b]).data = [b] := by
  rw [reserve_inRoom (by omega) h, append_inRoom (by simp)]
  rfl

theorem rlpEncodeU64_data (h : GrantsUpTo alloc 9) (value : UInt64) :
    (rlpEncodeU64 alloc value).data = encodeNat value.toNat := by
  have hone : alloc 1 = true := h 1 (by omega) (by omega)
  unfold rlpEncodeU64
  by_cases hz : value = 0
  · rw [if_pos hz, singleByte_data hone, hz]
    rfl
  · have hpos : 0 < value.toNat := Nat.pos_of_ne_zero fun h => hz (UInt64.toNat_inj.mp h)
    rw [if_neg hz]
    by_cases hsmall : value < 128
    · have hlt : value.toNat < 128 := UInt64.lt_iff_toNat_lt.mp hsmall
      have hbyte : value.toUInt8 = UInt8.ofNat value.toNat := by
        apply UInt8.toNat_inj.mp
        simp
      rw [if_pos hsmall, singleByte_data hone, encodeNat_small hpos hlt, hbyte]
    · have hlow : 128 ≤ value.toNat := by
        by_contra hlt
        exact hsmall (UInt64.lt_iff_toNat_lt.mpr (not_le.mp hlt))
      have hlen : byteLength value.toNat ≤ 8 := byteLength_le_eight value.toNat_lt
      simp only [if_neg hsmall, rlpByteLengthU64_eq]
      rw [reserve_inRoom (by omega) (h _ (by omega) (by omega)), append_inRoom (by simp),
        appendBytes_inRoom _ _ (by simp), encodeNat_large hlow (by omega)]
      rfl

/-- Dropping the leading zeros of a big-endian form leaves the shortest one. -/
theorem drop_leading_zeros {bytes : Bytes} (h : ofBytes bytes ≠ 0) :
    bytes.drop (bytes.takeWhile (· == 0)).length =
      toBytes (byteLength (ofBytes bytes)) (ofBytes bytes) := by
  induction bytes with
  | nil => exact absurd rfl h
  | cons b rest ih =>
    by_cases hb : b = 0
    · have hvalue : ofBytes (b :: rest) = ofBytes rest := by
        rw [ofBytes_cons, hb]
        simp
      rw [hvalue] at h ⊢
      rw [List.takeWhile_cons_of_pos (by simp [hb]), List.length_cons, List.drop_succ_cons, ih h]
    · rw [List.takeWhile_cons_of_neg (by simp [hb]), List.length_nil, List.drop_zero,
        byteLength_ofBytes hb, toBytes_ofBytes]

theorem rlpEncodeUint256_data (h : GrantsUpTo alloc 33) (value : Word) :
    (rlpEncodeUint256 alloc value).data = encodeNat value.toNat := by
  have hone : alloc 1 = true := h 1 (by omega) (by omega)
  unfold rlpEncodeUint256
  by_cases hz : uint256IsZero value = true
  · rw [if_pos hz, singleByte_data hone, (isZero_iff value).mp hz]
    rfl
  · have hne : value.toNat ≠ 0 := fun h => hz ((isZero_iff value).mpr h)
    rw [if_neg hz]
    by_cases hsmall : value.limb3 = 0 ∧ value.limb2 = 0 ∧ value.limb1 = 0 ∧ value.limb0 < 128
    · have hvalue : value.toNat = value.limb0.toNat := by
        simp [Word.toNat, hsmall.1, hsmall.2.1, hsmall.2.2.1]
      have hlt : value.toNat < 128 := hvalue ▸ UInt64.lt_iff_toNat_lt.mp hsmall.2.2.2
      have hbyte : value.limb0.toUInt8 = UInt8.ofNat value.toNat := by
        apply UInt8.toNat_inj.mp
        simp [hvalue]
      rw [if_pos hsmall, singleByte_data hone, encodeNat_small (by omega) hlt, hbyte]
    · have hlow : 128 ≤ value.toNat := by
        by_contra hlt
        refine hsmall ?_
        simp only [Word.toNat] at hlt
        simp only [← UInt64.toNat_inj, UInt64.lt_iff_toNat_lt]
        simp
        omega
      have hform := ofBytes_toBytesBe value
      have hdrop := drop_leading_zeros (hform ▸ hne)
      rw [hform] at hdrop
      have hlen : byteLength value.toNat ≤ 32 :=
        byteLength_le_of_lt_pow (lt_of_lt_of_eq value.toNat_lt (by norm_num))
      have hnum : 32 - ((uint256ToBytesBe value).takeWhile (· == 0)).length =
          byteLength value.toNat := by
        rw [← toBytesBe_length value, ← List.length_drop, hdrop, toBytes_length]
      simp only [if_neg hsmall, hnum, hdrop]
      rw [reserve_inRoom (by omega) (h _ (by omega) (by omega)), append_inRoom (by simp),
        append_inRoom (by simp), encodeNat_large hlow (by omega)]
      rfl

theorem rlpEncodeAddress_data (h : GrantsUpTo alloc 21) (addr : Address) :
    (rlpEncodeAddress alloc addr).data = encodeString addr.bytes := by
  have hsize := addr.size_eq
  have hnot : ¬IsSingle addr.bytes := by
    intro hsingle
    have hone := ((isSingle_iff addr.bytes).mp hsingle).1
    omega
  unfold rlpEncodeAddress
  rw [reserve_inRoom (by omega) (h 21 (by omega) le_rfl), append_inRoom (by simp),
    append_inRoom (by simp [hsize]), encodeString, if_neg hnot, hsize]
  rfl

end Numbers

end Div0.RlpEncode
