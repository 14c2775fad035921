import Div0.RlpTree
import Div0.Uint256

/-!
The decoder half of the RLP library. A decoder reads from a position in the input and
moves it on, also when it fails. Each decoder has two lemmas: what it accepts is the
encoding of what it returns, and it accepts that encoding wherever it stands.
-/

namespace Div0.RlpDecode

open BigEndian RlpFormat RlpTree Uint256

/-- `rlp_error_t` without `RLP_SUCCESS`. -/
inductive RlpError where
  | inputTooShort
  | leadingZeros
  | nonCanonical
  | integerOverflow
  | listMismatch
  | invalidPrefix
  | wrongSize
  deriving DecidableEq, Repr

/-- `rlp_decoder_t`; `size` is the length of the input. -/
@[ext] structure Decoder where
  input : Bytes
  pos : ℕ
  deriving DecidableEq, Repr

/-- The value of a successful call and its `bytes_consumed`. -/
structure Decoded (α : Type) where
  value : α
  bytesConsumed : ℕ
  deriving DecidableEq, Repr

abbrev Result (α : Type) := Except RlpError (Decoded α) × Decoder

namespace Decoder

def hasMore (d : Decoder) : Bool := d.pos < d.input.length

def remaining (d : Decoder) : ℕ := d.input.length - d.pos

def peek (d : Decoder) : UInt8 := d.input.getD d.pos 0

def advance (d : Decoder) (n : ℕ) : Decoder := { d with pos := d.pos + n }

def rest (d : Decoder) : Bytes := d.input.drop d.pos

def view (d : Decoder) (n : ℕ) : Bytes := d.rest.take n

end Decoder

variable {d d' : Decoder}

def decodeLength (d : Decoder) (numBytes : ℕ) : Except RlpError ℕ × Decoder :=
  if d.remaining < numBytes then (.error .inputTooShort, d)
  else if d.peek = 0 then (.error .leadingZeros, d)
  else (.ok (limbOfBytes (d.view numBytes)).toNat, d.advance numBytes)

def rlpDecodeBytes (d : Decoder) : Result Bytes :=
  if d.hasMore then
    let first := d.peek
    let d1 := d.advance 1
    if first.toNat ≤ 0x7f then (.ok ⟨[first], 1⟩, d1)
    else if first.toNat ≤ 0xb7 then
      let len := first.toNat - 0x80
      if d1.remaining < len then (.error .inputTooShort, d1)
      else if len = 1 ∧ d1.peek.toNat ≤ 0x7f then (.error .nonCanonical, d1)
      else (.ok ⟨d1.view len, 1 + len⟩, d1.advance len)
    else if first.toNat ≤ 0xbf then
      let lenOfLen := first.toNat - 0xb7
      match decodeLength d1 lenOfLen with
      | (.error e, d2) => (.error e, d2)
      | (.ok len, d2) =>
        if len < 56 then (.error .nonCanonical, d2)
        else if d2.remaining < len then (.error .inputTooShort, d2)
        else (.ok ⟨d2.view len, 1 + lenOfLen + len⟩, d2.advance len)
    else (.error .invalidPrefix, d1)
  else (.error .inputTooShort, d)

/-- The checks `rlp_decode_u64` and `rlp_decode_uint256` share: at most `width` bytes,
no leading zero. -/
def decodeInteger {α : Type} (width : ℕ) (read : Bytes → α) (d : Decoder) : Result α :=
  match rlpDecodeBytes d with
  | (.error e, d1) => (.error e, d1)
  | (.ok bytes, d1) =>
    if bytes.value.length = 0 then (.ok ⟨read [], bytes.bytesConsumed⟩, d1)
    else if bytes.value.length > width then (.error .integerOverflow, d1)
    else if bytes.value.length > 1 ∧ bytes.value.headD 0 = 0 then (.error .leadingZeros, d1)
    else (.ok ⟨read bytes.value, bytes.bytesConsumed⟩, d1)

def rlpDecodeU64 : Decoder → Result UInt64 := decodeInteger 8 limbOfBytes

def rlpDecodeUint256 : Decoder → Result Word := decodeInteger 32 uint256FromBytesBe

def rlpDecodeAddress (d : Decoder) : Result Address :=
  match rlpDecodeBytes d with
  | (.error e, d1) => (.error e, d1)
  | (.ok bytes, d1) =>
    if h : bytes.value.length = 20 then (.ok ⟨⟨bytes.value, h⟩, bytes.bytesConsumed⟩, d1)
    else (.error .wrongSize, d1)

/-- `rlp_decode_list_header`: the payload length. -/
def rlpDecodeListHeader (d : Decoder) : Result ℕ :=
  if d.hasMore then
    let first := d.peek
    let d1 := d.advance 1
    if first.toNat ≤ 0xbf then (.error .invalidPrefix, d1)
    else if first.toNat ≤ 0xf7 then (.ok ⟨first.toNat - 0xc0, 1⟩, d1)
    else
      let lenOfLen := first.toNat - 0xf7
      match decodeLength d1 lenOfLen with
      | (.error e, d2) => (.error e, d2)
      | (.ok payloadLen, d2) =>
        if payloadLen < 56 then (.error .nonCanonical, d2)
        else (.ok ⟨payloadLen, 1 + lenOfLen⟩, d2)
  else (.error .inputTooShort, d)

def skipLength (d : Decoder) (lenOfLen : ℕ) : ℕ × Decoder :=
  let bytes := d.view lenOfLen
  ((limbOfBytes bytes).toNat, d.advance bytes.length)

def skipTo (d : Decoder) (len : ℕ) : Decoder :=
  let newPos := (d.pos + len) % 2 ^ 64
  { d with pos := if newPos < d.input.length then newPos else d.input.length }

def rlpSkipItem (d : Decoder) : Decoder :=
  if d.hasMore then
    let first := d.peek.toNat
    if first ≤ 0x7f then d.advance 1
    else if first ≤ 0xb7 then skipTo d (1 + (first - 0x80))
    else if first ≤ 0xbf then
      let (len, d1) := skipLength (d.advance 1) (first - 0xb7)
      skipTo d1 len
    else if first ≤ 0xf7 then skipTo d (1 + (first - 0xc0))
    else
      let (payloadLen, d1) := skipLength (d.advance 1) (first - 0xf7)
      skipTo d1 payloadLen
  else d

/-- The decoder `d` has read the tokens and stands at `d'`. -/
structure Reads (d : Decoder) (toks : List Bytes) (d' : Decoder) : Prop where
  moved : d' = d.advance toks.flatten.length
  bytes : d.rest = toks.flatten ++ d'.rest

variable {tail : Bytes}

namespace Decoder

@[simp] theorem advance_zero : d.advance 0 = d := rfl

@[simp] theorem advance_advance (m n : ℕ) : (d.advance m).advance n = d.advance (m + n) := by
  simp [advance, Nat.add_assoc]

@[simp] theorem advance_input (n : ℕ) : (d.advance n).input = d.input := rfl

@[simp] theorem advance_pos (n : ℕ) : (d.advance n).pos = d.pos + n := rfl

theorem rest_advance (n : ℕ) : (d.advance n).rest = d.rest.drop n := by
  rw [rest, rest, List.drop_drop]
  rfl

theorem remaining_eq : d.remaining = d.rest.length := by
  rw [remaining, rest, List.length_drop]

theorem rest_of_hasMore (h : d.hasMore = true) : d.rest = d.peek :: (d.advance 1).rest := by
  have hlt : d.pos < d.input.length := of_decide_eq_true h
  rw [rest, List.drop_eq_getElem_cons hlt, peek, List.getD_eq_getElem?_getD,
    List.getElem?_eq_getElem hlt, Option.getD_some]
  rfl

theorem hasMore_of_rest {b : UInt8} (h : d.rest = b :: tail) :
    d.hasMore = true ∧ d.peek = b ∧ (d.advance 1).rest = tail := by
  have hlt : d.pos < d.input.length := by
    by_contra hge
    rw [rest, List.drop_eq_nil_of_le (not_lt.mp hge)] at h
    cases h
  have hmore : d.hasMore = true := decide_eq_true hlt
  have hrest := rest_of_hasMore hmore
  rw [h] at hrest
  obtain ⟨hhead, htail⟩ := List.cons.inj hrest
  exact ⟨hmore, hhead.symm, htail.symm⟩

/-- The bytes in view are what is read when the decoder moves over them. -/
theorem rest_eq_view {n : ℕ} : d.rest = d.view n ++ (d.advance n).rest := by
  rw [view, rest_advance, List.take_append_drop]

theorem view_length {n : ℕ} (h : ¬d.remaining < n) : (d.view n).length = n := by
  rw [remaining_eq] at h
  rw [view, List.length_take]
  omega

theorem view_of_rest {x tail : Bytes} (h : d.rest = x ++ tail) : d.view x.length = x := by
  rw [view, h, List.take_left' rfl]

theorem rest_advance_of_rest {x tail : Bytes} (h : d.rest = x ++ tail) :
    (d.advance x.length).rest = tail := by
  rw [rest_advance, h, List.drop_left' rfl]

end Decoder

namespace Reads

variable {d'' : Decoder} {xs ys : List Bytes}

theorem refl (d : Decoder) : Reads d [] d := ⟨rfl, rfl⟩

theorem trans (h : Reads d xs d') (h' : Reads d' ys d'') : Reads d (xs ++ ys) d'' := by
  constructor
  · rw [h'.moved, h.moved, Decoder.advance_advance, List.flatten_append, List.length_append]
  · rw [h.bytes, h'.bytes, List.flatten_append, List.append_assoc]

theorem single {x : Bytes} {n : ℕ} (hn : n = x.length) (h : d.rest = x ++ (d.advance n).rest) :
    Reads d [x] (d.advance n) := by
  constructor
  · rw [hn, List.flatten_singleton]
  · rw [List.flatten_singleton]
    exact h

/-- What a decoder reads where a token is written is that token. -/
theorem eq_of_rest {x y tail : Bytes} (hx : IsToken x) (hy : IsToken y) (h : Reads d [x] d')
    (hrest : d.rest = y ++ tail) : x = y ∧ d' = d.advance y.length ∧ d'.rest = tail := by
  have hbytes := h.bytes
  rw [hrest, List.flatten_singleton] at hbytes
  obtain ⟨rfl, htail⟩ := hy.append_inj hx hbytes
  exact ⟨rfl, by rw [h.moved, List.flatten_singleton], htail.symm⟩

end Reads

section Lengths

variable {numBytes len : ℕ}

/-- A length that is read is in its shortest form. -/
theorem decodeLength_ok (hpos : 0 < numBytes) (height : numBytes ≤ 8)
    (h : decodeLength d numBytes = (.ok len, d')) :
    byteLength len = numBytes ∧ len < 2 ^ 64 ∧ d' = d.advance numBytes ∧
      d.rest = toBytes numBytes len ++ d'.rest := by
  unfold decodeLength at h
  split at h
  · cases h
  · next hroom =>
    split at h
    · cases h
    · next hzero =>
      obtain ⟨hlen, rfl⟩ := Prod.mk.inj h
      have hviewLen := Decoder.view_length hroom
      have hvalue : len = ofBytes (d.view numBytes) := by
        rw [← Except.ok.inj hlen, limbOfBytes_toNat (by omega)]
      have hmore : d.hasMore = true := by
        rw [Decoder.remaining] at hroom
        exact decide_eq_true (by omega)
      obtain ⟨n, rfl⟩ := Nat.exists_eq_succ_of_ne_zero (by omega : numBytes ≠ 0)
      have hview : d.view (n + 1) = d.peek :: (d.advance 1).rest.take n := by
        rw [Decoder.view, Decoder.rest_of_hasMore hmore, List.take_succ_cons]
      have hbytes : byteLength len = n + 1 := by
        rw [hvalue, hview, byteLength_ofBytes hzero, ← hview, hviewLen]
      refine ⟨hbytes, ?_, rfl, ?_⟩
      · have hlt := lt_pow_byteLength len
        rw [hbytes] at hlt
        calc len < 256 ^ (n + 1) := hlt
          _ ≤ 256 ^ 8 := Nat.pow_le_pow_right (by norm_num) height
          _ = 2 ^ 64 := by norm_num
      · have hform : toBytes (n + 1) len = d.view (n + 1) := by
          have hread := toBytes_ofBytes (d.view (n + 1))
          rw [hviewLen, ← hvalue] at hread
          exact hread
        rw [hform]
        exact Decoder.rest_eq_view

theorem decodeLength_encode (hne : len ≠ 0) (hlt : len < 2 ^ 64)
    (h : d.rest = toBytes (byteLength len) len ++ tail) :
    decodeLength d (byteLength len) = (.ok len, d.advance (byteLength len)) := by
  have hlen : (toBytes (byteLength len) len).length = byteLength len := toBytes_length _ _
  have hroom : ¬d.remaining < byteLength len := by
    rw [Decoder.remaining_eq, h, List.length_append, hlen]
    omega
  obtain ⟨b, rest, hform, hb⟩ := toBytes_byteLength_head hne
  have hpeek : d.peek = b := by
    rw [hform, List.cons_append] at h
    exact (Decoder.hasMore_of_rest h).2.1
  have hview : d.view (byteLength len) = toBytes (byteLength len) len := by
    have := Decoder.view_of_rest h
    rwa [hlen] at this
  unfold decodeLength
  rw [if_neg hroom, if_neg (hpeek ▸ hb), hview,
    limbOfBytes_toNat (by rw [hlen]; exact byteLength_le_eight hlt), ofBytes_toBytes_byteLength]

end Lengths

section Strings

variable {r : Decoded Bytes}

/-- A short string is accepted in its own framing only. -/
theorem encodeString_short {first : UInt8} {data : Bytes} (hlow : ¬first.toNat ≤ 0x7f)
    (hhigh : first.toNat ≤ 0xb7) (hlen : data.length = first.toNat - 0x80)
    (hsingle : ¬IsSingle data) : encodeString data = first :: data := by
  have hfirst : UInt8.ofNat (0x80 + (first.toNat - 0x80)) = first := by
    apply UInt8.toNat_inj.mp
    rw [UInt8.toNat_ofNat']
    omega
  rw [encodeString, if_neg hsingle, header, hlen, if_pos (by omega), hfirst]
  rfl

/-- A length of 56 or more and the bytes that announce it. -/
theorem header_long {short base : ℕ} {first : UInt8} {len : ℕ} (hlen : ¬len < 56)
    (hbytes : byteLength len = first.toNat - base) (hlow : base < first.toNat) :
    header short base len = first :: toBytes (byteLength len) len := by
  have hfirst : UInt8.ofNat (base + byteLength len) = first := by
    apply UInt8.toNat_inj.mp
    have := first.toNat_lt
    rw [UInt8.toNat_ofNat', hbytes]
    omega
  rw [header, if_neg hlen, hfirst]

/-- The short string the decoder accepts after a first byte. -/
theorem reads_short (hmore : d.hasMore = true) (hlow : ¬d.peek.toNat ≤ 0x7f)
    (hhigh : d.peek.toNat ≤ 0xb7) (hroom : ¬(d.advance 1).remaining < d.peek.toNat - 0x80)
    (hcanonical : ¬(d.peek.toNat - 0x80 = 1 ∧ (d.advance 1).peek.toNat ≤ 0x7f)) :
    Reads d [encodeString ((d.advance 1).view (d.peek.toNat - 0x80))]
      (d.advance (1 + (d.peek.toNat - 0x80))) ∧
    (encodeString ((d.advance 1).view (d.peek.toNat - 0x80))).length =
      1 + (d.peek.toNat - 0x80) := by
  have hlen := Decoder.view_length hroom
  have hview := @Decoder.rest_eq_view (d.advance 1) (d.peek.toNat - 0x80)
  have hsingle : ¬IsSingle ((d.advance 1).view (d.peek.toNat - 0x80)) := by
    intro hs
    obtain ⟨b, hb, hle⟩ := hs
    rw [hb] at hlen hview
    exact hcanonical ⟨hlen.symm, (Decoder.hasMore_of_rest hview).2.1 ▸ hle⟩
  have henc := encodeString_short hlow hhigh hlen hsingle
  have hencLen : (encodeString ((d.advance 1).view (d.peek.toNat - 0x80))).length =
      1 + (d.peek.toNat - 0x80) := by
    rw [henc, List.length_cons, hlen]
    omega
  refine ⟨Reads.single hencLen.symm ?_, hencLen⟩
  rw [henc, List.cons_append, ← Decoder.advance_advance, ← hview]
  exact Decoder.rest_of_hasMore hmore

/-- The long string the decoder accepts after a first byte and a length. -/
theorem reads_long {len : ℕ} {d2 : Decoder} (hmore : d.hasMore = true)
    (hlow : ¬d.peek.toNat ≤ 0xb7) (hhigh : d.peek.toNat ≤ 0xbf)
    (hlength : decodeLength (d.advance 1) (d.peek.toNat - 0xb7) = (.ok len, d2))
    (hlong : ¬len < 56) (hroom : ¬d2.remaining < len) :
    len < 2 ^ 64 ∧ (d2.view len).length = len ∧
    Reads d [encodeString (d2.view len)] (d2.advance len) ∧
    (encodeString (d2.view len)).length = 1 + (d.peek.toNat - 0xb7) + len := by
  obtain ⟨hbytes, hlt, rfl, hrest⟩ := decodeLength_ok (by omega) (by omega) hlength
  have hlen := Decoder.view_length hroom
  have hview := @Decoder.rest_eq_view ((d.advance 1).advance (d.peek.toNat - 0xb7)) len
  have hsingle : ¬IsSingle (((d.advance 1).advance (d.peek.toNat - 0xb7)).view len) := by
    intro hs
    obtain ⟨b, hb, hle⟩ := hs
    rw [hb, List.length_singleton] at hlen
    omega
  have henc : encodeString (((d.advance 1).advance (d.peek.toNat - 0xb7)).view len) =
      d.peek :: (toBytes (d.peek.toNat - 0xb7) len ++
        ((d.advance 1).advance (d.peek.toNat - 0xb7)).view len) := by
    rw [encodeString, if_neg hsingle, hlen, header_long hlong hbytes (by omega), hbytes]
    rfl
  have hencLen : (encodeString (((d.advance 1).advance (d.peek.toNat - 0xb7)).view len)).length =
      1 + (d.peek.toNat - 0xb7) + len := by
    rw [henc, List.length_cons, List.length_append, toBytes_length, hlen]
    omega
  refine ⟨hlt, hlen, ?_, hencLen⟩
  simp only [Decoder.advance_advance] at hview henc hencLen hrest ⊢
  refine Reads.single hencLen.symm ?_
  rw [henc, List.cons_append, List.append_assoc, ← hview, ← hrest]
  exact Decoder.rest_of_hasMore hmore

/-- What `rlp_decode_bytes` accepts is the encoding of what it returns. -/
theorem rlpDecodeBytes_ok (h : rlpDecodeBytes d = (.ok r, d')) :
    r.value.length < 2 ^ 64 ∧ r.bytesConsumed = (encodeString r.value).length ∧
      Reads d [encodeString r.value] d' := by
  unfold rlpDecodeBytes at h
  split at h
  · next hmore =>
    simp only at h
    split at h
    · next hsingle =>
      obtain ⟨hr, rfl⟩ := Prod.mk.inj h
      have henc : encodeString [d.peek] = [d.peek] := by
        rw [encodeString, if_pos ⟨d.peek, rfl, hsingle⟩]
      rw [← Except.ok.inj hr]
      simp only [henc]
      exact ⟨by simp, rfl, Reads.single rfl (Decoder.rest_of_hasMore hmore)⟩
    · next hlow =>
      split at h
      · next hhigh =>
        split at h
        · cases h
        · next hroom =>
          split at h
          · cases h
          · next hcanonical =>
            obtain ⟨hr, rfl⟩ := Prod.mk.inj h
            obtain ⟨hreads, hlen⟩ := reads_short hmore hlow hhigh hroom hcanonical
            rw [← Except.ok.inj hr, Decoder.advance_advance]
            dsimp only
            rw [hlen, Decoder.view_length hroom]
            exact ⟨by omega, rfl, hreads⟩
      · next hhigh =>
        split at h
        · next hlong =>
          split at h
          · cases h
          · next len d2 hlength =>
            split at h
            · cases h
            · next hsize =>
              split at h
              · cases h
              · next hroom =>
                obtain ⟨hr, rfl⟩ := Prod.mk.inj h
                obtain ⟨hlt, hlen, hreads, hencLen⟩ :=
                  reads_long hmore hhigh hlong hlength hsize hroom
                rw [← Except.ok.inj hr]
                refine ⟨?_, hencLen.symm, hreads⟩
                rw [hlen]
                exact hlt
        · cases h
  · cases h

/-- At a header of one byte. -/
theorem Decoder.at_short {short long len : ℕ} (hlen : len < 56) (hshort : short ≤ 0xc0)
    (h : d.rest = header short long len ++ tail) :
    d.hasMore = true ∧ d.peek.toNat = short + len ∧ (d.advance 1).rest = tail ∧
      (header short long len).length = 1 := by
  rw [header, if_pos hlen] at h ⊢
  obtain ⟨hmore, hpeek, hrest⟩ := Decoder.hasMore_of_rest h
  refine ⟨hmore, ?_, hrest, rfl⟩
  rw [hpeek, UInt8.toNat_ofNat']
  omega

/-- At a header whose length has bytes of its own. -/
theorem Decoder.at_long {short long len : ℕ} (hlen : ¬len < 56) (hlt : len < 2 ^ 64)
    (hlong : long ≤ 0xf7) (h : d.rest = header short long len ++ tail) :
    d.hasMore = true ∧ d.peek.toNat = long + byteLength len ∧
      (0 < byteLength len ∧ byteLength len ≤ 8) ∧
      (d.advance 1).rest = toBytes (byteLength len) len ++ tail ∧
      (header short long len).length = 1 + byteLength len := by
  have hpos := byteLength_pos (show len ≠ 0 by omega)
  have hle := byteLength_le_eight hlt
  rw [header_length, if_neg hlen]
  rw [header, if_neg hlen] at h
  obtain ⟨hmore, hpeek, hrest⟩ := Decoder.hasMore_of_rest h
  refine ⟨hmore, ?_, ⟨hpos, hle⟩, hrest, rfl⟩
  rw [hpeek, UInt8.toNat_ofNat']
  omega

variable {data : Bytes}

/-- At a byte that encodes itself. -/
theorem Decoder.at_single (hsingle : IsSingle data) (h : d.rest = encodeString data ++ tail) :
    d.hasMore = true ∧ d.peek.toNat ≤ 0x7f ∧ data = [d.peek] ∧ (encodeString data).length = 1 := by
  obtain ⟨b, rfl, hb⟩ := hsingle
  rw [encodeString, if_pos ⟨b, rfl, hb⟩] at h ⊢
  obtain ⟨hmore, hpeek, -⟩ := Decoder.hasMore_of_rest h
  rw [hpeek]
  exact ⟨hmore, hb, rfl, rfl⟩

/-- `rlp_decode_bytes` accepts the encoding of every string. -/
theorem rlpDecodeBytes_encode (hdata : data.length < 2 ^ 64)
    (h : d.rest = encodeString data ++ tail) :
    rlpDecodeBytes d = (.ok ⟨data, (encodeString data).length⟩,
      d.advance (encodeString data).length) := by
  unfold rlpDecodeBytes
  by_cases hsingle : IsSingle data
  · obtain ⟨hmore, hfirst, hvalue, hlen⟩ := Decoder.at_single hsingle h
    rw [if_pos hmore, hlen]
    simp only [if_pos hfirst, ← hvalue]
  · have henc : encodeString data = header 0x80 0xb7 data.length ++ data := by
      rw [encodeString, if_neg hsingle]
    rw [henc, List.append_assoc] at h
    rw [henc, List.length_append]
    by_cases hshort : data.length < 56
    · obtain ⟨hmore, hfirst, hrest, hlen⟩ := Decoder.at_short hshort (by omega) h
      have hroom : ¬(d.advance 1).remaining < data.length := by
        rw [Decoder.remaining_eq, hrest, List.length_append]
        omega
      have hcanonical : ¬(data.length = 1 ∧ (d.advance 1).peek.toNat ≤ 0x7f) := by
        intro hone
        obtain ⟨b, rfl⟩ := List.length_eq_one_iff.mp hone.1
        rw [(Decoder.hasMore_of_rest hrest).2.1] at hone
        exact hsingle ⟨b, rfl, hone.2⟩
      rw [if_pos hmore, hlen]
      simp only [hfirst, Nat.add_sub_cancel_left, if_neg hroom, if_neg hcanonical,
        Decoder.view_of_rest hrest, Decoder.advance_advance]
      rw [if_neg (by omega), if_pos (by omega)]
    · obtain ⟨hmore, hfirst, hbytes, hrest, hlen⟩ := Decoder.at_long hshort hdata (by omega) h
      have hlength := decodeLength_encode (by omega) hdata hrest
      have hrest2 := Decoder.rest_advance_of_rest hrest
      rw [toBytes_length] at hrest2
      have hroom : ¬((d.advance 1).advance (byteLength data.length)).remaining < data.length := by
        rw [Decoder.remaining_eq, hrest2, List.length_append]
        omega
      rw [if_pos hmore, hlen]
      simp only [hfirst, Nat.add_sub_cancel_left, hlength, if_neg hshort, if_neg hroom,
        Decoder.view_of_rest hrest2]
      rw [if_neg (by omega), if_neg (by omega), if_pos (by omega),
        Decoder.advance_advance, Decoder.advance_advance, Nat.add_assoc]

theorem skipTo_of_le {len : ℕ} (hle : d.pos + len ≤ d.input.length)
    (hinput : d.input.length < 2 ^ 64) : skipTo d len = d.advance len := by
  have hmod : (d.pos + len) % 2 ^ 64 = d.pos + len := Nat.mod_eq_of_lt (by omega)
  unfold skipTo Decoder.advance
  simp only [hmod]
  split
  · rfl
  · rw [show d.input.length = d.pos + len by omega]

/-- `rlp_skip_item` moves over the encoding of a string. -/
theorem rlpSkipItem_encode (hinput : d.input.length < 2 ^ 64)
    (h : d.rest = encodeString data ++ tail) :
    rlpSkipItem d = d.advance (encodeString data).length := by
  have hend : d.pos + (encodeString data).length ≤ d.input.length := by
    have hlen := congrArg List.length h
    have hpos := List.length_pos_of_ne_nil (encodeString_ne_nil data)
    rw [Decoder.rest, List.length_drop, List.length_append] at hlen
    omega
  have hdata := length_le_encodeString data
  unfold rlpSkipItem
  by_cases hsingle : IsSingle data
  · obtain ⟨hmore, hfirst, -, hlen⟩ := Decoder.at_single hsingle h
    rw [if_pos hmore, hlen]
    simp only [if_pos hfirst]
  · have henc : encodeString data = header 0x80 0xb7 data.length ++ data := by
      rw [encodeString, if_neg hsingle]
    rw [henc, List.append_assoc] at h
    rw [henc, List.length_append] at hend hdata ⊢
    by_cases hshort : data.length < 56
    · obtain ⟨hmore, hfirst, -, hlen⟩ := Decoder.at_short hshort (by omega) h
      rw [hlen] at hend ⊢
      rw [if_pos hmore]
      simp only [hfirst, Nat.add_sub_cancel_left]
      rw [if_neg (by omega), if_pos (by omega), skipTo_of_le hend hinput]
    · obtain ⟨hmore, hfirst, hbytes, hrest, hlen⟩ :=
        Decoder.at_long hshort (by omega) (by omega) h
      have hview := Decoder.view_of_rest hrest
      rw [toBytes_length] at hview
      have hnum : (limbOfBytes (toBytes (byteLength data.length) data.length)).toNat =
          data.length := by
        rw [limbOfBytes_toNat (by rw [toBytes_length]; omega), ofBytes_toBytes_byteLength]
      have hskip : skipLength (d.advance 1) (byteLength data.length) =
          (data.length, d.advance (1 + byteLength data.length)) := by
        unfold skipLength
        simp only [hview, hnum, toBytes_length, Decoder.advance_advance]
      rw [hlen, ← Nat.add_assoc] at hend
      rw [if_pos hmore, hlen]
      simp only [hfirst, Nat.add_sub_cancel_left, hskip]
      rw [if_neg (by omega), if_neg (by omega), if_pos (by omega),
        @skipTo_of_le (d.advance (1 + byteLength data.length)) _ hend hinput,
        Decoder.advance_advance]

end Strings

section ListHeaders

variable {r : Decoded ℕ}

/-- What `rlp_decode_list_header` accepts is the header of a list of the length it returns. -/
theorem rlpDecodeListHeader_ok (h : rlpDecodeListHeader d = (.ok r, d')) :
    r.value < 2 ^ 64 ∧ r.bytesConsumed = (header 0xc0 0xf7 r.value).length ∧
      Reads d [header 0xc0 0xf7 r.value] d' := by
  unfold rlpDecodeListHeader at h
  split at h
  · next hmore =>
    have hrest := Decoder.rest_of_hasMore hmore
    have hbyte := d.peek.toNat_lt
    simp only at h
    split at h
    · cases h
    · next hlow =>
      split at h
      · next hhigh =>
        obtain ⟨hr, rfl⟩ := Prod.mk.inj h
        have hheader : header 0xc0 0xf7 (d.peek.toNat - 0xc0) = [d.peek] := by
          have hfirst : UInt8.ofNat (0xc0 + (d.peek.toNat - 0xc0)) = d.peek := by
            apply UInt8.toNat_inj.mp
            rw [UInt8.toNat_ofNat']
            omega
          rw [header, if_pos (by omega), hfirst]
        rw [← Except.ok.inj hr]
        simp only [hheader]
        exact ⟨by omega, rfl, Reads.single rfl hrest⟩
      · next hhigh =>
        split at h
        · cases h
        · next len d2 hlength =>
          split at h
          · cases h
          · next hlong =>
            obtain ⟨hr, rfl⟩ := Prod.mk.inj h
            obtain ⟨hbytes, hlt, rfl, hlenRest⟩ :=
              decodeLength_ok (by omega) (by omega) hlength
            have hheader := @header_long 0xc0 0xf7 d.peek len hlong hbytes (by omega)
            have hheaderLen : (header 0xc0 0xf7 len).length = 1 + (d.peek.toNat - 0xf7) := by
              rw [hheader, List.length_cons, toBytes_length, hbytes]
              omega
            rw [← Except.ok.inj hr, Decoder.advance_advance]
            refine ⟨hlt, hheaderLen.symm, Reads.single hheaderLen.symm ?_⟩
            rw [hheader, hbytes, List.cons_append, ← Decoder.advance_advance, ← hlenRest]
            exact hrest
  · cases h

/-- `rlp_decode_list_header` accepts the header of every list. -/
theorem rlpDecodeListHeader_encode {n : ℕ} (hn : n < 2 ^ 64)
    (h : d.rest = header 0xc0 0xf7 n ++ tail) :
    rlpDecodeListHeader d = (.ok ⟨n, (header 0xc0 0xf7 n).length⟩,
      d.advance (header 0xc0 0xf7 n).length) := by
  unfold rlpDecodeListHeader
  by_cases hshort : n < 56
  · obtain ⟨hmore, hfirst, -, hlen⟩ := Decoder.at_short hshort (by omega) h
    rw [if_pos hmore, hlen]
    simp only [hfirst, Nat.add_sub_cancel_left]
    rw [if_neg (by omega), if_pos (by omega)]
  · obtain ⟨hmore, hfirst, hbytes, hrest, hlen⟩ := Decoder.at_long hshort hn (by omega) h
    have hlength := decodeLength_encode (by omega) hn hrest
    rw [if_pos hmore, hlen]
    simp only [hfirst, Nat.add_sub_cancel_left, hlength, if_neg hshort, Decoder.advance_advance]
    rw [if_neg (by omega), if_neg (by omega)]

end ListHeaders

/-- The strings read as the number `n`: its shortest form or, for zero, a zero byte. -/
structure IntegerForm (n : ℕ) (bytes : Bytes) : Prop where
  value : ofBytes bytes = n
  form : bytes = [0] ∨ encodeString bytes = encodeNat n

section Integers

variable {α : Type} {width : ℕ} {read : Bytes → α} {toNat : α → ℕ}

/-- A string that passes the checks of the integer decoders. -/
theorem integerForm_of_checks {bytes : Bytes} (h : ¬(bytes.length > 1 ∧ bytes.headD 0 = 0)) :
    IntegerForm (ofBytes bytes) bytes := by
  refine ⟨rfl, ?_⟩
  cases bytes with
  | nil => exact Or.inr rfl
  | cons b rest =>
    by_cases hb : b = 0
    · left
      have hrest : rest.length = 0 := by
        by_contra hne
        refine h ⟨?_, hb⟩
        rw [List.length_cons]
        omega
      rw [hb, List.eq_nil_of_length_eq_zero hrest]
    · right
      rw [encodeNat, byteLength_ofBytes hb, toBytes_ofBytes]

theorem decodeInteger_ok (hread : ∀ bytes, bytes.length ≤ width → toNat (read bytes) = ofBytes bytes)
    {r : Decoded α} (h : decodeInteger width read d = (.ok r, d')) :
    ∃ bytes, bytes.length ≤ width ∧ bytes.length < 2 ^ 64 ∧
      IntegerForm (toNat r.value) bytes ∧ Reads d [encodeString bytes] d' := by
  unfold decodeInteger at h
  split at h
  · cases h
  · next bytes d1 hbytes =>
    obtain ⟨hlt, -, hreads⟩ := rlpDecodeBytes_ok hbytes
    split at h
    · next hempty =>
      obtain ⟨hr, rfl⟩ := Prod.mk.inj h
      have hnil := List.eq_nil_of_length_eq_zero hempty
      rw [← Except.ok.inj hr]
      refine ⟨bytes.value, by omega, hlt, ?_, hreads⟩
      rw [hread [] (Nat.zero_le _), hnil]
      exact ⟨rfl, Or.inr rfl⟩
    · split at h
      · cases h
      · next hwidth =>
        split at h
        · cases h
        · next hcanonical =>
          obtain ⟨hr, rfl⟩ := Prod.mk.inj h
          rw [← Except.ok.inj hr]
          refine ⟨bytes.value, by omega, hlt, ?_, hreads⟩
          rw [hread bytes.value (by omega)]
          exact integerForm_of_checks hcanonical

theorem decodeInteger_encode (hinj : ∀ a b, toNat a = toNat b → a = b)
    (hread : ∀ bytes, bytes.length ≤ width → toNat (read bytes) = ofBytes bytes) {v : α}
    (hv : byteLength (toNat v) ≤ width) (hlt : byteLength (toNat v) < 2 ^ 64)
    (h : d.rest = encodeNat (toNat v) ++ tail) :
    decodeInteger width read d = (.ok ⟨v, (encodeNat (toNat v)).length⟩,
      d.advance (encodeNat (toNat v)).length) := by
  have hlen : (toBytes (byteLength (toNat v)) (toNat v)).length = byteLength (toNat v) :=
    toBytes_length _ _
  have hvalue : read (toBytes (byteLength (toNat v)) (toNat v)) = v := by
    apply hinj
    rw [hread _ (by omega), ofBytes_toBytes_byteLength]
  have hbytes := rlpDecodeBytes_encode (by rw [hlen]; exact hlt) h
  unfold decodeInteger
  rw [hbytes]
  dsimp only
  by_cases hzero : toNat v = 0
  · have hnil : toBytes (byteLength (toNat v)) (toNat v) = [] := by rw [hzero]; rfl
    rw [hnil] at hvalue
    rw [hnil, hvalue, hzero]
    rfl
  · obtain ⟨b, rest, hform, hb⟩ := toBytes_byteLength_head hzero
    have hpos := byteLength_pos hzero
    have hhead : (toBytes (byteLength (toNat v)) (toNat v)).headD 0 = b := by rw [hform]; rfl
    rw [if_neg (by omega), if_neg (by omega), if_neg (by rw [hhead]; exact fun hc => hb hc.2),
      hvalue]
    rfl

end Integers

section Values

theorem rlpDecodeU64_ok {r : Decoded UInt64} (h : rlpDecodeU64 d = (.ok r, d')) :
    ∃ bytes, bytes.length ≤ 8 ∧ bytes.length < 2 ^ 64 ∧
      IntegerForm r.value.toNat bytes ∧ Reads d [encodeString bytes] d' :=
  @decodeInteger_ok _ _ _ _ _ UInt64.toNat (fun _ hle => limbOfBytes_toNat hle) _ h

theorem rlpDecodeU64_encode {v : UInt64} (h : d.rest = encodeNat v.toNat ++ tail) :
    rlpDecodeU64 d = (.ok ⟨v, (encodeNat v.toNat).length⟩,
      d.advance (encodeNat v.toNat).length) := by
  have hle := byteLength_le_eight v.toNat_lt
  exact @decodeInteger_encode _ _ _ _ _ UInt64.toNat (fun _ _ heq => UInt64.toNat_inj.mp heq)
    (fun _ hle => limbOfBytes_toNat hle) v hle (by omega) h

theorem byteLength_word (v : Word) : byteLength v.toNat ≤ 32 :=
  byteLength_le_of_lt_pow (lt_of_lt_of_eq v.toNat_lt (by norm_num))

theorem rlpDecodeUint256_ok {r : Decoded Word} (h : rlpDecodeUint256 d = (.ok r, d')) :
    ∃ bytes, bytes.length ≤ 32 ∧ bytes.length < 2 ^ 64 ∧
      IntegerForm r.value.toNat bytes ∧ Reads d [encodeString bytes] d' :=
  @decodeInteger_ok _ _ _ _ _ Word.toNat (fun _ hle => toNat_fromBytesBe hle) _ h

theorem rlpDecodeUint256_encode {v : Word} (h : d.rest = encodeNat v.toNat ++ tail) :
    rlpDecodeUint256 d = (.ok ⟨v, (encodeNat v.toNat).length⟩,
      d.advance (encodeNat v.toNat).length) := by
  have hle := byteLength_word v
  exact @decodeInteger_encode _ _ _ _ _ Word.toNat (fun _ _ heq => Word.toNat_injective heq)
    (fun _ hle => toNat_fromBytesBe hle) v hle (by omega) h

theorem rlpDecodeAddress_ok {r : Decoded Address} (h : rlpDecodeAddress d = (.ok r, d')) :
    Reads d [encodeString r.value.bytes] d' := by
  unfold rlpDecodeAddress at h
  split at h
  · cases h
  · next bytes d1 hbytes =>
    split at h
    · obtain ⟨hr, rfl⟩ := Prod.mk.inj h
      rw [← Except.ok.inj hr]
      exact (rlpDecodeBytes_ok hbytes).2.2
    · cases h

theorem rlpDecodeAddress_encode {a : Address} (h : d.rest = encodeString a.bytes ++ tail) :
    rlpDecodeAddress d = (.ok ⟨a, (encodeString a.bytes).length⟩,
      d.advance (encodeString a.bytes).length) := by
  have hsize := a.size_eq
  have hbytes := rlpDecodeBytes_encode (by omega) h
  unfold rlpDecodeAddress
  rw [hbytes]
  exact dif_pos hsize

end Values

end Div0.RlpDecode
