import Div0.Node
import Div0.RlpBuilder
import Div0.RlpDecode

/-!
The accounts of the state trie and their encoding: a list of the nonce, the balance,
the storage root and the code hash. The encoder reserves 128 bytes, which hold the
longest encoding, so decoding gives back the account that was encoded.
-/

namespace Div0.Accounts

open BigEndian Buffer RlpFormat RlpTree RlpEncode RlpBuilder RlpDecode Node Uint256

/-- `account_t`. -/
@[ext] structure Account where
  nonce : UInt64
  balance : Word
  storageRoot : Hash
  codeHash : Hash
  deriving DecidableEq

def emptyCodeHash : Hash where
  bytes := [0xc5, 0xd2, 0x46, 0x01, 0x86, 0xf7, 0x23, 0x3c, 0x92, 0x7e, 0x7d, 0xb2, 0xdc, 0xc7,
    0x03, 0xc0, 0xe5, 0x00, 0xb6, 0x53, 0xca, 0x82, 0x27, 0x3b, 0x7b, 0xfa, 0xd8, 0x04, 0x5d,
    0x85, 0xa4, 0x70]
  size_eq := rfl

def accountEmpty : Account := ⟨0, uint256Zero, mptEmptyRoot, emptyCodeHash⟩

/-- `account_is_empty`: the storage root plays no part. -/
def accountIsEmpty (acc : Account) : Bool :=
  if acc.nonce ≠ 0 then false
  else if !uint256IsZero acc.balance then false
  else acc.codeHash = emptyCodeHash

def accountFields (alloc : Alloc) (acc : Account) : List Tree :=
  [.leaf (rlpEncodeU64 alloc acc.nonce).data, .leaf (rlpEncodeUint256 alloc acc.balance).data,
    .leaf (rlpEncodeBytes alloc acc.storageRoot.bytes).data,
    .leaf (rlpEncodeBytes alloc acc.codeHash.bytes).data]

def accountRlpEncode (alloc : Alloc) (acc : Account) : Buf :=
  writeTree alloc (.list (accountFields alloc acc)) (Buf.init.reserve! alloc 128)

def decodeHash (d : Decoder) : Option (Hash × Decoder) :=
  match rlpDecodeBytes d with
  | (.error _, _) => none
  | (.ok r, d1) => if h : r.value.length = 32 then some (⟨r.value, h⟩, d1) else none

def decodeFields (d : Decoder) : Option Account :=
  match rlpDecodeU64 d with
  | (.error _, _) => none
  | (.ok nonce, d) =>
    match rlpDecodeUint256 d with
    | (.error _, _) => none
    | (.ok balance, d) =>
      match decodeHash d with
      | none => none
      | some (storageRoot, d) =>
        match decodeHash d with
        | none => none
        | some (codeHash, d) =>
          if d.hasMore then none else some ⟨nonce.value, balance.value, storageRoot, codeHash⟩

def accountRlpDecode (data : Bytes) : Option Account :=
  if data.length = 0 then none
  else match rlpDecodeListHeader ⟨data, 0⟩ with
    | (.error _, _) => none
    | (.ok list, d) => if list.value ≠ d.remaining then none else decodeFields d

/-- An account is empty when it has no nonce, no balance and no code. -/
theorem accountIsEmpty_iff (acc : Account) :
    accountIsEmpty acc = true ↔
      acc.nonce = 0 ∧ acc.balance.toNat = 0 ∧ acc.codeHash = emptyCodeHash := by
  rw [← isZero_iff]
  unfold accountIsEmpty
  by_cases hnonce : acc.nonce = 0
  · cases hzero : uint256IsZero acc.balance <;> simp [hnonce]
  · simp [hnonce]

def accountItems (acc : Account) : List Bytes :=
  [encodeNat acc.nonce.toNat, encodeNat acc.balance.toNat, encodeString acc.storageRoot.bytes,
    encodeString acc.codeHash.bytes]

def accountBytes (acc : Account) : Bytes := encodeList (accountItems acc).flatten

theorem encodeNat_length_le {n width : ℕ} (h : byteLength n ≤ width) :
    (encodeNat n).length ≤ framedBound width := by
  refine (encodeString_length_le _).trans (framedBound_mono ?_)
  rwa [toBytes_length]

/-- The items together, at most 112 bytes. -/
theorem accountItems_length_le (acc : Account) : (accountItems acc).flatten.length ≤ 112 := by
  have hnonce := encodeNat_length_le (byteLength_le_eight acc.nonce.toNat_lt)
  have hbalance := encodeNat_length_le (byteLength_word acc.balance)
  have hroot := encodeString_length_le acc.storageRoot.bytes
  have hcode := encodeString_length_le acc.codeHash.bytes
  rw [acc.storageRoot.size_eq] at hroot
  rw [acc.codeHash.size_eq] at hcode
  have height : framedBound 8 = 10 := by decide
  have hword : framedBound 32 = 34 := by decide
  simp only [accountItems, List.flatten_cons, List.flatten_nil, List.append_nil,
    List.length_append]
  omega

theorem accountBytes_length_le (acc : Account) : (accountBytes acc).length ≤ 121 := by
  have hitems := accountItems_length_le acc
  have hheader := header_length_le (show (accountItems acc).flatten.length < 2 ^ 64 by omega)
  have hnine : rlpMaxHeaderSize = 9 := rfl
  rw [accountBytes, encodeList, List.length_append]
  omega

section Encoding

variable {alloc : Alloc}

/-- The fields are framed as the format asks, with 33 bytes for each. -/
theorem accountFields_eq (h : GrantsUpTo alloc 128) (acc : Account) :
    accountFields alloc acc = (accountItems acc).map .leaf := by
  have hhash : ∀ hash : Hash, (rlpEncodeBytes alloc hash.bytes).data = encodeString hash.bytes := by
    intro hash
    have hlen := encodeString_length_le hash.bytes
    rw [hash.size_eq, show framedBound 32 = 34 by decide] at hlen
    have hpos := List.length_pos_of_ne_nil (encodeString_ne_nil hash.bytes)
    rw [rlpEncodeBytes_eq (h _ hpos (by omega))]
  have hnonce := rlpEncodeU64_data (fun size hpos hle => h size hpos (by omega)) acc.nonce
  have hbalance := rlpEncodeUint256_data (fun size hpos hle => h size hpos (by omega)) acc.balance
  simp only [accountFields, accountItems, hnonce, hbalance, hhash, List.map_cons, List.map_nil]

theorem accountFields_peak_le (h : GrantsUpTo alloc 128) (acc : Account) :
    peak (.list (accountFields alloc acc)) ≤ 121 := by
  have hitems := accountItems_length_le acc
  simp only [accountItems, List.flatten_cons, List.flatten_nil, List.append_nil,
    List.length_append] at hitems
  simp only [accountFields_eq h, accountItems, List.map_cons, List.map_nil, peak, peakAll, encode,
    rlpMaxHeaderSize]
  omega

/-- The reservation holds the whole encoding. -/
theorem accountRlpEncode_eq (h : GrantsUpTo alloc 128) (acc : Account) :
    accountRlpEncode alloc acc = inRoom 128 (accountBytes acc) := by
  have hpeak := accountFields_peak_le h acc
  have hbytes : encode (.list ((accountItems acc).map .leaf)) = accountBytes acc := by
    simp only [accountItems, List.map_cons, List.map_nil, encode, encodeAll, accountBytes,
      List.flatten_cons, List.flatten_nil]
  rw [accountFields_eq h] at hpeak
  rw [accountRlpEncode, accountFields_eq h, reserve_inRoom (by omega) (h 128 (by omega) le_rfl),
    writeTree_eq (by omega) _ _ (by simp only [List.length_nil]; omega), hbytes, List.nil_append]

end Encoding

theorem decodeHash_encode {d : Decoder} {hash : Hash} {tail : Bytes}
    (h : d.rest = encodeString hash.bytes ++ tail) :
    decodeHash d = some (hash, d.advance (encodeString hash.bytes).length) := by
  have hsize := hash.size_eq
  rw [decodeHash, rlpDecodeBytes_encode (by omega) h]
  simp only [hsize, dif_pos]

theorem decodeFields_items {d : Decoder} {acc : Account}
    (h : d.rest = (accountItems acc).flatten) : decodeFields d = some acc := by
  simp only [accountItems, List.flatten_cons, List.flatten_nil] at h
  have h1 := Decoder.rest_advance_of_rest h
  have h2 := Decoder.rest_advance_of_rest h1
  have h3 := Decoder.rest_advance_of_rest h2
  have h4 := Decoder.rest_advance_of_rest h3
  unfold decodeFields
  simp only [rlpDecodeU64_encode h, rlpDecodeUint256_encode h1, decodeHash_encode h2,
    decodeHash_encode h3]
  rw [if_neg]
  intro hmore
  rw [Decoder.rest_of_hasMore hmore] at h4
  cases h4

/-- Decoding reads back the account that was encoded. -/
theorem accountRlpDecode_accountBytes (acc : Account) :
    accountRlpDecode (accountBytes acc) = some acc := by
  have hitems := accountItems_length_le acc
  have hpos := List.length_pos_of_ne_nil (encodeList_ne_nil (accountItems acc).flatten)
  have hstart : (Decoder.mk (accountBytes acc) 0).rest =
      header 0xc0 0xf7 (accountItems acc).flatten.length ++ (accountItems acc).flatten := rfl
  have hpayload := Decoder.rest_advance_of_rest hstart
  rw [accountRlpDecode, if_neg (by rw [accountBytes]; omega),
    rlpDecodeListHeader_encode (by omega) hstart]
  simp only [Decoder.remaining_eq, hpayload, ne_eq, not_true_eq_false, if_false]
  exact decodeFields_items hpayload

theorem accountBytes_injective : Function.Injective accountBytes := by
  intro acc other h
  rw [← Option.some.injEq, ← accountRlpDecode_accountBytes, h, accountRlpDecode_accountBytes]

/-- An account is written within the 128 bytes reserved for it, decoding gives it back, and so
no other account has the same encoding. -/
theorem account_roundTrip (acc : Account) :
    peak (.list (accountFields arenaAlloc acc)) ≤ 128 ∧
      accountRlpEncode arenaAlloc acc = inRoom 128 (accountBytes acc) ∧
      accountRlpDecode (accountRlpEncode arenaAlloc acc).data = some acc ∧
      ∀ other, (accountRlpEncode arenaAlloc other).data = (accountRlpEncode arenaAlloc acc).data →
        other = acc := by
  have hgrants : GrantsUpTo arenaAlloc 128 := arenaAlloc_supply.grantsUpTo (by decide)
  have hpeak := accountFields_peak_le hgrants acc
  have hencode := accountRlpEncode_eq hgrants
  refine ⟨by omega, hencode acc, ?_, ?_⟩
  · rw [hencode]
    exact accountRlpDecode_accountBytes acc
  · intro other hsame
    rw [hencode, hencode] at hsame
    exact accountBytes_injective hsame

end Div0.Accounts
