import Div0.TxRoundTrip

/-!
The storage keys of an access list. EIP-2930 has every key as a string of 32 bytes; the
encoder writes it as a number in its shortest form, and the decoder takes nothing else. A
key is both exactly when its first byte is not zero.
-/

namespace Div0.AccessListKeys

open BigEndian Buffer Containers RlpFormat RlpTree RlpEncode RlpBuilder RlpDecode Uint256
open Transaction TxFields TxFieldLaws TxAccepts TxRoundTrip

/-- The items of EIP-2930: a storage key is a string of 32 bytes. -/
def keyEncoders : Encoders :=
  { formatEncoders with uint256 := fun key => encodeString (uint256ToBytesBe key) }

def accessListBytes (list : AccessList) : Bytes := encode (txEncodeAccessList keyEncoders list)

/-- The shortest form of a key has 32 bytes exactly when the first one is not zero. -/
theorem encodeNat_eq_iff (key : Word) :
    encodeNat key.toNat = encodeString (uint256ToBytesBe key) ↔ 2 ^ 248 ≤ key.toNat := by
  have hle := byteLength_word key
  have hlength := toBytesBe_length key
  have hpow : (256 : ℕ) ^ 31 = 2 ^ 248 := by norm_num
  constructor
  · intro heq
    have hbytes := encodeString_injective (by rw [toBytes_length]; omega) (by omega) heq
    have hlen := congrArg List.length hbytes
    rw [toBytes_length, hlength] at hlen
    by_contra hlow
    have hshort := byteLength_le_of_lt_pow (show key.toNat < 256 ^ 31 by omega)
    omega
  · intro hlow
    have hlen : byteLength key.toNat = 32 := by
      by_contra hne
      have hlt := lt_of_lt_of_le (lt_pow_byteLength key.toNat)
        (Nat.pow_le_pow_right (by omega) (show byteLength key.toNat ≤ 31 by omega))
      omega
    rw [encodeNat]
    congr 1
    refine ofBytes_injective_of_length (by rw [toBytes_length, hlen, hlength]) ?_
    rw [ofBytes_toBytes_byteLength, ofBytes_toBytesBe]

section Items

variable {list : AccessList}

theorem isItem_entry {enc : Encoders} {entry : AccessListEntry}
    (h : (encode (accessEntryTree enc entry)).length < 2 ^ 64) :
    IsItem (encode (accessEntryTree enc entry)) := by
  rw [accessEntryTree, encode] at h ⊢
  exact IsItem.list _ (lt_of_le_of_lt (length_le_encodeList _) h)

/-- Two encodings of an access list agree exactly if its entries are encoded alike. -/
theorem entries_of_encode_eq {enc enc' : Encoders}
    (hlen : (encode (txEncodeAccessList enc list)).length < 2 ^ 64)
    (h : encode (txEncodeAccessList enc list) = encode (txEncodeAccessList enc' list)) :
    ∀ entry ∈ list, encode (accessEntryTree enc entry) = encode (accessEntryTree enc' entry) := by
  have hlen' := hlen
  rw [h] at hlen'
  have hitems : ∀ {e : Encoders}, (encode (txEncodeAccessList e list)).length < 2 ^ 64 →
      ∀ x ∈ list.map fun entry => encode (accessEntryTree e entry), IsItem x := by
    intro e he
    rw [List.forall_mem_map]
    intro entry hentry
    exact isItem_entry (lt_of_le_of_lt (encode_length_le_of_mem _ hentry) he)
  have hitem := hitems hlen
  have hitem' := hitems hlen'
  simp only [txEncodeAccessList, encode, encodeAll_map] at h hlen hlen'
  have hpayload := encodeList_injective (lt_of_le_of_lt (length_le_encodeList _) hlen)
    (lt_of_le_of_lt (length_le_encodeList _) hlen') h
  exact List.map_inj_left.mp (flatten_injective hitem hitem' hpayload)

/-- The keys of an entry are encoded alike if the entry is. -/
theorem keys_of_encode_eq {entry : AccessListEntry}
    (hlen : (encode (accessEntryTree formatEncoders entry)).length < 2 ^ 64)
    (h : encode (accessEntryTree formatEncoders entry) = encode (accessEntryTree keyEncoders entry)) :
    ∀ key ∈ entry.storageKeys, encodeNat key.toNat = encodeString (uint256ToBytesBe key) := by
  have hshort : ∀ {e : Encoders}, (encode (accessEntryTree e entry)).length < 2 ^ 64 →
      (e.address entry.address ++
        encodeList (entry.storageKeys.map fun key => e.uint256 key).flatten).length < 2 ^ 64 ∧
      (entry.storageKeys.map fun key => e.uint256 key).flatten.length < 2 ^ 64 := by
    intro e he
    simp only [accessEntryTree, encode, encodeAll, encodeAll_map, List.append_nil] at he
    have hpayload := lt_of_le_of_lt (length_le_encodeList _) he
    have hkeys := length_le_encodeList (entry.storageKeys.map fun key => e.uint256 key).flatten
    refine ⟨hpayload, ?_⟩
    rw [List.length_append] at hpayload
    omega
  have hformat := hshort hlen
  have hkey := hshort (h ▸ hlen)
  simp only [accessEntryTree, encode, encodeAll, encodeAll_map, List.append_nil] at h
  have hpayload := encodeList_injective hformat.1 hkey.1 h
  have hlists := encodeList_injective hformat.2 hkey.2 (List.append_cancel_left hpayload)
  have hitems := flatten_injective ?_ ?_ hlists
  · exact List.map_inj_left.mp hitems
  · rw [List.forall_mem_map]
    intro key _
    have hle := byteLength_word key
    exact IsItem.string _ (by rw [toBytes_length]; omega)
  · rw [List.forall_mem_map]
    intro key _
    exact IsItem.string (uint256ToBytesBe key) (by rw [toBytesBe_length]; omega)

end Items

/-- Appending an access list to a buffer with room for it gives the bytes of EIP-2930, and
decoding those bytes into vectors with room for it gives back the list, exactly when no storage
key starts with a zero byte. -/
theorem accessList_keys_iff (vectors : Growth) (list : AccessList) (room : ℕ) (data : Bytes)
    (hroom : room < 2 ^ 64) (hkept : KeptField vectors .accessList list)
    (hfits : data.length + peak (txEncodeAccessList (arenaEncoders arenaAlloc) list) ≤ room) :
    ((writeTree arenaAlloc (txEncodeAccessList (arenaEncoders arenaAlloc) list)
        (inRoom room data)).data = data ++ accessListBytes list ∧
      ∀ (d : Decoder) (tail : Bytes) (fuel : ℕ), d.input.length < 2 ^ 64 →
        d.rest = accessListBytes list ++ tail → (accessListBytes list).length < fuel →
        decodeAccessList vectors fuel d = (.ok list, d.advance (accessListBytes list).length)) ↔
    ∀ entry ∈ list, ∀ key ∈ entry.storageKeys, 2 ^ 248 ≤ key.toNat := by
  have harena : txEncodeAccessList (arenaEncoders arenaAlloc) list =
      txEncodeAccessList formatEncoders list :=
    @fieldTree_arena .accessList list (Nat.zero_le _)
  rw [harena] at hfits ⊢
  rw [writeTree_eq hroom _ _ hfits]
  constructor
  · rintro ⟨hwritten, -⟩ entry hentry key hkey
    have hencode := List.append_cancel_left hwritten
    have hlen : (encode (txEncodeAccessList formatEncoders list)).length < 2 ^ 64 :=
      lt_of_le_of_lt (encode_length_le_peak _ (by omega)) (by omega)
    have hentries := entries_of_encode_eq hlen hencode entry hentry
    have hshort := lt_of_le_of_lt (encode_length_le_of_mem _ hentry) hlen
    exact (encodeNat_eq_iff key).mp (keys_of_encode_eq hshort hentries key hkey)
  · intro hkeys
    have hentry : ∀ entry ∈ list,
        accessEntryTree keyEncoders entry = accessEntryTree formatEncoders entry := by
      intro entry hentry
      have hleaves : (entry.storageKeys.map fun key => Tree.leaf (keyEncoders.uint256 key)) =
          entry.storageKeys.map fun key => Tree.leaf (formatEncoders.uint256 key) :=
        List.map_congr_left fun key hkey =>
          congrArg Tree.leaf ((encodeNat_eq_iff key).mpr (hkeys entry hentry key hkey)).symm
      rw [accessEntryTree, accessEntryTree, hleaves]
      rfl
    have htree : txEncodeAccessList keyEncoders list = txEncodeAccessList formatEncoders list :=
      congrArg Tree.list (List.map_congr_left hentry)
    rw [accessListBytes, htree]
    refine ⟨rfl, ?_⟩
    intro d tail fuel hinput hrest hfuel
    exact accepts_accessList hkept hfuel d tail hinput hrest

def oneKey (key : Word) : AccessList := [⟨⟨List.replicate 20 1, rfl⟩, [key]⟩]

theorem oneKey_kept (key : Word) : KeptField (.packed 65536) .accessList (oneKey key) := by
  have hone : ∀ size ≤ 65536, Taken (Growth.packed 65536 size) 1 := by
    intro size hsize m hm
    exact decide_eq_true (by rw [Nat.lt_one_iff.mp hm]; omega)
  refine ⟨hone accessEntrySize (by decide), ?_⟩
  intro entry hentry
  rw [List.mem_singleton.mp hentry]
  exact hone keySize (by decide)

def highKey : AccessList := oneKey (uint256FromBytesBe (List.replicate 32 1))

theorem accessList_keys_iff_full :
    (writeTree arenaAlloc (txEncodeAccessList (arenaEncoders arenaAlloc) highKey)
      (inRoom 128 [])).data = accessListBytes highKey ∧
    decodeAccessList (.packed 65536) 128 ⟨accessListBytes highKey, 0⟩ =
      (.ok highKey, ⟨accessListBytes highKey, 58⟩) := by
  obtain ⟨hwritten, hdecoded⟩ := (accessList_keys_iff (.packed 65536) highKey 128 [] (by decide)
    (oneKey_kept _) (by decide)).mpr (by decide)
  have hlen : (accessListBytes highKey).length = 58 := by decide
  have hread := hdecoded ⟨accessListBytes highKey, 0⟩ [] 128 (by rw [hlen]; decide)
    (List.append_nil _).symm (by rw [hlen]; decide)
  rw [hlen] at hread
  exact ⟨hwritten, hread⟩

/-- The key one is written as one byte, and its 32 bytes are not accepted. -/
theorem short_key_rejected :
    (writeTree arenaAlloc (txEncodeAccessList (arenaEncoders arenaAlloc)
        (oneKey (uint256FromU64 1))) (inRoom 128 [])).data ≠
      accessListBytes (oneKey (uint256FromU64 1)) ∧
    (decodeAccessList (.packed 65536) 128 ⟨accessListBytes (oneKey (uint256FromU64 1)), 0⟩).1 =
      .error (.rejected .invalidRlp) := by
  decide

end Div0.AccessListKeys
