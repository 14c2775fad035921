import Div0.TxFieldLaws

/-!
The field decoders accept what the encoders write. A step `Accepts` an encoding as a value
when it returns the value and stands behind the encoding, whatever follows. Short
encodings keep every loop within its fuel and every copy within an arena block.
-/

namespace Div0.TxAccepts

open BigEndian Buffer Containers RlpFormat RlpTree RlpDecode Uint256 Transaction TxFields
open TxFields.Decode TxFieldLaws

def Accepts {α : Type} (step : Decode α) (a : α) (x : Bytes) : Prop :=
  ∀ (d : Decoder) (tail : Bytes), d.input.length < 2 ^ 64 → d.rest = x ++ tail →
    step d = (.ok a, d.advance x.length)

/-- What is written before the end of the input ends before it. -/
theorem pos_add_le {d : Decoder} {x tail : Bytes} (hne : x ≠ []) (h : d.rest = x ++ tail) :
    d.pos + x.length ≤ d.input.length := by
  have hpos := List.length_pos_of_ne_nil hne
  have hlen := congrArg List.length h
  rw [Decoder.rest, List.length_drop, List.length_append] at hlen
  omega

theorem length_lt_of_rest {d : Decoder} {x tail : Bytes} (hinput : d.input.length < 2 ^ 64)
    (h : d.rest = x ++ tail) : x.length < 2 ^ 64 := by
  have hlen := congrArg List.length h
  rw [Decoder.rest, List.length_drop, List.length_append] at hlen
  omega

theorem length_le_flatten {xs : List Bytes} (hne : ∀ x ∈ xs, x ≠ []) :
    xs.length ≤ xs.flatten.length := by
  induction xs with
  | nil => exact le_rfl
  | cons x xs ih =>
    have hpos := List.length_pos_of_ne_nil (hne x List.mem_cons_self)
    have hrest := ih fun y hy => hne y (List.mem_cons_of_mem _ hy)
    rw [List.flatten_cons, List.length_append, List.length_cons]
    omega

variable {vectors : Growth} {fuel : ℕ}

section Sequences

variable {α β : Type} {item : Decode α} {e : α → Bytes}

theorem accepts_pure (a : α) : Accepts (pure a) a [] := by
  intro d tail hinput hrest
  exact pure_ok.mpr ⟨rfl, rfl⟩

theorem Accepts.bind {x : Decode α} {f : α → Decode β} {a : α} {b : β} {xs ys : Bytes}
    (hx : Accepts x a xs) (hf : Accepts (f a) b ys) : Accepts (x >>= f) b (xs ++ ys) := by
  intro d tail hinput hrest
  rw [List.append_assoc] at hrest
  have hnext := hf (d.advance xs.length) tail hinput (Decoder.rest_advance_of_rest hrest)
  rw [Decoder.advance_advance, ← List.length_append] at hnext
  exact bind_ok.mpr ⟨a, _, hx d _ hinput hrest, hnext⟩

/-- The last step of a sequence only returns. -/
theorem Accepts.bind_pure {x : Decode α} {f : α → Decode β} {a : α} {b : β} {xs : Bytes}
    (hx : Accepts x a xs) (hf : f a = pure b) : Accepts (x >>= f) b xs := by
  have hbind := hx.bind (hf ▸ accepts_pure b)
  rwa [List.append_nil] at hbind

theorem accepts_listHeader {n : ℕ} (hn : n < 2 ^ 64) :
    Accepts decodeListHeader ⟨n, (header 0xc0 0xf7 n).length⟩ (header 0xc0 0xf7 n) := by
  intro d tail hinput hrest
  exact decodeListHeader_ok.mpr (rlpDecodeListHeader_encode hn hrest)

/-- A list header and what is read in the list. -/
theorem accepts_inList {f : Decoded ℕ → Decode β} {b : β} {ys : Bytes}
    (hf : ∀ r : Decoded ℕ, r.value = ys.length → Accepts (f r) b ys) :
    Accepts (decodeListHeader >>= f) b (encodeList ys) := by
  intro d tail hinput hrest
  have hlt := lt_of_le_of_lt (length_le_encodeList ys) (length_lt_of_rest hinput hrest)
  exact (accepts_listHeader hlt).bind (hf _ rfl) d tail hinput hrest

theorem accepts_whileBelow (hne : ∀ a, e a ≠ []) (as : List α) :
    ∀ (fuel : ℕ) (d : Decoder) (tail : Bytes), as.length < fuel →
      (∀ a ∈ as, Accepts item a (e a)) → d.input.length < 2 ^ 64 →
      d.rest = (as.map e).flatten ++ tail →
      whileBelow item fuel (d.pos + (as.map e).flatten.length) d =
        (.ok as, d.advance (as.map e).flatten.length) := by
  induction as with
  | nil =>
    intro fuel d tail hfuel hitem hinput hrest
    obtain ⟨fuel, rfl⟩ := Nat.exists_eq_succ_of_ne_zero (Nat.ne_zero_of_lt hfuel)
    rw [whileBelow]
    refine bind_ok.mpr ⟨d, d, rfl, ?_⟩
    rw [if_neg (by simp)]
    exact pure_ok.mpr ⟨rfl, rfl⟩
  | cons a as ih =>
    intro fuel d tail hfuel hitem hinput hrest
    rw [List.length_cons] at hfuel
    obtain ⟨fuel, rfl⟩ := Nat.exists_eq_succ_of_ne_zero (Nat.ne_zero_of_lt hfuel)
    have hpos := List.length_pos_of_ne_nil (hne a)
    rw [List.map_cons, List.flatten_cons, List.append_assoc] at hrest
    have hfirst := hitem a List.mem_cons_self d _ hinput hrest
    have hnext := ih fuel (d.advance (e a).length) tail (by omega)
      (fun b hb => hitem b (List.mem_cons_of_mem _ hb)) hinput
      (Decoder.rest_advance_of_rest hrest)
    rw [Decoder.advance_pos, Decoder.advance_advance, Nat.add_assoc] at hnext
    rw [whileBelow, List.map_cons, List.flatten_cons, List.length_append]
    refine bind_ok.mpr ⟨d, d, rfl, ?_⟩
    rw [if_pos (by omega)]
    exact bind_ok.mpr ⟨a, _, hfirst, bind_ok.mpr ⟨as, _, hnext, pure_ok.mpr ⟨rfl, rfl⟩⟩⟩

theorem accepts_listOf {room : ℕ → Bool} (hne : ∀ a, e a ≠ []) {as : List α}
    (hkept : Taken room as.length) (hfuel : as.length < fuel)
    (hitem : ∀ a ∈ as, Accepts item a (e a)) :
    Accepts (listOf room item fuel) as (encodeList (as.map e).flatten) := by
  apply accepts_inList
  intro header hheader d tail hinput hrest
  rw [hheader]
  by_cases hzero : (as.map e).flatten.length = 0
  · have hle := @length_le_flatten (as.map e) (by simpa using fun a _ => hne a)
    rw [List.length_map] at hle
    have hnil : as = [] := List.eq_nil_of_length_eq_zero (by omega)
    rw [if_pos hzero, hnil]
    exact pure_ok.mpr ⟨rfl, rfl⟩
  · have hstop := pos_add_le (List.ne_nil_of_length_pos (Nat.pos_of_ne_zero hzero)) hrest
    have hwrap : (d.pos + (as.map e).flatten.length) % 2 ^ 64 =
        d.pos + (as.map e).flatten.length := Nat.mod_eq_of_lt (by omega)
    rw [if_neg hzero]
    refine bind_ok.mpr ⟨d, d, rfl, ?_⟩
    rw [hwrap]
    exact bind_ok.mpr ⟨as, _, accepts_whileBelow hne as fuel d tail hfuel hitem hinput hrest,
      pure_ok.mpr ⟨pushAll_of_taken hkept, rfl⟩⟩

theorem accepts_times (as : List α) (hitem : ∀ a ∈ as, Accepts item a (e a)) :
    Accepts (times item as.length) as (as.map e).flatten := by
  induction as with
  | nil => exact accepts_pure []
  | cons a as ih =>
    have hrest := ih fun b hb => hitem b (List.mem_cons_of_mem _ hb)
    rw [List.map_cons, List.flatten_cons, List.length_cons]
    exact (hitem a List.mem_cons_self).bind (hrest.bind_pure rfl)

end Sequences

section Items

theorem accepts_u64 (v : UInt64) : Accepts decodeU64 v (encodeNat v.toNat) := by
  intro d tail hinput hrest
  exact ofRlp_ok.mpr ⟨_, rlpDecodeU64_encode hrest, rfl⟩

theorem accepts_uint256 (v : Word) : Accepts decodeUint256 v (encodeNat v.toNat) := by
  intro d tail hinput hrest
  exact ofRlp_ok.mpr ⟨_, rlpDecodeUint256_encode hrest, rfl⟩

theorem accepts_address (v : Address) : Accepts decodeRequiredAddress v (encodeString v.bytes) := by
  intro d tail hinput hrest
  exact ofRlp_ok.mpr ⟨_, rlpDecodeAddress_encode hrest, rfl⟩

theorem accepts_bytes (s : Bytes) : Accepts (ofRlp rlpDecodeBytes) s (encodeString s) := by
  intro d tail hinput hrest
  have hlt := lt_of_le_of_lt (length_le_encodeString s) (length_lt_of_rest hinput hrest)
  exact ofRlp_ok.mpr ⟨_, rlpDecodeBytes_encode hlt hrest, rfl⟩

/-- A byte widened to 64 bits is cut back to itself. -/
theorem accepts_yParity (v : UInt8) : Accepts decodeYParity v (encodeNat v.toUInt64.toNat) := by
  refine (accepts_u64 v.toUInt64).bind_pure ?_
  rw [UInt8.toUInt8_toUInt64]

theorem accepts_optionalAddress (v : Option Address) :
    Accepts (decodeOptionalAddress arenaAlloc) v
      (encode (txEncodeOptionalAddress formatEncoders v)) := by
  cases v with
  | none => exact (accepts_bytes []).bind_pure rfl
  | some addr =>
    have hsize := addr.size_eq
    refine (accepts_bytes addr.bytes).bind_pure ?_
    rw [if_neg (by omega), dif_pos hsize, if_pos (by decide)]

theorem accepts_txData {v : Bytes} (hlen : v.length ≤ 65536) :
    Accepts (decodeTxData arenaAlloc) v (encodeString v) := by
  refine (accepts_bytes v).bind_pure ?_
  by_cases hpos : 0 < v.length
  · have halloc := arenaAlloc_grantsUpTo v.length hpos hlen
    rw [if_pos hpos, if_pos (Buf.reserve_init_isSome halloc)]
  · rw [if_neg hpos, List.eq_nil_of_length_eq_zero (by omega : v.length = 0)]

theorem accepts_blobHash (v : Hash) : Accepts decodeBlobHash v (encodeString v.bytes) := by
  intro d tail hinput hrest
  have hlt := lt_of_le_of_lt (length_le_encodeString v.bytes) (length_lt_of_rest hinput hrest)
  unfold decodeBlobHash
  rw [rlpDecodeBytes_encode hlt hrest]
  exact dif_pos v.size_eq

theorem encodeNat_ne_nil (n : ℕ) : encodeNat n ≠ [] := encodeString_ne_nil _

/-- Counting stops at the end of the strings, with their number. -/
theorem countItems_encode (ss : List Bytes) :
    ∀ (fuel : ℕ) (d : Decoder) (tail : Bytes), ss.length < fuel → d.input.length < 2 ^ 64 →
      d.rest = (ss.map encodeString).flatten ++ tail →
      countItems fuel (d.pos + (ss.map encodeString).flatten.length) d = some ss.length := by
  induction ss with
  | nil =>
    intro fuel d tail hfuel hinput hrest
    obtain ⟨fuel, rfl⟩ := Nat.exists_eq_succ_of_ne_zero (Nat.ne_zero_of_lt hfuel)
    exact if_neg (by simp)
  | cons x ss ih =>
    intro fuel d tail hfuel hinput hrest
    rw [List.length_cons] at hfuel
    obtain ⟨fuel, rfl⟩ := Nat.exists_eq_succ_of_ne_zero (Nat.ne_zero_of_lt hfuel)
    have hpos := List.length_pos_of_ne_nil (encodeString_ne_nil x)
    rw [List.map_cons, List.flatten_cons, List.append_assoc] at hrest
    have hnext := ih fuel (d.advance (encodeString x).length) tail (by omega) hinput
      (Decoder.rest_advance_of_rest hrest)
    rw [Decoder.advance_pos, Nat.add_assoc] at hnext
    rw [countItems, List.map_cons, List.flatten_cons, List.length_append, if_pos (by omega),
      rlpSkipItem_encode hinput hrest, hnext]
    rfl

theorem accepts_blobHashes {hashes : List Hash} (hfuel : hashes.length < fuel)
    (hblock : hashes.length * 32 ≤ 65536) :
    Accepts (decodeBlobHashes arenaAlloc fuel) hashes
      (encodeList (hashes.map fun hash => encodeString hash.bytes).flatten) := by
  apply accepts_inList
  intro header hheader d tail hinput hrest
  rw [hheader]
  have hstrings : (hashes.map fun hash => encodeString hash.bytes) =
      (hashes.map Hash.bytes).map encodeString := by rw [List.map_map]; rfl
  have hne : ∀ x ∈ (hashes.map fun hash => encodeString hash.bytes), x ≠ [] := by
    simpa using fun (hash : Hash) _ => encodeString_ne_nil hash.bytes
  by_cases hzero : (hashes.map fun hash => encodeString hash.bytes).flatten.length = 0
  · have hle := length_le_flatten hne
    rw [List.length_map] at hle
    have hnil : hashes = [] := List.eq_nil_of_length_eq_zero (by omega)
    rw [if_pos hzero, hnil]
    exact pure_ok.mpr ⟨rfl, rfl⟩
  · have hstop := pos_add_le (List.ne_nil_of_length_pos (Nat.pos_of_ne_zero hzero)) hrest
    have hwrap := Nat.mod_eq_of_lt (lt_of_le_of_lt hstop hinput)
    have hcount := countItems_encode (hashes.map Hash.bytes) fuel d tail
      (by rwa [List.length_map]) hinput (by rw [← hstrings]; exact hrest)
    rw [List.length_map, ← hstrings] at hcount
    have hgrant : allocBlobHashes arenaAlloc hashes.length = true := by
      cases hashes with
      | nil => rfl
      | cons hash hashes =>
        rw [allocBlobHashes, arenaAlloc_grantsUpTo _ (by simp) hblock, Bool.or_true]
    rw [if_neg hzero]
    refine bind_ok.mpr ⟨d, d, rfl, ?_⟩
    simp only [hwrap, hcount, hgrant, if_true]
    exact accepts_times hashes (fun hash _ => accepts_blobHash hash) d tail hinput hrest

theorem encodeAll_map {β : Type} (f : β → Tree) (l : List β) :
    encodeAll (l.map f) = (l.map fun a => encode (f a)).flatten := by
  rw [encodeAll_eq, List.map_map]
  rfl

theorem accepts_accessEntry {entry : AccessListEntry}
    (hkept : Taken (vectors keySize) entry.storageKeys.length)
    (hfuel : entry.storageKeys.length < fuel) : Accepts (decodeAccessEntry vectors fuel) entry
      (encode (accessEntryTree formatEncoders entry)) := by
  have hkeys := accepts_listOf (fun v : Word => encodeNat_ne_nil v.toNat) hkept hfuel
    fun v _ => accepts_uint256 v
  rw [accessEntryTree, encode]
  apply accepts_inList
  intro header hheader
  rw [encodeAll, encodeAll, encodeAll, encode, encode, encodeAll_map, List.append_nil]
  exact (accepts_address entry.address).bind (hkeys.bind_pure rfl)

theorem accepts_authorization (auth : Authorization) :
    Accepts decodeAuthorization auth (encode (authorizationTree formatEncoders auth)) := by
  rw [authorizationTree, encode]
  apply accepts_inList
  intro header hheader
  simp only [encodeAll, encode, List.append_nil]
  exact (accepts_u64 auth.chainId).bind ((accepts_address auth.address).bind
    ((accepts_u64 auth.nonce).bind ((accepts_yParity auth.yParity).bind
      ((accepts_uint256 auth.r).bind ((accepts_uint256 auth.s).bind_pure rfl)))))

end Items

section Fields

theorem encode_list_ne_nil (ts : List Tree) : encode (.list ts) ≠ [] := by
  rw [encode]
  exact encodeList_ne_nil _

/-- An item of a list is not longer than the list. -/
theorem encode_length_le_of_mem {β : Type} (f : β → Tree) {l : List β} {a : β} (ha : a ∈ l) :
    (encode (f a)).length ≤ (encode (.list (l.map f))).length := by
  have hmem : encode (f a) ∈ l.map fun b => encode (f b) := List.mem_map_of_mem ha
  have hle := (List.sublist_flatten_of_mem hmem).length_le
  rw [encode, encodeAll_map]
  exact le_trans hle (length_le_encodeList _)

/-- A list has no more items than bytes. -/
theorem length_le_encode_list {β : Type} (f : β → Tree) (hne : ∀ a, encode (f a) ≠ [])
    (l : List β) : l.length ≤ (encode (.list (l.map f))).length := by
  have hle := @length_le_flatten (l.map fun a => encode (f a)) (by simpa using fun a _ => hne a)
  rw [List.length_map] at hle
  rw [encode, encodeAll_map]
  exact le_trans hle (length_le_encodeList _)

theorem storageKeys_length_le (entry : AccessListEntry) :
    entry.storageKeys.length ≤ (encode (accessEntryTree formatEncoders entry)).length := by
  have hkeys := length_le_encode_list (fun key => .leaf (formatEncoders.uint256 key))
    (fun key : Word => encodeNat_ne_nil key.toNat) entry.storageKeys
  rw [accessEntryTree, encode, encodeAll, encodeAll, encodeAll, List.append_nil]
  refine le_trans hkeys (le_trans ?_ (length_le_encodeList _))
  rw [List.length_append]
  exact Nat.le_add_left _ _

theorem accepts_accessList {list : AccessList} (hkept : KeptField vectors .accessList list)
    (hfuel : (encode (txEncodeAccessList formatEncoders list)).length < fuel) :
    Accepts (decodeAccessList vectors fuel) list
      (encode (txEncodeAccessList formatEncoders list)) := by
  have hcount := length_le_encode_list (accessEntryTree formatEncoders)
    (fun _ => encode_list_ne_nil _) list
  rw [txEncodeAccessList] at hfuel ⊢
  rw [encode, encodeAll_map]
  refine accepts_listOf (fun _ => encode_list_ne_nil _) hkept.1 (lt_of_le_of_lt hcount hfuel) ?_
  intro entry hmem
  exact accepts_accessEntry (hkept.2 entry hmem) (lt_of_le_of_lt (storageKeys_length_le entry)
    (lt_of_le_of_lt (encode_length_le_of_mem _ hmem) hfuel))

/-- A field whose encoding is short is read back. -/
theorem accepts_field (kind : Kind) {v : kind.Value} (hkept : KeptField vectors kind v)
    (hshort : (encode (fieldTree formatEncoders kind v)).length ≤ 2048)
    (hfuel : (encode (fieldTree formatEncoders kind v)).length < fuel) :
    Accepts (decodeField vectors arenaAlloc fuel kind) v
      (encode (fieldTree formatEncoders kind v)) := by
  cases kind with
  | u64 => exact accepts_u64 v
  | uint256 => exact accepts_uint256 v
  | yParity => exact accepts_yParity v
  | optionalAddress => exact accepts_optionalAddress v
  | address => exact accepts_address v
  | data =>
    have hlen : v.length ≤ 2048 := le_trans (length_le_encodeString v) hshort
    exact accepts_txData (by omega)
  | accessList => exact accepts_accessList hkept hfuel
  | authorizationList =>
    have hcount := length_le_encode_list (authorizationTree formatEncoders)
      (fun _ => encode_list_ne_nil _) v
    rw [fieldTree, txEncodeAuthorizationList] at hfuel ⊢
    rw [encode, encodeAll_map]
    exact accepts_listOf (fun _ => encode_list_ne_nil _) hkept (lt_of_le_of_lt hcount hfuel)
      fun auth _ => accepts_authorization auth
  | blobHashes =>
    have hcount := length_le_encode_list (fun hash : Hash => .leaf (formatEncoders.string hash.bytes))
      (fun hash => encodeString_ne_nil hash.bytes) v
    rw [fieldTree, blobHashesTree] at hfuel hshort ⊢
    rw [encode, encodeAll_map]
    exact accepts_blobHashes (lt_of_le_of_lt hcount hfuel) (by omega)

/-- The fields of a list whose encoding is short are read back. -/
theorem accepts_fields (kinds : List Kind) (vs : Values kinds) (hkept : KeptFields vectors kinds vs)
    (hshort : (encodeAll (fieldTrees formatEncoders kinds vs)).length ≤ 2048)
    (hfuel : (encodeAll (fieldTrees formatEncoders kinds vs)).length < fuel) :
    Accepts (decodeFields vectors arenaAlloc fuel kinds) vs
      (encodeAll (fieldTrees formatEncoders kinds vs)) := by
  induction kinds with
  | nil => exact accepts_pure ()
  | cons kind kinds ih =>
    obtain ⟨v, vs⟩ := vs
    rw [fieldTrees, encodeAll, List.length_append] at hshort hfuel
    rw [fieldTrees, encodeAll, decodeFields]
    exact (accepts_field kind hkept.1 (by omega) (by omega)).bind
      ((ih vs hkept.2 (by omega) (by omega)).bind_pure rfl)

end Fields

end Div0.TxAccepts
