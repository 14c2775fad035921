import Div0.TxAccepts

/-!
Round trip of the five transaction types. The output of an encoder is one arena block
of a fixed size, which cannot grow: an item that finds no room is left out. Decoding
gives the transaction back exactly when no item was left out, which is when the peak of
the output stays within the block.

That decoding fails otherwise is a matter of counting. An output with something left
out has fewer tokens than the transaction, while a decoder that succeeds has read as
many tokens as the transaction it returns.
-/

namespace Div0.TxRoundTrip

open BigEndian Buffer Containers RlpFormat RlpTree RlpEncode RlpBuilder RlpDecode Uint256
open Transaction TxFields TxCodec TxFields.Decode TxFieldLaws TxAccepts

def dataLength : (kind : Kind) → kind.Value → ℕ
  | .data, v => v.length
  | .u64, _ | .uint256, _ | .yParity, _ | .optionalAddress, _ | .address, _ | .accessList, _
  | .authorizationList, _ | .blobHashes, _ => 0

def longestData : (kinds : List Kind) → Values kinds → ℕ
  | [], _ => 0
  | kind :: kinds, (v, vs) => max (dataLength kind v) (longestData kinds vs)

variable {kinds : List Kind} {vs : Values kinds}

variable {kind : Kind} {v : kind.Value}

section Arena

theorem arena_u64 : (arenaEncoders arenaAlloc).u64 = formatEncoders.u64 := by
  funext value
  exact rlpEncodeU64_data (fun size hpos hle => arenaAlloc_grantsUpTo size hpos (by omega)) value

theorem arena_uint256 : (arenaEncoders arenaAlloc).uint256 = formatEncoders.uint256 := by
  funext value
  exact rlpEncodeUint256_data (fun size hpos hle => arenaAlloc_grantsUpTo size hpos (by omega))
    value

theorem arena_address : (arenaEncoders arenaAlloc).address = formatEncoders.address := by
  funext addr
  exact rlpEncodeAddress_data (fun size hpos hle => arenaAlloc_grantsUpTo size hpos (by omega))
    addr

theorem arena_string {data : Bytes} (h : data.length ≤ 65000) :
    (arenaEncoders arenaAlloc).string data = formatEncoders.string data := by
  have hpos := List.length_pos_of_ne_nil (encodeString_ne_nil data)
  have hle := encodeString_length_le data
  have hbytes := @byteLength_le_eight data.length (by omega)
  unfold framedBound at hle
  change (rlpEncodeBytes arenaAlloc data).data = encodeString data
  rw [rlpEncodeBytes_eq (arenaAlloc_grantsUpTo _ hpos (by omega))]

/-- In an arena a field is encoded as the format says, unless its calldata is too long. -/
theorem fieldTree_arena (h : dataLength kind v ≤ 65000) :
    fieldTree (arenaEncoders arenaAlloc) kind v = fieldTree formatEncoders kind v := by
  cases kind with
  | u64 => rw [fieldTree, fieldTree, arena_u64]
  | uint256 => rw [fieldTree, fieldTree, arena_uint256]
  | yParity => rw [fieldTree, fieldTree, arena_u64]
  | optionalAddress =>
    cases v with
    | none => simp only [fieldTree, txEncodeOptionalAddress, @arena_string [] (by decide)]
    | some addr => simp only [fieldTree, txEncodeOptionalAddress, arena_address]
  | address => rw [fieldTree, fieldTree, arena_address]
  | data => rw [fieldTree, fieldTree, arena_string h]
  | accessList =>
    have hentry : accessEntryTree (arenaEncoders arenaAlloc) = accessEntryTree formatEncoders := by
      funext entry
      rw [accessEntryTree, accessEntryTree, arena_address, arena_uint256]
    rw [fieldTree, fieldTree, txEncodeAccessList, txEncodeAccessList, hentry]
  | authorizationList =>
    have hentry : authorizationTree (arenaEncoders arenaAlloc) =
        authorizationTree formatEncoders := by
      funext auth
      rw [authorizationTree, authorizationTree, arena_u64, arena_address, arena_uint256]
    rw [fieldTree, fieldTree, txEncodeAuthorizationList, txEncodeAuthorizationList, hentry]
  | blobHashes =>
    have hentry : (fun hash : Hash => Tree.leaf ((arenaEncoders arenaAlloc).string hash.bytes)) =
        fun hash => Tree.leaf (formatEncoders.string hash.bytes) := by
      funext hash
      have hsize := hash.size_eq
      rw [arena_string (by omega)]
    rw [fieldTree, fieldTree, blobHashesTree, blobHashesTree, hentry]

theorem fieldTrees_arena (h : longestData kinds vs ≤ 65000) :
    fieldTrees (arenaEncoders arenaAlloc) kinds vs = fieldTrees formatEncoders kinds vs := by
  induction kinds with
  | nil => rfl
  | cons kind kinds ih =>
    obtain ⟨v, vs⟩ := vs
    rw [longestData] at h
    rw [fieldTrees, fieldTrees, fieldTree_arena (by omega), ih (by omega)]

end Arena

section Tokens

theorem isToken_encodeNat_u64 (v : UInt64) : IsToken (encodeNat v.toNat) := by
  have hle := byteLength_le_eight v.toNat_lt
  exact IsToken.string _ (by rw [toBytes_length]; omega)

theorem isToken_encodeNat_word (v : Word) : IsToken (encodeNat v.toNat) := by
  have hle := byteLength_word v
  exact IsToken.string _ (by rw [toBytes_length]; omega)

theorem isToken_address (v : Address) : IsToken (encodeString v.bytes) :=
  IsToken.string _ (by rw [v.size_eq]; decide)

theorem leafTokensAll_map {β : Type} {f : β → Tree} (h : ∀ a, LeafTokens (f a)) (l : List β) :
    LeafTokensAll (l.map f) := by
  induction l with
  | nil => exact trivial
  | cons a l ih => exact ⟨h a, ih⟩

theorem leafTokens_field (h : dataLength kind v < 2 ^ 64) :
    LeafTokens (fieldTree formatEncoders kind v) := by
  cases kind with
  | u64 => exact isToken_encodeNat_u64 v
  | uint256 => exact isToken_encodeNat_word v
  | yParity => exact isToken_encodeNat_u64 v.toUInt64
  | optionalAddress =>
    cases v with
    | none => exact IsToken.string [] (by decide)
    | some addr => exact isToken_address addr
  | address => exact isToken_address v
  | data => exact IsToken.string v h
  | accessList =>
    refine leafTokensAll_map (fun entry => ?_) v
    exact ⟨isToken_address _, leafTokensAll_map isToken_encodeNat_word _, trivial⟩
  | authorizationList =>
    refine leafTokensAll_map (fun auth => ?_) v
    exact ⟨isToken_encodeNat_u64 _, isToken_address _, isToken_encodeNat_u64 _,
      isToken_encodeNat_u64 _, isToken_encodeNat_word _, isToken_encodeNat_word _, trivial⟩
  | blobHashes =>
    refine leafTokensAll_map (fun hash => ?_) v
    exact IsToken.string _ (by rw [hash.size_eq]; decide)

theorem leafTokens_fields (h : longestData kinds vs < 2 ^ 64) :
    LeafTokensAll (fieldTrees formatEncoders kinds vs) := by
  induction kinds with
  | nil => exact trivial
  | cons kind kinds ih =>
    obtain ⟨v, vs⟩ := vs
    rw [longestData] at h
    exact ⟨leafTokens_field (by omega), ih (by omega)⟩

end Tokens

variable {vectors : Growth} {fuel : ℕ}

section Lengths

theorem dataLength_le_encode (kind : Kind) (v : kind.Value) :
    dataLength kind v ≤ (encode (fieldTree formatEncoders kind v)).length := by
  cases kind with
  | data => exact length_le_encodeString v
  | u64 | uint256 | yParity | optionalAddress | address | accessList | authorizationList
  | blobHashes => exact Nat.zero_le _

theorem longestData_le_encodeAll (kinds : List Kind) (vs : Values kinds) :
    longestData kinds vs ≤ (encodeAll (fieldTrees formatEncoders kinds vs)).length := by
  induction kinds with
  | nil => exact Nat.zero_le _
  | cons kind kinds ih =>
    obtain ⟨v, vs⟩ := vs
    have hfield := dataLength_le_encode kind v
    have hrest := ih vs
    rw [longestData, fieldTrees, encodeAll, List.length_append]
    omega

variable {d d' : Decoder}

theorem ReadsTokens.rest_length_le {count : ℕ} (h : ReadsTokens d count d') :
    d'.rest.length ≤ d.rest.length := by
  obtain ⟨toks, -, -, hreads⟩ := h
  rw [hreads.bytes, List.length_append]
  exact Nat.le_add_left _ _

/-- Calldata is a copy of bytes of the input. -/
theorem dataLength_le_rest (h : decodeField vectors arenaAlloc fuel kind d = (.ok v, d')) :
    dataLength kind v ≤ d.rest.length := by
  cases kind with
  | data =>
    obtain ⟨bytes, d1, hbytes, hcheck⟩ := bind_ok.mp h
    obtain ⟨r, hr, rfl⟩ := ofRlp_ok.mp hbytes
    have hreads := (rlpDecodeBytes_ok hr).2.2.bytes
    have hle := length_le_encodeString r.value
    have hvalue : v.length ≤ r.value.length := by
      split at hcheck
      · split at hcheck
        · rw [(pure_ok.mp hcheck).1]
        · exact absurd hcheck fail_ok
      · rw [← (pure_ok.mp hcheck).1]
        exact Nat.zero_le _
    rw [hreads, List.flatten_singleton, List.length_append]
    exact le_trans hvalue (le_trans hle (Nat.le_add_right _ _))
  | u64 | uint256 | yParity | optionalAddress | address | accessList | authorizationList
  | blobHashes => exact Nat.zero_le _

theorem longestData_le_rest (h : decodeFields vectors arenaAlloc fuel kinds d = (.ok vs, d')) :
    longestData kinds vs ≤ d.rest.length := by
  induction kinds generalizing d with
  | nil => exact Nat.zero_le _
  | cons kind kinds ih =>
    obtain ⟨v, d1, hfield, h⟩ := bind_ok.mp h
    obtain ⟨rest, d2, hrest, h⟩ := bind_ok.mp h
    obtain ⟨rfl, rfl⟩ := pure_ok.mp h
    have hfirst := dataLength_le_rest hfield
    have hread := ReadsTokens.rest_length_le
      (counts_field arenaAlloc fuel formatEncoders kind d v d1 hfield)
    have hnext := ih hrest
    rw [longestData]
    omega

end Lengths

section Output

variable {reserved : ℕ} {typeByte : Option UInt8}

theorem typeByte_length_le (typeByte : Option UInt8) : typeByte.toList.length ≤ 1 := by
  cases typeByte <;> simp

theorem buildOutput_eq (hpos : 0 < reserved) (hle : reserved ≤ 65536) (fields : List Tree) :
    buildOutput arenaAlloc reserved typeByte fields =
      writeTree arenaAlloc (.list fields) (inRoom reserved typeByte.toList) := by
  unfold buildOutput
  rw [reserve_inRoom hpos (arenaAlloc_grantsUpTo _ hpos hle)]
  cases typeByte with
  | none => rfl
  | some b =>
    simp only [Option.toList_some]
    rw [append_inRoom (by simp; omega)]
    rfl

theorem isPrefix_buildOutput (hpos : 0 < reserved) (hle : reserved ≤ 65536)
    (typeByte : Option UInt8) (fields : List Tree) :
    typeByte.toList <+: (buildOutput arenaAlloc reserved typeByte fields).data := by
  rw [buildOutput_eq hpos hle]
  exact isPrefix_writeTree (.list fields) (inRoom reserved typeByte.toList)

/-- With room for its peak the output is the type byte and the list of the fields. -/
theorem buildOutput_of_fits (hpos : 0 < reserved) (hle : reserved ≤ 65536) {fields : List Tree}
    (hfits : typeByte.toList.length + peak (.list fields) ≤ reserved) :
    buildOutput arenaAlloc reserved typeByte fields =
      inRoom reserved (typeByte.toList ++ encode (.list fields)) := by
  rw [buildOutput_eq hpos hle, writeTree_eq (by omega) _ _ hfits]

/-- Fields whose output fits are encoded as the format says. -/
theorem output_of_fits (hpos : 0 < reserved) (hle : reserved ≤ 1024)
    (hfits : typeByte.toList.length + peak (.list (fieldTrees formatEncoders kinds vs)) ≤
      reserved) :
    buildOutput arenaAlloc reserved typeByte (fieldTrees (arenaEncoders arenaAlloc) kinds vs) =
      inRoom reserved (typeByte.toList ++ encode (.list (fieldTrees formatEncoders kinds vs))) := by
  rw [peak] at hfits
  have hpeak := encodeAll_length_le_peakAll (fieldTrees formatEncoders kinds vs) (by omega)
  have hdata := longestData_le_encodeAll kinds vs
  rw [fieldTrees_arena (by omega), buildOutput_of_fits hpos (by omega) (by rw [peak]; exact hfits)]

end Output

section Format

variable {T : Type} {format : TxFormat T} {reserved : ℕ} {typeByte : Option UInt8} {tx : T}

/-- The body of a short transaction is read back, with its own length. -/
theorem accepts_body (hkept : KeptFields vectors format.kinds (format.toValues tx))
    (hfuel : 1024 < fuel)
    (hshort : (encode (.list (format.trees formatEncoders tx))).length ≤ 1024) :
    Accepts (decodeBody format vectors arenaAlloc fuel)
      (tx, (encode (.list (format.trees formatEncoders tx))).length)
      (encode (.list (format.trees formatEncoders tx))) := by
  have hpayload := length_le_encodeList (encodeAll (format.trees formatEncoders tx))
  rw [encode] at hshort ⊢
  have hfields := @accepts_fields vectors fuel format.kinds (format.toValues tx) hkept
    (le_trans hpayload (by omega)) (lt_of_le_of_lt hpayload (by omega))
  have hheader := @accepts_listHeader (encodeAll (format.trees formatEncoders tx)).length (by omega)
  refine hheader.bind (hfields.bind_pure ?_)
  have hconsumed := Nat.mod_eq_of_lt (lt_of_le_of_lt hshort (by decide : 1024 < 2 ^ 64))
  rw [encodeList, List.length_append] at hconsumed
  simp only [format.ofValues_toValues, hconsumed, encodeList, List.length_append]

theorem decodeTx_of_fits (hkept : KeptFields vectors format.kinds (format.toValues tx))
    (hfuel : 1024 < fuel)
    (hfits : peak (.list (format.trees formatEncoders tx)) ≤ 1024) :
    decodeTx format vectors arenaAlloc fuel (encode (.list (format.trees formatEncoders tx))) =
      .ok (tx, (encode (.list (format.trees formatEncoders tx))).length) := by
  have hshort := le_trans (encode_length_le_peak (.list (format.trees formatEncoders tx))
    (by omega)) hfits
  have hpos := List.length_pos_of_ne_nil (encode_list_ne_nil (format.trees formatEncoders tx))
  have hbody := accepts_body hkept hfuel hshort
    ⟨encode (.list (format.trees formatEncoders tx)), 0⟩ []
    (lt_of_le_of_lt hshort (by decide)) (List.append_nil _).symm
  rw [decodeTx, if_neg (by omega)]
  exact congrArg Prod.fst hbody

theorem decodeTx_ok {alloc : Alloc} {fuel consumed : ℕ} {body : Bytes}
    (h : decodeTx format vectors alloc fuel body = .ok (tx, consumed)) :
    ∃ d', decodeBody format vectors alloc fuel ⟨body, 0⟩ = (.ok (tx, consumed), d') := by
  unfold decodeTx at h
  split at h
  · cases h
  · exact ⟨_, Prod.ext h rfl⟩

theorem kept_of_decodeTx {alloc : Alloc} {consumed : ℕ} {body : Bytes}
    (h : decodeTx format vectors alloc fuel body = .ok (tx, consumed)) :
    KeptFields vectors format.kinds (format.toValues tx) := by
  obtain ⟨d', hbody⟩ := decodeTx_ok h
  obtain ⟨header, d1, -, hbody⟩ := bind_ok.mp hbody
  obtain ⟨values, d2, hvalues, hreturn⟩ := bind_ok.mp hbody
  rw [← (Prod.mk.inj (pure_ok.mp hreturn).1).1, format.toValues_ofValues]
  exact fields_kept hvalues

/-- A decoder that returns the transaction has found all its tokens, so the output fits. -/
theorem fits_of_decodeTx {fuel consumed : ℕ} {body : Bytes} (hpos : 0 < reserved)
    (hle : reserved ≤ 1024)
    (hover : (buildOutput arenaAlloc reserved typeByte
      (format.trees (arenaEncoders arenaAlloc) tx)).overrun = false)
    (hdata : (buildOutput arenaAlloc reserved typeByte
      (format.trees (arenaEncoders arenaAlloc) tx)).data = typeByte.toList ++ body)
    (hdecode : decodeTx format vectors arenaAlloc fuel body = .ok (tx, consumed)) :
    typeByte.toList.length + peak (.list (format.trees formatEncoders tx)) ≤ reserved := by
  have htype := typeByte_length_le typeByte
  rw [buildOutput_eq hpos (by omega)] at hover hdata
  obtain ⟨d', hbody⟩ := decodeTx_ok hdecode
  obtain ⟨header, d1, hheader, hbody⟩ := bind_ok.mp hbody
  obtain ⟨values, d2, hvalues, hreturn⟩ := bind_ok.mp hbody
  obtain ⟨hresult, -⟩ := pure_ok.mp hreturn
  obtain ⟨htx, -⟩ := Prod.mk.inj hresult
  have hsame : values = format.toValues tx := by rw [← htx, format.toValues_ofValues]
  rw [hsame] at hvalues
  have hcount := (counts_listHeader _ _ _ hheader).trans
    (counts_fields arenaAlloc fuel formatEncoders format.kinds _ _ _ hvalues)
  -- the calldata was read from the output, so it is short and was not refused
  have hsize := (@writeTree_inBlock arenaAlloc reserved (by omega)
    (.list (format.trees (arenaEncoders arenaAlloc) tx)) (inRoom reserved typeByte.toList)
    ⟨rfl, by dsimp only; omega⟩).size
  have hlongest := longestData_le_rest hvalues
  have hrest := ReadsTokens.rest_length_le (counts_listHeader _ _ _ hheader)
  have hbodyRest : (⟨body, 0⟩ : Decoder).rest = body := rfl
  rw [hbodyRest] at hrest
  rw [hdata, List.length_append] at hsize
  have harena : format.trees (arenaEncoders arenaAlloc) tx = format.trees formatEncoders tx :=
    fieldTrees_arena (by omega)
  rw [harena] at hover hdata
  have hkept := @kept_writeTree arenaAlloc reserved (by omega)
    (.list (format.trees formatEncoders tx)) (leafTokens_fields (by omega))
    (inRoom reserved typeByte.toList) ⟨rfl, by dsimp only; omega⟩
  obtain ⟨toks, hwritten, htoks, hmost, hfull⟩ := hkept.tokens hover
  rw [hdata] at hwritten
  have hbodyToks := List.append_cancel_left hwritten
  obtain ⟨toks', htoks', hlength, hreads⟩ := hcount
  have hbytes := hreads.bytes
  rw [hbodyRest, hbodyToks] at hbytes
  have hinitial := (isPrefix_of_flatten htoks htoks' hbytes).length_le
  dsimp only at hlength
  rw [tokens, List.length_cons, TxFormat.trees] at hmost hfull
  exact hfull (by omega)

end Format

/-- The output of a transaction, with the header placeholders of all lists that are open
at once, fits the bytes its encoder reserves. -/
def Fits : Tx → Prop
  | .legacy tx => peak (.list (legacyFormat.trees formatEncoders tx)) ≤ 256
  | .eip2930 tx => 1 + peak (.list (eip2930Format.trees formatEncoders tx)) ≤ 512
  | .eip1559 tx => 1 + peak (.list (eip1559Format.trees formatEncoders tx)) ≤ 512
  | .eip4844 tx => 1 + peak (.list (eip4844Format.trees formatEncoders tx)) ≤ 1024
  | .eip7702 tx => 1 + peak (.list (eip7702Format.trees formatEncoders tx)) ≤ 1024

instance (tx : Tx) : Decidable (Fits tx) := by
  cases tx <;> exact inferInstanceAs (Decidable (_ ≤ _))

/-- The vectors of the decoders take the lists of a transaction. -/
def Kept (vectors : Growth) : Tx → Prop
  | .legacy tx => KeptFields vectors legacyFormat.kinds (legacyFormat.toValues tx)
  | .eip2930 tx => KeptFields vectors eip2930Format.kinds (eip2930Format.toValues tx)
  | .eip1559 tx => KeptFields vectors eip1559Format.kinds (eip1559Format.toValues tx)
  | .eip4844 tx => KeptFields vectors eip4844Format.kinds (eip4844Format.toValues tx)
  | .eip7702 tx => KeptFields vectors eip7702Format.kinds (eip7702Format.toValues tx)

/-- Encoding stays in bounds and decoding the encoding gives the transaction back and
reports all its bytes, once the loops have the rounds they need. -/
def RoundTrips (vectors : Growth) (tx : Tx) : Prop :=
  (transactionEncode arenaAlloc tx).overrun = false ∧
    ∃ rounds, ∀ fuel, rounds ≤ fuel →
      transactionDecode vectors arenaAlloc fuel (transactionEncode arenaAlloc tx).data =
        .ok (tx, (transactionEncode arenaAlloc tx).size)

theorem typedResult_ok {T : Type} {wrap : T → Tx} {result : Except Failure (T × ℕ)} {tx : Tx}
    {n : ℕ} : typedResult wrap result = .ok (tx, n) ↔
      ∃ t consumed, result = .ok (t, consumed) ∧ wrap t = tx ∧ (consumed + 1) % 2 ^ 64 = n := by
  cases result with
  | error e =>
    constructor
    · intro h
      cases h
    · rintro ⟨t, consumed, h, -⟩
      cases h
  | ok r =>
    obtain ⟨t, consumed⟩ := r
    constructor
    · intro h
      obtain ⟨htx, hn⟩ := Prod.mk.inj (Except.ok.inj h)
      exact ⟨t, consumed, rfl, htx, hn⟩
    · rintro ⟨t', consumed', h, rfl, rfl⟩
      cases h
      rfl

/-- One typed transaction, over its format, its constructor and its place in `decode`. -/
theorem typed_roundTrip {T : Type} (format : TxFormat T) {wrap : T → Tx} {reserved : ℕ}
    {typeByte : UInt8} {tx : T} (hpos : 0 < reserved) (hle : reserved ≤ 1024)
    (hinj : ∀ a b, wrap a = wrap b → a = b)
    (hencode : transactionEncode arenaAlloc (wrap tx) = buildOutput arenaAlloc reserved
      (some typeByte) (format.trees (arenaEncoders arenaAlloc) tx))
    (hdecode : ∀ fuel body, transactionDecode vectors arenaAlloc fuel (typeByte :: body) =
      typedResult wrap (decodeTx format vectors arenaAlloc fuel body)) :
    RoundTrips vectors (wrap tx) ↔ 1 + peak (.list (format.trees formatEncoders tx)) ≤ reserved ∧
      KeptFields vectors format.kinds (format.toValues tx) := by
  unfold RoundTrips
  rw [hencode]
  constructor
  · rintro ⟨hover, rounds, hrounds⟩
    obtain ⟨body, hbody⟩ := isPrefix_buildOutput hpos (by omega) (some typeByte)
      (format.trees (arenaEncoders arenaAlloc) tx)
    have hok := hrounds rounds le_rfl
    rw [← hbody] at hok
    obtain ⟨t, consumed, hdecoded, hwrap, -⟩ := typedResult_ok.mp ((hdecode _ _).symm.trans hok)
    rw [hinj t tx hwrap] at hdecoded
    exact ⟨@fits_of_decodeTx _ _ _ _ (some typeByte) _ _ _ _ hpos hle hover hbody.symm hdecoded,
      kept_of_decodeTx hdecoded⟩
  · rintro ⟨hfits, hkept⟩
    rw [TxFormat.trees, @output_of_fits _ _ _ (some typeByte) hpos hle hfits]
    refine ⟨rfl, 1025, ?_⟩
    intro fuel hfuel
    have hlist := encode_length_le_peak (.list (format.trees formatEncoders tx)) (by omega)
    refine (hdecode fuel _).trans (typedResult_ok.mpr ⟨tx, _,
      decodeTx_of_fits hkept (by omega) (by omega), rfl, ?_⟩)
    rw [Nat.mod_eq_of_lt (by omega)]
    rfl

theorem legacyResult_ok {result : Except Failure (LegacyTx × ℕ)} {tx : Tx} {n : ℕ}
    (h : result.map (fun (t, consumed) => (Tx.legacy t, consumed)) = .ok (tx, n)) :
    ∃ t, result = .ok (t, n) ∧ Tx.legacy t = tx := by
  cases result with
  | error e => cases h
  | ok r =>
    cases h
    exact ⟨r.1, rfl, rfl⟩

theorem transactionDecode_legacy {fuel n : ℕ} {data : Bytes} {tx : LegacyTx}
    (h : transactionDecode vectors arenaAlloc fuel data = .ok (.legacy tx, n)) :
    decodeTx legacyFormat vectors arenaAlloc fuel data = .ok (tx, n) := by
  cases data with
  | nil => cases h
  | cons first rest =>
    rcases first_cases vectors arenaAlloc fuel first with hlist | rfl | rfl | rfl | rfl | hother
    · rw [transactionDecode, if_pos hlist] at h
      obtain ⟨t, hdecoded, ⟨⟩⟩ := legacyResult_ok h
      exact hdecoded
    -- the other types give other constructors
    iterate 4
      · obtain ⟨t, consumed, -, ⟨⟩, -⟩ := typedResult_ok.mp h
    · rw [hother] at h
      cases h

/-- Bytes that start like a list are a legacy transaction. -/
theorem transactionDecode_list {fuel n : ℕ} {fields : List Tree} {tx : LegacyTx}
    (hlt : (encodeAll fields).length < 2 ^ 64)
    (h : decodeTx legacyFormat vectors arenaAlloc fuel (encode (.list fields)) = .ok (tx, n)) :
    transactionDecode vectors arenaAlloc fuel (encode (.list fields)) = .ok (.legacy tx, n) := by
  obtain ⟨b, rest, hhead, hhigh⟩ := header_list_head hlt
  have hdata : encode (.list fields) = b :: (rest ++ encodeAll fields) := by
    rw [encode, encodeList, hhead, List.cons_append]
  rw [hdata] at h ⊢
  rw [transactionDecode, if_pos hhigh, legacyTxDecode, h]
  rfl

theorem legacy_roundTrip (tx : LegacyTx) : RoundTrips vectors (.legacy tx) ↔
    peak (.list (legacyFormat.trees formatEncoders tx)) ≤ 256 ∧
      KeptFields vectors legacyFormat.kinds (legacyFormat.toValues tx) := by
  unfold RoundTrips
  constructor
  · rintro ⟨hover, rounds, hrounds⟩
    have hdecoded := transactionDecode_legacy (hrounds rounds le_rfl)
    have hfits := @fits_of_decodeTx _ _ _ _ none _ _ _ _ (by decide) (by decide) hover rfl hdecoded
    exact ⟨by simpa using hfits, kept_of_decodeTx hdecoded⟩
  · rintro ⟨hfits, hkept⟩
    have hencode : transactionEncode arenaAlloc (.legacy tx) =
        inRoom 256 (encode (.list (legacyFormat.trees formatEncoders tx))) :=
      @output_of_fits legacyFormat.kinds (legacyFormat.toValues tx) 256 none (by decide)
        (by decide) (by rw [Option.toList_none, List.length_nil, Nat.zero_add]; exact hfits)
    rw [hencode]
    refine ⟨rfl, 1025, ?_⟩
    intro fuel hfuel
    have hlist := encode_length_le_peak (.list (legacyFormat.trees formatEncoders tx)) (by omega)
    have hpayload := length_le_encodeList (encodeAll (legacyFormat.trees formatEncoders tx))
    rw [encode] at hlist
    exact transactionDecode_list (by omega) (decodeTx_of_fits hkept (by omega) (by omega))

/-- Decoding gives an encoded transaction back exactly when its output fits and the decoder's
vectors take its lists. -/
theorem roundTrips_iff_fits (vectors : Growth) (tx : Tx) :
    RoundTrips vectors tx ↔ Fits tx ∧ Kept vectors tx := by
  cases tx with
  | legacy tx => exact legacy_roundTrip tx
  | eip2930 tx =>
    exact typed_roundTrip eip2930Format (by decide) (by decide) (fun _ _ => Tx.eip2930.inj) rfl
      fun _ _ => rfl
  | eip1559 tx =>
    exact typed_roundTrip eip1559Format (by decide) (by decide) (fun _ _ => Tx.eip1559.inj) rfl
      fun _ _ => rfl
  | eip4844 tx =>
    exact typed_roundTrip eip4844Format (by decide) (by decide) (fun _ _ => Tx.eip4844.inj) rfl
      fun _ _ => rfl
  | eip7702 tx =>
    exact typed_roundTrip eip7702Format (by decide) (by decide) (fun _ _ => Tx.eip7702.inj) rfl
      fun _ _ => rfl

def callTx (length : ℕ) : Tx :=
  .legacy ⟨0, uint256Zero, 21000, none, uint256Zero, List.replicate length 0x60, 27, uint256Zero,
    uint256Zero⟩

example : Fits (callTx 200) := by decide +kernel

/-- Three hundred bytes of calldata find no room in the 256 bytes of a legacy transaction. -/
theorem transactionEncode_callTx : (transactionEncode arenaAlloc (callTx 300)).data =
    [0xca, 0x80, 0x80, 0x82, 0x52, 0x08, 0x80, 0x80, 0x1b, 0x80, 0x80] := by decide +kernel

/-- What is left is a list of eight fields, which no decoder takes for a transaction. -/
theorem not_roundTrips_callTx : ¬RoundTrips (.packed 65536) (callTx 300) := by
  rintro ⟨-, rounds, hrounds⟩
  have hok := hrounds rounds le_rfl
  rw [transactionEncode_callTx] at hok
  have herror : transactionDecode (.packed 65536) arenaAlloc rounds
      [0xca, 0x80, 0x80, 0x82, 0x52, 0x08, 0x80, 0x80, 0x1b, 0x80, 0x80] =
      .error (.rejected .invalidRlp) := rfl
  rw [herror] at hok
  cases hok

end Div0.TxRoundTrip
