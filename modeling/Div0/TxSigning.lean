import Div0.TxRoundTrip

/-!
What a signature covers. The signing payload is built in one arena block like the
encoding, so it can lose items as well. Where it fits, it determines the type of the
transaction and every field but the signature: a reader of the fields would return
them, and it can return only one list of fields for one payload.
-/

namespace Div0.TxSigning

open BigEndian Buffer RlpFormat RlpTree RlpEncode RlpBuilder Uint256 Transaction TxFields TxCodec
open TxFields.Decode TxFieldLaws TxAccepts TxRoundTrip

/-- Same type and the same value in every field but the signature. For a legacy
transaction the chain id of the signature, or its absence, counts as a field. -/
def SignedAlike : Tx → Tx → Prop
  | .legacy a, .legacy b =>
    a.nonce = b.nonce ∧ a.gasPrice = b.gasPrice ∧ a.gasLimit = b.gasLimit ∧
      a.recipient = b.recipient ∧ a.value = b.value ∧ a.data = b.data ∧
      legacyTxChainId a = legacyTxChainId b
  | .eip2930 a, .eip2930 b =>
    a.chainId = b.chainId ∧ a.nonce = b.nonce ∧ a.gasPrice = b.gasPrice ∧
      a.gasLimit = b.gasLimit ∧ a.recipient = b.recipient ∧ a.value = b.value ∧
      a.data = b.data ∧ a.accessList = b.accessList
  | .eip1559 a, .eip1559 b =>
    a.chainId = b.chainId ∧ a.nonce = b.nonce ∧
      a.maxPriorityFeePerGas = b.maxPriorityFeePerGas ∧ a.maxFeePerGas = b.maxFeePerGas ∧
      a.gasLimit = b.gasLimit ∧ a.recipient = b.recipient ∧ a.value = b.value ∧
      a.data = b.data ∧ a.accessList = b.accessList
  | .eip4844 a, .eip4844 b =>
    a.chainId = b.chainId ∧ a.nonce = b.nonce ∧
      a.maxPriorityFeePerGas = b.maxPriorityFeePerGas ∧ a.maxFeePerGas = b.maxFeePerGas ∧
      a.gasLimit = b.gasLimit ∧ a.recipient = b.recipient ∧ a.value = b.value ∧
      a.data = b.data ∧ a.accessList = b.accessList ∧
      a.maxFeePerBlobGas = b.maxFeePerBlobGas ∧ a.blobVersionedHashes = b.blobVersionedHashes
  | .eip7702 a, .eip7702 b =>
    a.chainId = b.chainId ∧ a.nonce = b.nonce ∧
      a.maxPriorityFeePerGas = b.maxPriorityFeePerGas ∧ a.maxFeePerGas = b.maxFeePerGas ∧
      a.gasLimit = b.gasLimit ∧ a.recipient = b.recipient ∧ a.value = b.value ∧
      a.data = b.data ∧ a.accessList = b.accessList ∧
      a.authorizationList = b.authorizationList
  | _, _ => False

def payloadType : Tx → Option UInt8
  | .legacy _ => none
  | .eip2930 _ => some 0x01
  | .eip1559 _ => some 0x02
  | .eip4844 _ => some 0x03
  | .eip7702 _ => some 0x04

def payloadReserved : Tx → ℕ
  | .legacy _ | .eip2930 _ | .eip1559 _ => 512
  | .eip4844 _ | .eip7702 _ => 1024

def signingTrees (enc : Encoders) : Tx → List Tree
  | .legacy tx => legacySigningTrees enc tx
  | .eip2930 tx => eip2930SigningTrees enc tx
  | .eip1559 tx => eip1559SigningTrees enc tx
  | .eip4844 tx => eip4844SigningTrees enc tx
  | .eip7702 tx => eip7702SigningTrees enc tx

theorem signingOutput_eq (alloc : Alloc) (tx : Tx) : signingOutput alloc tx =
    buildOutput alloc (payloadReserved tx) (payloadType tx)
      (signingTrees (arenaEncoders alloc) tx) := by
  cases tx <;> rfl

/-- The payload, with the header placeholders of all lists that are open at once, fits the
bytes reserved for it. -/
def SigningFits (tx : Tx) : Prop :=
  (payloadType tx).toList.length + peak (.list (signingTrees formatEncoders tx)) ≤
    payloadReserved tx

instance (tx : Tx) : Decidable (SigningFits tx) := inferInstanceAs (Decidable (_ ≤ _))

theorem payloadReserved_range (tx : Tx) : 0 < payloadReserved tx ∧ payloadReserved tx ≤ 1024 := by
  cases tx <;> simp [payloadReserved]

theorem payloadType_lt {tx : Tx} {b : UInt8} (h : payloadType tx = some b) : b.toNat < 0xc0 := by
  cases tx <;> cases h <;> decide

/-- With and without a chain id the payload is a list of fields. -/
theorem signingTrees_fields (tx : Tx) : ∃ (kinds : List Kind) (vs : Values kinds),
    ∀ enc, signingTrees enc tx = fieldTrees enc kinds vs := by
  cases tx with
  | legacy tx =>
    simp only [signingTrees, legacySigningTrees]
    cases hchain : legacyTxChainId tx with
    | none =>
      refine ⟨[.u64, .uint256, .u64, .optionalAddress, .uint256, .data],
        (tx.nonce, tx.gasPrice, tx.gasLimit, tx.recipient, tx.value, tx.data, ()), ?_⟩
      intro enc
      rw [chainIdTrees, List.append_nil]
    | some chainId =>
      exact ⟨[.u64, .uint256, .u64, .optionalAddress, .uint256, .data, .u64, .uint256, .uint256],
        (tx.nonce, tx.gasPrice, tx.gasLimit, tx.recipient, tx.value, tx.data, chainId,
          uint256Zero, uint256Zero, ()), fun enc => rfl⟩
  | eip2930 tx => exact ⟨_, _, fun enc => rfl⟩
  | eip1559 tx => exact ⟨_, _, fun enc => rfl⟩
  | eip4844 tx => exact ⟨_, _, fun enc => rfl⟩
  | eip7702 tx => exact ⟨_, _, fun enc => rfl⟩

section Fitting

variable {a b tx : Tx}

theorem SigningFits.encodeAll_length_le (h : SigningFits tx) :
    (encodeAll (signingTrees formatEncoders tx)).length ≤ 1024 := by
  have hrange := payloadReserved_range tx
  unfold SigningFits at h
  rw [peak] at h
  have hpeak := encodeAll_length_le_peakAll (signingTrees formatEncoders tx) (by omega)
  omega

/-- A payload that fits has the type byte and all fields. -/
theorem SigningFits.payload (h : SigningFits tx) : (signingOutput arenaAlloc tx).data =
    (payloadType tx).toList ++ encodeList (encodeAll (signingTrees formatEncoders tx)) := by
  obtain ⟨kinds, vs, htrees⟩ := signingTrees_fields tx
  obtain ⟨hpos, hle⟩ := payloadReserved_range tx
  unfold SigningFits at h
  rw [htrees] at h
  rw [signingOutput_eq, htrees, htrees, output_of_fits hpos hle h]
  rfl

/-- The first byte tells the types apart. -/
theorem payloadType_eq (ha : SigningFits a) (hb : SigningFits b)
    (h : (signingOutput arenaAlloc a).data = (signingOutput arenaAlloc b).data) :
    payloadType a = payloadType b := by
  have hlenA := ha.encodeAll_length_le
  have hlenB := hb.encodeAll_length_le
  obtain ⟨x, restA, hx, hhighA⟩ := @header_list_head
    (encodeAll (signingTrees formatEncoders a)).length (by omega)
  obtain ⟨y, restB, hy, hhighB⟩ := @header_list_head
    (encodeAll (signingTrees formatEncoders b)).length (by omega)
  rw [ha.payload, hb.payload, encodeList, encodeList, hx, hy] at h
  cases hta : payloadType a with
  | none =>
    cases htb : payloadType b with
    | none => rfl
    | some tb =>
      rw [hta, htb] at h
      have hhead : x = tb := (List.cons.inj h).1
      have hlow := payloadType_lt htb
      rw [hhead] at hhighA
      omega
  | some ta =>
    cases htb : payloadType b with
    | none =>
      rw [hta, htb] at h
      have hhead : ta = y := (List.cons.inj h).1
      have hlow := payloadType_lt hta
      rw [hhead] at hlow
      omega
    | some tb =>
      rw [hta, htb] at h
      rw [(List.cons.inj h).1]

theorem fields_append_inj {kinds : List Kind} {vs ws : Values kinds} {s t : Bytes}
    (hvs : (encodeAll (fieldTrees formatEncoders kinds vs)).length ≤ 1024)
    (hws : (encodeAll (fieldTrees formatEncoders kinds ws)).length ≤ 1024)
    (hs : s.length ≤ 1024)
    (h : encodeAll (fieldTrees formatEncoders kinds vs) ++ s =
      encodeAll (fieldTrees formatEncoders kinds ws) ++ t) : vs = ws ∧ s = t := by
  have hinput : (encodeAll (fieldTrees formatEncoders kinds vs) ++ s).length < 2 ^ 64 := by
    rw [List.length_append]
    omega
  have hreadv := @accepts_fields .ample 1025 kinds vs (keptFields_ample vs) (by omega) (by omega)
    ⟨encodeAll (fieldTrees formatEncoders kinds vs) ++ s, 0⟩ s hinput rfl
  have hreadw := @accepts_fields .ample 1025 kinds ws (keptFields_ample ws) (by omega) (by omega)
    ⟨encodeAll (fieldTrees formatEncoders kinds vs) ++ s, 0⟩ t hinput h
  rw [hreadv] at hreadw
  obtain ⟨hvalue, -⟩ := Prod.mk.inj hreadw
  have hsame := Except.ok.inj hvalue
  rw [hsame] at h
  exact ⟨hsame, List.append_cancel_left h⟩

theorem encodeAll_eq_of_payload (ha : SigningFits a) (hb : SigningFits b)
    (h : (signingOutput arenaAlloc a).data = (signingOutput arenaAlloc b).data) :
    encodeAll (signingTrees formatEncoders a) = encodeAll (signingTrees formatEncoders b) := by
  have htype := payloadType_eq ha hb h
  have hlenA := ha.encodeAll_length_le
  have hlenB := hb.encodeAll_length_le
  rw [ha.payload, hb.payload, htype] at h
  exact encodeList_injective (by omega) (by omega) (List.append_cancel_left h)

end Fitting

/-- A reader of the fields returns one list of values. -/
theorem fields_inj {kinds : List Kind} {vs ws : Values kinds}
    (hvs : (encodeAll (fieldTrees formatEncoders kinds vs)).length ≤ 1024)
    (h : encodeAll (fieldTrees formatEncoders kinds vs) =
      encodeAll (fieldTrees formatEncoders kinds ws)) : vs = ws := by
  exact (@fields_append_inj kinds vs ws [] [] hvs (h ▸ hvs) (by simp) (congrArg (· ++ []) h)).1

/-- A payload with a chain id is not one without. -/
theorem chainIdTrees_inj {x y : Option UInt64}
    (hlen : (encodeAll (chainIdTrees formatEncoders x)).length ≤ 1024)
    (h : encodeAll (chainIdTrees formatEncoders x) =
      encodeAll (chainIdTrees formatEncoders y)) : x = y := by
  have hne : ∀ chainId, encodeAll (chainIdTrees formatEncoders (some chainId)) ≠ [] := by
    intro chainId hnil
    exact encodeNat_ne_nil chainId.toNat (List.append_eq_nil_iff.mp hnil).1
  cases x with
  | none =>
    cases y with
    | none => rfl
    | some chainY => exact absurd h.symm (hne chainY)
  | some chainX =>
    cases y with
    | none => exact absurd h (hne chainX)
    | some chainY =>
      simp only [chainIdTrees] at hlen h
      exact congrArg some (Prod.mk.inj (fields_inj hlen h)).1

theorem legacy_signedAlike {a b : LegacyTx}
    (hlen : (encodeAll (legacySigningTrees formatEncoders a)).length ≤ 1024)
    (h : encodeAll (legacySigningTrees formatEncoders a) =
      encodeAll (legacySigningTrees formatEncoders b)) :
    SignedAlike (.legacy a) (.legacy b) := by
  have hlenB := hlen
  rw [h] at hlenB
  simp only [legacySigningTrees, encodeAll_append, List.length_append] at hlen hlenB h
  obtain ⟨hfields, hchain⟩ := fields_append_inj (by omega) (by omega) (by omega) h
  simp only [Prod.mk.injEq, and_true] at hfields
  obtain ⟨hnonce, hgasPrice, hgasLimit, hrecipient, hvalue, hdata⟩ := hfields
  exact ⟨hnonce, hgasPrice, hgasLimit, hrecipient, hvalue, hdata,
    chainIdTrees_inj (by omega) hchain⟩

/-- Payloads that fit cover every field: equal payloads are payloads of the same type of
transaction with the same fields. -/
theorem signedAlike_of_signingOutput (a b : Tx) (ha : SigningFits a) (hb : SigningFits b)
    (h : (signingOutput arenaAlloc a).data = (signingOutput arenaAlloc b).data) :
    SignedAlike a b := by
  have htype := payloadType_eq ha hb h
  have hfields := encodeAll_eq_of_payload ha hb h
  have hlen := ha.encodeAll_length_le
  cases a with
  | legacy a =>
    cases b with
    | legacy b => exact legacy_signedAlike hlen hfields
    | eip2930 b | eip1559 b | eip4844 b | eip7702 b => cases htype
  | eip2930 a =>
    cases b with
    | eip2930 b =>
      simp only [signingTrees, eip2930SigningTrees] at hlen hfields
      simpa only [SignedAlike, Prod.mk.injEq, and_true] using fields_inj hlen hfields
    | legacy b | eip1559 b | eip4844 b | eip7702 b => cases htype
  | eip1559 a =>
    cases b with
    | eip1559 b =>
      simp only [signingTrees, eip1559SigningTrees] at hlen hfields
      simpa only [SignedAlike, Prod.mk.injEq, and_true] using fields_inj hlen hfields
    | legacy b | eip2930 b | eip4844 b | eip7702 b => cases htype
  | eip4844 a =>
    cases b with
    | eip4844 b =>
      simp only [signingTrees, eip4844SigningTrees] at hlen hfields
      simpa only [SignedAlike, Prod.mk.injEq, and_true] using fields_inj hlen hfields
    | legacy b | eip2930 b | eip1559 b | eip7702 b => cases htype
  | eip7702 a =>
    cases b with
    | eip7702 b =>
      simp only [signingTrees, eip7702SigningTrees] at hlen hfields
      simpa only [SignedAlike, Prod.mk.injEq, and_true] using fields_inj hlen hfields
    | legacy b | eip2930 b | eip1559 b | eip4844 b => cases htype

def sendTx (r : UInt64) : Tx :=
  .eip1559 ⟨1, 7, uint256FromU64 2, uint256FromU64 100, 21000, some addressZero, uint256FromU64 1,
    [], [], 0, uint256FromU64 r, uint256FromU64 1⟩

/-- The signature itself is not part of the payload. -/
theorem signedAlike_sendTx : SigningFits (sendTx 1) ∧ SigningFits (sendTx 2) ∧
    (signingOutput arenaAlloc (sendTx 1)).data = (signingOutput arenaAlloc (sendTx 2)).data ∧
    SignedAlike (sendTx 1) (sendTx 2) := by
  have h1 : SigningFits (sendTx 1) := by decide +kernel
  have h2 : SigningFits (sendTx 2) := by decide +kernel
  have hpayload : (signingOutput arenaAlloc (sendTx 1)).data =
      (signingOutput arenaAlloc (sendTx 2)).data := by decide +kernel
  exact ⟨h1, h2, hpayload, signedAlike_of_signingOutput _ _ h1 h2 hpayload⟩

def withData : Tx → Bytes → Tx
  | .legacy tx, data => .legacy { tx with data := data }
  | .eip2930 tx, data => .eip2930 { tx with data := data }
  | .eip1559 tx, data => .eip1559 { tx with data := data }
  | .eip4844 tx, data => .eip4844 { tx with data := data }
  | .eip7702 tx, data => .eip7702 { tx with data := data }

theorem signingTrees_withData (enc : Encoders) (tx : Tx) : ∃ before after, ∀ data,
    signingTrees enc (withData tx data) = before ++ .leaf (enc.string data) :: after := by
  cases tx with
  | legacy tx =>
    exact ⟨fieldTrees enc [.u64, .uint256, .u64, .optionalAddress, .uint256]
        (tx.nonce, tx.gasPrice, tx.gasLimit, tx.recipient, tx.value, ()),
      chainIdTrees enc (legacyTxChainId tx), fun data => rfl⟩
  | eip2930 tx =>
    exact ⟨fieldTrees enc [.u64, .u64, .uint256, .u64, .optionalAddress, .uint256]
        (tx.chainId, tx.nonce, tx.gasPrice, tx.gasLimit, tx.recipient, tx.value, ()),
      fieldTrees enc [.accessList] (tx.accessList, ()), fun data => rfl⟩
  | eip1559 tx =>
    exact ⟨fieldTrees enc [.u64, .u64, .uint256, .uint256, .u64, .optionalAddress, .uint256]
        (tx.chainId, tx.nonce, tx.maxPriorityFeePerGas, tx.maxFeePerGas, tx.gasLimit,
          tx.recipient, tx.value, ()),
      fieldTrees enc [.accessList] (tx.accessList, ()), fun data => rfl⟩
  | eip4844 tx =>
    exact ⟨fieldTrees enc [.u64, .u64, .uint256, .uint256, .u64, .address, .uint256]
        (tx.chainId, tx.nonce, tx.maxPriorityFeePerGas, tx.maxFeePerGas, tx.gasLimit,
          tx.recipient, tx.value, ()),
      fieldTrees enc [.accessList, .uint256, .blobHashes]
        (tx.accessList, tx.maxFeePerBlobGas, tx.blobVersionedHashes, ()), fun data => rfl⟩
  | eip7702 tx =>
    exact ⟨fieldTrees enc [.u64, .u64, .uint256, .uint256, .u64, .address, .uint256]
        (tx.chainId, tx.nonce, tx.maxPriorityFeePerGas, tx.maxFeePerGas, tx.gasLimit,
          tx.recipient, tx.value, ()),
      fieldTrees enc [.accessList, .authorizationList]
        (tx.accessList, tx.authorizationList, ()), fun data => rfl⟩

/-- Calldata longer than the block is not covered at all: the payload is that of the other
fields, whatever the calldata is. -/
theorem signingOutput_withData (tx : Tx) {data other : Bytes}
    (hdata : payloadReserved tx < data.length) (hdata' : data.length ≤ 65000)
    (hother : payloadReserved tx < other.length) (hother' : other.length ≤ 65000) :
    signingOutput arenaAlloc (withData tx data) = signingOutput arenaAlloc (withData tx other) := by
  obtain ⟨before, after, htrees⟩ := signingTrees_withData (arenaEncoders arenaAlloc) tx
  have hlost : ∀ d : Bytes, payloadReserved tx < d.length → d.length ≤ 65000 →
      signingOutput arenaAlloc (withData tx d) = writeTree arenaAlloc (.list (before ++ after))
        (inRoom (payloadReserved tx) (payloadType tx).toList) := by
    intro d hlong hshort
    have hreserved : payloadReserved (withData tx d) = payloadReserved tx := by cases tx <;> rfl
    have htype : payloadType (withData tx d) = payloadType tx := by cases tx <;> rfl
    obtain ⟨hpos, hle⟩ := payloadReserved_range tx
    have hone := typeByte_length_le (payloadType tx)
    have hitem := length_le_encodeString d
    rw [signingOutput_eq, hreserved, htype, htrees, buildOutput_eq hpos (by omega),
      arena_string hshort]
    exact writeTree_lost (by omega) ⟨rfl, by dsimp only; omega⟩ (lt_of_lt_of_le hlong hitem) _ _
  rw [hlost data hdata hdata', hlost other hother hother']

def fillTx (byte : UInt8) : Tx :=
  .legacy ⟨0, uint256Zero, 21000, none, uint256Zero, List.replicate 600 byte, 27, uint256Zero,
    uint256Zero⟩

/-- One signature for two transactions with different calldata. -/
theorem signingOutput_not_injective :
    (signingOutput arenaAlloc (fillTx 0x60)).overrun = false ∧
    (signingOutput arenaAlloc (fillTx 0x60)).data = (signingOutput arenaAlloc (fillTx 0x61)).data ∧
    ¬SignedAlike (fillTx 0x60) (fillTx 0x61) := by
  have hlength : ∀ byte : UInt8, 512 < (List.replicate 600 byte).length ∧
      (List.replicate 600 byte).length ≤ 65000 := by
    intro byte
    rw [List.length_replicate]
    decide
  have hsame : signingOutput arenaAlloc (fillTx 0x60) = signingOutput arenaAlloc (fillTx 0x61) :=
    signingOutput_withData (fillTx 0) (hlength _).1 (hlength _).2 (hlength _).1 (hlength _).2
  refine ⟨by decide +kernel, congrArg Buf.data hsame, ?_⟩
  rintro ⟨-, -, -, -, -, hdata, -⟩
  have hhead := List.replicate_inj.mp hdata
  exact absurd hhead.2 (by decide)

end Div0.TxSigning
