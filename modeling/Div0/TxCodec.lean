import Div0.TxFields

/-!
Encoding, signing payload and decoding of the five transaction types. An encoder
reserves a fixed number of bytes, writes the type byte of a typed transaction and
builds one list; a decoder reads the list header and the fields in the same order and
reports the length the header announces.
-/

namespace Div0.TxCodec

open BigEndian Buffer Containers RlpFormat RlpTree RlpBuilder RlpDecode Uint256 Transaction
open TxFields

/-- The fields of a transaction type in the order in which they are written and read. -/
structure TxFormat (T : Type) where
  kinds : List Kind
  toValues : T → Values kinds
  ofValues : Values kinds → T
  ofValues_toValues : ∀ tx, ofValues (toValues tx) = tx
  toValues_ofValues : ∀ values, toValues (ofValues values) = values

def legacyFormat : TxFormat LegacyTx where
  kinds := [.u64, .uint256, .u64, .optionalAddress, .uint256, .data, .u64, .uint256, .uint256]
  toValues tx := (tx.nonce, tx.gasPrice, tx.gasLimit, tx.recipient, tx.value, tx.data, tx.v, tx.r,
    tx.s, ())
  ofValues := fun (nonce, gasPrice, gasLimit, recipient, value, data, v, r, s, ()) =>
    ⟨nonce, gasPrice, gasLimit, recipient, value, data, v, r, s⟩
  ofValues_toValues _ := rfl
  toValues_ofValues _ := rfl

def eip2930Format : TxFormat Eip2930Tx where
  kinds := [.u64, .u64, .uint256, .u64, .optionalAddress, .uint256, .data, .accessList, .yParity,
    .uint256, .uint256]
  toValues tx := (tx.chainId, tx.nonce, tx.gasPrice, tx.gasLimit, tx.recipient, tx.value, tx.data,
    tx.accessList, tx.yParity, tx.r, tx.s, ())
  ofValues := fun (chainId, nonce, gasPrice, gasLimit, recipient, value, data, accessList, yParity,
      r, s, ()) =>
    ⟨chainId, nonce, gasPrice, gasLimit, recipient, value, data, accessList, yParity, r, s⟩
  ofValues_toValues _ := rfl
  toValues_ofValues _ := rfl

def eip1559Format : TxFormat Eip1559Tx where
  kinds := [.u64, .u64, .uint256, .uint256, .u64, .optionalAddress, .uint256, .data, .accessList,
    .yParity, .uint256, .uint256]
  toValues tx := (tx.chainId, tx.nonce, tx.maxPriorityFeePerGas, tx.maxFeePerGas, tx.gasLimit,
    tx.recipient, tx.value, tx.data, tx.accessList, tx.yParity, tx.r, tx.s, ())
  ofValues := fun (chainId, nonce, maxPriorityFeePerGas, maxFeePerGas, gasLimit, recipient, value,
      data, accessList, yParity, r, s, ()) =>
    ⟨chainId, nonce, maxPriorityFeePerGas, maxFeePerGas, gasLimit, recipient, value, data,
      accessList, yParity, r, s⟩
  ofValues_toValues _ := rfl
  toValues_ofValues _ := rfl

def eip4844Format : TxFormat Eip4844Tx where
  kinds := [.u64, .u64, .uint256, .uint256, .u64, .address, .uint256, .data, .accessList, .uint256,
    .blobHashes, .yParity, .uint256, .uint256]
  toValues tx := (tx.chainId, tx.nonce, tx.maxPriorityFeePerGas, tx.maxFeePerGas, tx.gasLimit,
    tx.recipient, tx.value, tx.data, tx.accessList, tx.maxFeePerBlobGas, tx.blobVersionedHashes,
    tx.yParity, tx.r, tx.s, ())
  ofValues := fun (chainId, nonce, maxPriorityFeePerGas, maxFeePerGas, gasLimit, recipient, value,
      data, accessList, maxFeePerBlobGas, blobVersionedHashes, yParity, r, s, ()) =>
    ⟨chainId, nonce, maxPriorityFeePerGas, maxFeePerGas, gasLimit, recipient, value, data,
      accessList, maxFeePerBlobGas, blobVersionedHashes, yParity, r, s⟩
  ofValues_toValues _ := rfl
  toValues_ofValues _ := rfl

def eip7702Format : TxFormat Eip7702Tx where
  kinds := [.u64, .u64, .uint256, .uint256, .u64, .address, .uint256, .data, .accessList,
    .authorizationList, .yParity, .uint256, .uint256]
  toValues tx := (tx.chainId, tx.nonce, tx.maxPriorityFeePerGas, tx.maxFeePerGas, tx.gasLimit,
    tx.recipient, tx.value, tx.data, tx.accessList, tx.authorizationList, tx.yParity, tx.r, tx.s,
    ())
  ofValues := fun (chainId, nonce, maxPriorityFeePerGas, maxFeePerGas, gasLimit, recipient, value,
      data, accessList, authorizationList, yParity, r, s, ()) =>
    ⟨chainId, nonce, maxPriorityFeePerGas, maxFeePerGas, gasLimit, recipient, value, data,
      accessList, authorizationList, yParity, r, s⟩
  ofValues_toValues _ := rfl
  toValues_ofValues _ := rfl

def TxFormat.trees {T : Type} (format : TxFormat T) (enc : Encoders) (tx : T) : List Tree :=
  fieldTrees enc format.kinds (format.toValues tx)

def buildOutput (alloc : Alloc) (reserved : ℕ) (typeByte : Option UInt8) (fields : List Tree) :
    Buf :=
  let output := Buf.init.reserve! alloc reserved
  let output := match typeByte with
    | none => output
    | some b => output.append! alloc [b]
  writeTree alloc (.list fields) output

section Encode

variable (alloc : Alloc)

def legacyTxEncode (tx : LegacyTx) : Buf :=
  buildOutput alloc 256 none (legacyFormat.trees (arenaEncoders alloc) tx)

def eip2930TxEncode (tx : Eip2930Tx) : Buf :=
  buildOutput alloc 512 (some 0x01) (eip2930Format.trees (arenaEncoders alloc) tx)

def eip1559TxEncode (tx : Eip1559Tx) : Buf :=
  buildOutput alloc 512 (some 0x02) (eip1559Format.trees (arenaEncoders alloc) tx)

def eip4844TxEncode (tx : Eip4844Tx) : Buf :=
  buildOutput alloc 1024 (some 0x03) (eip4844Format.trees (arenaEncoders alloc) tx)

def eip7702TxEncode (tx : Eip7702Tx) : Buf :=
  buildOutput alloc 1024 (some 0x04) (eip7702Format.trees (arenaEncoders alloc) tx)

def transactionEncode : Tx → Buf
  | .legacy tx => legacyTxEncode alloc tx
  | .eip2930 tx => eip2930TxEncode alloc tx
  | .eip1559 tx => eip1559TxEncode alloc tx
  | .eip4844 tx => eip4844TxEncode alloc tx
  | .eip7702 tx => eip7702TxEncode alloc tx

end Encode

/-- What follows the fields of a legacy transaction: with a chain id, the id and two zeros. -/
def chainIdTrees (enc : Encoders) : Option UInt64 → List Tree
  | some chainId => fieldTrees enc [.u64, .uint256, .uint256]
      (chainId, uint256Zero, uint256Zero, ())
  | none => []

def legacySigningTrees (enc : Encoders) (tx : LegacyTx) : List Tree :=
  fieldTrees enc [.u64, .uint256, .u64, .optionalAddress, .uint256, .data]
    (tx.nonce, tx.gasPrice, tx.gasLimit, tx.recipient, tx.value, tx.data, ()) ++
  chainIdTrees enc (legacyTxChainId tx)

def eip2930SigningTrees (enc : Encoders) (tx : Eip2930Tx) : List Tree :=
  fieldTrees enc [.u64, .u64, .uint256, .u64, .optionalAddress, .uint256, .data, .accessList]
    (tx.chainId, tx.nonce, tx.gasPrice, tx.gasLimit, tx.recipient, tx.value, tx.data,
      tx.accessList, ())

def eip1559SigningTrees (enc : Encoders) (tx : Eip1559Tx) : List Tree :=
  fieldTrees enc [.u64, .u64, .uint256, .uint256, .u64, .optionalAddress, .uint256, .data,
      .accessList]
    (tx.chainId, tx.nonce, tx.maxPriorityFeePerGas, tx.maxFeePerGas, tx.gasLimit, tx.recipient,
      tx.value, tx.data, tx.accessList, ())

def eip4844SigningTrees (enc : Encoders) (tx : Eip4844Tx) : List Tree :=
  fieldTrees enc [.u64, .u64, .uint256, .uint256, .u64, .address, .uint256, .data, .accessList,
      .uint256, .blobHashes]
    (tx.chainId, tx.nonce, tx.maxPriorityFeePerGas, tx.maxFeePerGas, tx.gasLimit, tx.recipient,
      tx.value, tx.data, tx.accessList, tx.maxFeePerBlobGas, tx.blobVersionedHashes, ())

def eip7702SigningTrees (enc : Encoders) (tx : Eip7702Tx) : List Tree :=
  fieldTrees enc [.u64, .u64, .uint256, .uint256, .u64, .address, .uint256, .data, .accessList,
      .authorizationList]
    (tx.chainId, tx.nonce, tx.maxPriorityFeePerGas, tx.maxFeePerGas, tx.gasLimit, tx.recipient,
      tx.value, tx.data, tx.accessList, tx.authorizationList, ())

def signingOutput (alloc : Alloc) : Tx → Buf
  | .legacy tx => buildOutput alloc 512 none (legacySigningTrees (arenaEncoders alloc) tx)
  | .eip2930 tx =>
    buildOutput alloc 512 (some 0x01) (eip2930SigningTrees (arenaEncoders alloc) tx)
  | .eip1559 tx =>
    buildOutput alloc 512 (some 0x02) (eip1559SigningTrees (arenaEncoders alloc) tx)
  | .eip4844 tx =>
    buildOutput alloc 1024 (some 0x03) (eip4844SigningTrees (arenaEncoders alloc) tx)
  | .eip7702 tx =>
    buildOutput alloc 1024 (some 0x04) (eip7702SigningTrees (arenaEncoders alloc) tx)

def transactionSigningHash (alloc : Alloc) (keccak256 : Bytes → Hash) (tx : Tx) : Hash :=
  keccak256 (signingOutput alloc tx).data

def transactionHash (alloc : Alloc) (keccak256 : Bytes → Hash) (tx : Tx) : Hash :=
  keccak256 (transactionEncode alloc tx).data

def decodeBody {T : Type} (format : TxFormat T) (vectors : Growth) (alloc : Alloc)
    (fuel : ℕ) : Decode (T × ℕ) := do
  let header ← Decode.decodeListHeader
  let values ← decodeFields vectors alloc fuel format.kinds
  return (format.ofValues values, (header.bytesConsumed + header.value) % 2 ^ 64)

def decodeTx {T : Type} (format : TxFormat T) (vectors : Growth) (alloc : Alloc) (fuel : ℕ)
    (data : Bytes) : Except Failure (T × ℕ) :=
  if data.length = 0 then .error (.rejected .emptyInput)
  else (decodeBody format vectors alloc fuel ⟨data, 0⟩).1

section Decode

variable (vectors : Growth) (alloc : Alloc) (fuel : ℕ)

def legacyTxDecode : Bytes → Except Failure (LegacyTx × ℕ) :=
  decodeTx legacyFormat vectors alloc fuel

def eip2930TxDecode : Bytes → Except Failure (Eip2930Tx × ℕ) :=
  decodeTx eip2930Format vectors alloc fuel

def eip1559TxDecode : Bytes → Except Failure (Eip1559Tx × ℕ) :=
  decodeTx eip1559Format vectors alloc fuel

def eip4844TxDecode : Bytes → Except Failure (Eip4844Tx × ℕ) :=
  decodeTx eip4844Format vectors alloc fuel

def eip7702TxDecode : Bytes → Except Failure (Eip7702Tx × ℕ) :=
  decodeTx eip7702Format vectors alloc fuel

def typedResult {T : Type} (wrap : T → Tx) (result : Except Failure (T × ℕ)) :
    Except Failure (Tx × ℕ) :=
  result.map fun (tx, consumed) => (wrap tx, (consumed + 1) % 2 ^ 64)

def transactionDecode (data : Bytes) : Except Failure (Tx × ℕ) :=
  match data with
  | [] => .error (.rejected .emptyInput)
  | first :: rest =>
    if 0xc0 ≤ first.toNat then
      (legacyTxDecode vectors alloc fuel data).map fun (tx, consumed) => (.legacy tx, consumed)
    else if first.toNat = 0x01 then typedResult .eip2930 (eip2930TxDecode vectors alloc fuel rest)
    else if first.toNat = 0x02 then typedResult .eip1559 (eip1559TxDecode vectors alloc fuel rest)
    else if first.toNat = 0x03 then typedResult .eip4844 (eip4844TxDecode vectors alloc fuel rest)
    else if first.toNat = 0x04 then typedResult .eip7702 (eip7702TxDecode vectors alloc fuel rest)
    else .error (.rejected .invalidType)

/-- The first byte decides what is decoded. -/
theorem first_cases (first : UInt8) :
    0xc0 ≤ first.toNat ∨ first = 0x01 ∨ first = 0x02 ∨ first = 0x03 ∨ first = 0x04 ∨
      ∀ rest, transactionDecode vectors alloc fuel (first :: rest) =
        .error (.rejected .invalidType) := by
  by_contra hno
  simp only [not_or] at hno
  obtain ⟨hlist, h1, h2, h3, h4, hother⟩ := hno
  have hbyte : ∀ {b : UInt8}, first ≠ b → ¬first.toNat = b.toNat := fun h => mt UInt8.toNat_inj.mp h
  refine hother fun rest => (if_neg hlist).trans ?_
  exact (if_neg (hbyte h1)).trans ((if_neg (hbyte h2)).trans ((if_neg (hbyte h3)).trans
    (if_neg (hbyte h4))))

end Decode

end Div0.TxCodec
