import Div0.Containers
import Div0.RlpBuilder
import Div0.RlpDecode
import Div0.Transaction

/-!
The fields of a transaction on the wire. Every transaction type is a list of fields of
a few kinds; a kind says how a field is encoded and how it is decoded. A field is
encoded as a tree of items, written into the output by the list builder. Decoding runs
over the input with loops that stop at a position computed from a list header; a loop
that has not stopped after `fuel` rounds ends in `outOfFuel`. The items of access lists and
authorization lists are pushed into vectors of the arena; a push that is refused is not
reported, and the item is lost.
-/

namespace Div0.TxFields

open BigEndian Buffer Containers RlpFormat RlpTree RlpEncode RlpDecode Uint256 Transaction

/-- The encoders of single items. -/
structure Encoders where
  u64 : UInt64 → Bytes
  uint256 : Word → Bytes
  address : Address → Bytes
  string : Bytes → Bytes

def arenaEncoders (alloc : Alloc) : Encoders where
  u64 value := (rlpEncodeU64 alloc value).data
  uint256 value := (rlpEncodeUint256 alloc value).data
  address addr := (rlpEncodeAddress alloc addr).data
  string data := (rlpEncodeBytes alloc data).data

def formatEncoders : Encoders where
  u64 value := encodeNat value.toNat
  uint256 value := encodeNat value.toNat
  address addr := encodeString addr.bytes
  string data := encodeString data

section Encoding

variable (enc : Encoders)

def txEncodeOptionalAddress : Option Address → Tree
  | none => .leaf (enc.string [])
  | some addr => .leaf (enc.address addr)

def accessEntryTree (entry : AccessListEntry) : Tree :=
  .list [.leaf (enc.address entry.address),
    .list (entry.storageKeys.map fun key => .leaf (enc.uint256 key))]

def txEncodeAccessList (list : AccessList) : Tree := .list (list.map (accessEntryTree enc))

def authorizationTree (auth : Authorization) : Tree :=
  .list [.leaf (enc.u64 auth.chainId), .leaf (enc.address auth.address),
    .leaf (enc.u64 auth.nonce), .leaf (enc.u64 auth.yParity.toUInt64),
    .leaf (enc.uint256 auth.r), .leaf (enc.uint256 auth.s)]

def txEncodeAuthorizationList (list : AuthorizationList) : Tree :=
  .list (list.map (authorizationTree enc))

def blobHashesTree (hashes : List Hash) : Tree :=
  .list (hashes.map fun hash => .leaf (enc.string hash.bytes))

end Encoding

/-- `tx_decode_error_t` without `TX_DECODE_OK`. -/
inductive TxDecodeError where
  | emptyInput
  | invalidType
  | invalidRlp
  | invalidSignature
  | missingField
  | invalidField
  | allocFailed
  deriving DecidableEq, Repr

/-- Why decoding gives no transaction: an error, or a loop that has not stopped yet. -/
inductive Failure where
  | rejected (error : TxDecodeError)
  | outOfFuel
  deriving DecidableEq, Repr

def Decode (α : Type) := Decoder → Except Failure α × Decoder

namespace Decode

instance : Monad Decode where
  pure a := fun d => (.ok a, d)
  bind x f := fun d =>
    match x d with
    | (.ok a, d1) => f a d1
    | (.error e, d1) => (.error e, d1)

def fail {α : Type} (e : Failure) : Decode α := fun d => (.error e, d)

def decoder : Decode Decoder := fun d => (.ok d, d)

def ofRlp {α : Type} (f : Decoder → Result α) : Decode α := fun d =>
  match f d with
  | (.ok r, d1) => (.ok r.value, d1)
  | (.error _, d1) => (.error (.rejected .invalidRlp), d1)

/-- `DECODE_LIST_HEADER`: the header with the bytes it takes. -/
def decodeListHeader : Decode (Decoded ℕ) := fun d =>
  match rlpDecodeListHeader d with
  | (.ok r, d1) => (.ok r, d1)
  | (.error _, d1) => (.error (.rejected .invalidRlp), d1)

def whileBelow {α : Type} (item : Decode α) : ℕ → ℕ → Decode (List α)
  | 0, _ => fail .outOfFuel
  | fuel + 1, bound => do
    let d ← decoder
    if d.pos < bound then
      let first ← item
      let rest ← whileBelow item fuel bound
      return first :: rest
    else return []

/-- `for (i = 0; i < count; i++)` with one item stored in each round. -/
def times {α : Type} (item : Decode α) : ℕ → Decode (List α)
  | 0 => return []
  | count + 1 => do
    let first ← item
    let rest ← times item count
    return first :: rest

/-- A list header and the items up to the position it announces; the sum wraps around. -/
def listOf {α : Type} (room : ℕ → Bool) (item : Decode α) (fuel : ℕ) : Decode (List α) := do
  let header ← decodeListHeader
  if header.value = 0 then return []
  else
    let d ← decoder
    let items ← whileBelow item fuel ((d.pos + header.value) % 2 ^ 64)
    return pushAll room items

end Decode

open Decode

section Decoding

variable (vectors : Growth) (alloc : Alloc) (fuel : ℕ)

-- the bytes of an element of `vec_u256`, `vec_access_entry` and `vec_auth`

def keySize : ℕ := 32

def accessEntrySize : ℕ := 40

def authorizationSize : ℕ := 112

def decodeU64 : Decode UInt64 := ofRlp rlpDecodeU64

def decodeUint256 : Decode Word := ofRlp rlpDecodeUint256

/-- `DECODE_YPARITY`: the 64-bit number is cut to eight bits. -/
def decodeYParity : Decode UInt8 := do return (← decodeU64).toUInt8

def decodeOptionalAddress : Decode (Option Address) := do
  let bytes ← ofRlp rlpDecodeBytes
  if bytes.length = 0 then return none
  else if h : bytes.length = 20 then
    if alloc 20 then return some ⟨bytes, h⟩ else fail (.rejected .allocFailed)
  else fail (.rejected .invalidField)

def decodeRequiredAddress : Decode Address := ofRlp rlpDecodeAddress

def decodeTxData : Decode Bytes := do
  let bytes ← ofRlp rlpDecodeBytes
  if 0 < bytes.length then
    if (Buf.init.reserve alloc bytes.length).isSome then return bytes
    else fail (.rejected .allocFailed)
  else return []

/-- One round of `decode_access_list`: the length of the entry is not looked at. -/
def decodeAccessEntry : Decode AccessListEntry := do
  let _ ← decodeListHeader
  let address ← ofRlp rlpDecodeAddress
  let storageKeys ← listOf (vectors keySize) (ofRlp rlpDecodeUint256) fuel
  return ⟨address, storageKeys⟩

def decodeAccessList : Decode AccessList :=
  listOf (vectors accessEntrySize) (decodeAccessEntry vectors fuel) fuel

/-- One round of `decode_authorization_list`: the length of the entry is not looked at. -/
def decodeAuthorization : Decode Authorization := do
  let _ ← decodeListHeader
  let chainId ← decodeU64
  let address ← ofRlp rlpDecodeAddress
  let nonce ← decodeU64
  let yParity ← decodeYParity
  let r ← decodeUint256
  let s ← decodeUint256
  return ⟨chainId, address, nonce, yParity, r, s⟩

def decodeAuthorizationList : Decode AuthorizationList :=
  listOf (vectors authorizationSize) decodeAuthorization fuel

def countItems : ℕ → ℕ → Decoder → Option ℕ
  | 0, _, _ => none
  | fuel + 1, bound, d =>
    if d.pos < bound then (countItems fuel bound (rlpSkipItem d)).map (· + 1) else some 0

def allocBlobHashes (count : ℕ) : Bool := count = 0 || alloc (count * 32)

def decodeBlobHash : Decode Hash := fun d =>
  match rlpDecodeBytes d with
  | (.ok bytes, d1) =>
    if h : bytes.value.length = 32 then (.ok ⟨bytes.value, h⟩, d1)
    else (.error (.rejected .invalidField), d1)
  | (.error _, d1) => (.error (.rejected .invalidField), d1)

/-- `decode_blob_hashes`: the position is put back after counting. -/
def decodeBlobHashes : Decode (List Hash) := do
  let header ← decodeListHeader
  if header.value = 0 then return []
  else
    let d ← decoder
    match countItems fuel ((d.pos + header.value) % 2 ^ 64) d with
    | none => fail .outOfFuel
    | some count =>
      if allocBlobHashes alloc count then times decodeBlobHash count
      else fail (.rejected .allocFailed)

end Decoding

/-- The kinds of fields. -/
inductive Kind where
  | u64
  | uint256
  | yParity
  | optionalAddress
  | address
  | data
  | accessList
  | authorizationList
  | blobHashes
  deriving DecidableEq

abbrev Kind.Value : Kind → Type
  | .u64 => UInt64
  | .uint256 => Word
  | .yParity => UInt8
  | .optionalAddress => Option Address
  | .address => Address
  | .data => Bytes
  | .accessList => AccessList
  | .authorizationList => AuthorizationList
  | .blobHashes => List Hash

abbrev Values : List Kind → Type
  | [] => Unit
  | kind :: kinds => kind.Value × Values kinds

def fieldTree (enc : Encoders) : (kind : Kind) → kind.Value → Tree
  | .u64, value => .leaf (enc.u64 value)
  | .uint256, value => .leaf (enc.uint256 value)
  | .yParity, value => .leaf (enc.u64 value.toUInt64)
  | .optionalAddress, value => txEncodeOptionalAddress enc value
  | .address, value => .leaf (enc.address value)
  | .data, value => .leaf (enc.string value)
  | .accessList, value => txEncodeAccessList enc value
  | .authorizationList, value => txEncodeAuthorizationList enc value
  | .blobHashes, value => blobHashesTree enc value

def fieldTrees (enc : Encoders) : (kinds : List Kind) → Values kinds → List Tree
  | [], _ => []
  | kind :: kinds, (value, values) => fieldTree enc kind value :: fieldTrees enc kinds values

def decodeField (vectors : Growth) (alloc : Alloc) (fuel : ℕ) : (kind : Kind) → Decode kind.Value
  | .u64 => decodeU64
  | .uint256 => decodeUint256
  | .yParity => decodeYParity
  | .optionalAddress => decodeOptionalAddress alloc
  | .address => decodeRequiredAddress
  | .data => decodeTxData alloc
  | .accessList => decodeAccessList vectors fuel
  | .authorizationList => decodeAuthorizationList vectors fuel
  | .blobHashes => decodeBlobHashes alloc fuel

def decodeFields (vectors : Growth) (alloc : Alloc) (fuel : ℕ) :
    (kinds : List Kind) → Decode (Values kinds)
  | [] => return ()
  | kind :: kinds => do
    let value ← decodeField vectors alloc fuel kind
    let values ← decodeFields vectors alloc fuel kinds
    return (value, values)

end Div0.TxFields
