import Div0.JsonValues
import Div0.Transaction

/-!
Transactions in the JSON of the `t8n` tool. The parser reads most fields without looking
at whether the read worked: a malformed field then keeps its default, and a number of 256
bits the digits in front of the bad character.
-/

namespace Div0.TxJson

open BigEndian Buffer Uint256 Transaction JsonValues

section Parsing

variable (alloc : Alloc) (obj : Json)

def readU64 (key : String) : UInt64 := (jsonGetHexU64 obj key).getD 0

def readUint256 (key : String) : Word := (jsonGetHexUint256 obj key uint256Zero).2

def allocArray (count size : ℕ) (detail : String) : Except JsonErr Unit :=
  if count = 0 ∨ alloc (count * size) = true then .ok () else .error ⟨.alloc, detail⟩

def required {α : Type} (value : Option α) (error : JsonError) (detail : String) :
    Except JsonErr α :=
  value.elim (.error ⟨error, detail⟩) .ok

def parseStorageKey (val : Json) : Except JsonErr Word :=
  let key := jsonValHexUint256 val uint256Zero
  if key.1 then .ok key.2 else .error ⟨.invalidHex, "invalid storage key"⟩

def parseStorageKeys : Option Json → Except JsonErr (List Word)
  | some (.arr keys) => do
    allocArray alloc keys.length 32 "failed to allocate storage keys"
    keys.mapM parseStorageKey
  | _ => .ok []

def parseAccessListEntry : Json → Except JsonErr AccessListEntry
  | .obj fields => do
    let address ← required (jsonGetHexAddress (.obj fields) "address") .missingField
      "missing access list entry address"
    let storageKeys ← parseStorageKeys alloc ((Json.obj fields).get "storageKeys")
    pure ⟨address, storageKeys⟩
  | _ => .error ⟨.invalidType, "access list entry must be an object"⟩

def parseAccessList : Option Json → Except JsonErr AccessList
  | some (.arr entries) => do
    allocArray alloc entries.length 40 "failed to allocate access list"
    entries.mapM (parseAccessListEntry alloc)
  | _ => .ok []

def parseYParity : UInt8 :=
  match jsonGetHexU64 obj "yParity" with
  | some y => y.toUInt8
  | none =>
    match jsonGetHexU64 obj "v" with
    | some y => (y &&& 1).toUInt8
    | none => 0

def requiredUint256 (key detail : String) : Except JsonErr Word :=
  let value := jsonGetHexUint256 obj key uint256Zero
  if value.1 then .ok value.2 else .error ⟨.missingField, detail⟩

def parseAuthorization : Json → Except JsonErr Authorization
  | .obj fields => do
    let auth : Json := .obj fields
    let address ← required (jsonGetHexAddress auth "address") .missingField
      "missing authorization address"
    let nonce ← required (jsonGetHexU64 auth "nonce") .missingField "missing authorization nonce"
    let r ← requiredUint256 auth "r" "missing authorization r"
    let s ← requiredUint256 auth "s" "missing authorization s"
    pure ⟨readU64 auth "chainId", address, nonce, parseYParity auth, r, s⟩
  | _ => .error ⟨.invalidType, "authorization must be an object"⟩

def parseAuthorizationList : Option Json → Except JsonErr AuthorizationList
  | some (.arr entries) => do
    allocArray alloc entries.length 112 "failed to allocate authorization list"
    entries.mapM parseAuthorization
  | _ => .ok []

def parseBlobHash (val : Json) : Except JsonErr Hash :=
  required (jsonValHexHash val) .invalidHex "invalid blob hash"

def parseBlobHashes : Option Json → Except JsonErr (List Hash)
  | some (.arr hashes) => do
    allocArray alloc hashes.length 32 "failed to allocate blob hashes"
    hashes.mapM parseBlobHash
  | _ => .ok []

def parseGas : UInt64 := (jsonGetHexU64 obj "gas").getD (readU64 obj "gasLimit")

def parseData : Bytes :=
  let input := (jsonGetHexBytes alloc obj "input").getD []
  if input.length = 0 then (jsonGetHexBytes alloc obj "data").getD input else input

def parseTo : Except JsonErr (Option Address) :=
  match obj.get "to" with
  | none => .ok none
  | some .null => .ok none
  | some val => do
    allocArray alloc 1 20 "failed to allocate to address"
    let addr ← required (jsonValHexAddress val) .invalidHex "invalid to address"
    pure (some addr)

def parseLegacyTx : Except JsonErr LegacyTx := do
  let recipient ← parseTo alloc obj
  pure
    { nonce := readU64 obj "nonce", gasPrice := readUint256 obj "gasPrice"
      gasLimit := parseGas obj, recipient, value := readUint256 obj "value"
      data := parseData alloc obj, v := readU64 obj "v", r := readUint256 obj "r"
      s := readUint256 obj "s" }

def parseEip2930Tx : Except JsonErr Eip2930Tx := do
  let recipient ← parseTo alloc obj
  let accessList ← parseAccessList alloc (obj.get "accessList")
  pure
    { chainId := readU64 obj "chainId", nonce := readU64 obj "nonce"
      gasPrice := readUint256 obj "gasPrice", gasLimit := parseGas obj, recipient
      value := readUint256 obj "value", data := parseData alloc obj, accessList
      yParity := parseYParity obj, r := readUint256 obj "r", s := readUint256 obj "s" }

def parseEip1559Tx : Except JsonErr Eip1559Tx := do
  let recipient ← parseTo alloc obj
  let accessList ← parseAccessList alloc (obj.get "accessList")
  pure
    { chainId := readU64 obj "chainId", nonce := readU64 obj "nonce"
      maxPriorityFeePerGas := readUint256 obj "maxPriorityFeePerGas"
      maxFeePerGas := readUint256 obj "maxFeePerGas", gasLimit := parseGas obj, recipient
      value := readUint256 obj "value", data := parseData alloc obj, accessList
      yParity := parseYParity obj, r := readUint256 obj "r", s := readUint256 obj "s" }

def parseEip4844Tx : Except JsonErr Eip4844Tx := do
  let recipient ← required (jsonGetHexAddress obj "to") .missingField
    "blob transaction requires to address"
  let accessList ← parseAccessList alloc (obj.get "accessList")
  let blobVersionedHashes ← parseBlobHashes alloc (obj.get "blobVersionedHashes")
  pure
    { chainId := readU64 obj "chainId", nonce := readU64 obj "nonce"
      maxPriorityFeePerGas := readUint256 obj "maxPriorityFeePerGas"
      maxFeePerGas := readUint256 obj "maxFeePerGas", gasLimit := parseGas obj, recipient
      value := readUint256 obj "value", data := parseData alloc obj, accessList
      maxFeePerBlobGas := readUint256 obj "maxFeePerBlobGas", blobVersionedHashes
      yParity := parseYParity obj, r := readUint256 obj "r", s := readUint256 obj "s" }

def parseEip7702Tx : Except JsonErr Eip7702Tx := do
  let recipient ← required (jsonGetHexAddress obj "to") .missingField
    "EIP-7702 transaction requires to address"
  let accessList ← parseAccessList alloc (obj.get "accessList")
  let authorizationList ← parseAuthorizationList alloc (obj.get "authorizationList")
  pure
    { chainId := readU64 obj "chainId", nonce := readU64 obj "nonce"
      maxPriorityFeePerGas := readUint256 obj "maxPriorityFeePerGas"
      maxFeePerGas := readUint256 obj "maxFeePerGas", gasLimit := parseGas obj, recipient
      value := readUint256 obj "value", data := parseData alloc obj, accessList
      authorizationList, yParity := parseYParity obj, r := readUint256 obj "r"
      s := readUint256 obj "s" }

def parseTyped : ℕ → Except JsonErr Tx
  | 0 => Tx.legacy <$> parseLegacyTx alloc obj
  | 1 => Tx.eip2930 <$> parseEip2930Tx alloc obj
  | 2 => Tx.eip1559 <$> parseEip1559Tx alloc obj
  | 3 => Tx.eip4844 <$> parseEip4844Tx alloc obj
  | 4 => Tx.eip7702 <$> parseEip7702Tx alloc obj
  | _ => .error ⟨.invalidType, "unsupported transaction type"⟩

def t8nParseTx : Json → Except JsonErr Tx
  | .obj fields => parseTyped alloc (.obj fields) (readU64 (.obj fields) "type").toNat
  | _ => .error ⟨.invalidType, "transaction must be an object"⟩

end Parsing

section Writing

def writeAccessListEntry (entry : AccessListEntry) : Json :=
  .obj [("address", jsonWriteHexAddress entry.address),
    ("storageKeys", .arr (entry.storageKeys.map jsonWriteHexUint256Padded))]

def writeAccessList (list : AccessList) : Json := .arr (list.map writeAccessListEntry)

def writeBlobHashes (hashes : List Hash) : Json := .arr (hashes.map jsonWriteHexHash)

def writeAuthorization (auth : Authorization) : Json :=
  .obj [("chainId", jsonWriteHexU64 auth.chainId), ("address", jsonWriteHexAddress auth.address),
    ("nonce", jsonWriteHexU64 auth.nonce), ("yParity", jsonWriteHexU64 auth.yParity.toUInt64),
    ("r", jsonWriteHexUint256 auth.r), ("s", jsonWriteHexUint256 auth.s)]

def writeAuthorizationList (list : AuthorizationList) : Json := .arr (list.map writeAuthorization)

def writeTo (recipient : Option Address) : Json := recipient.elim .null jsonWriteHexAddress

def t8nWriteTx : Tx → Json
  | .legacy tx =>
    .obj [("type", jsonWriteHexU64 0), ("nonce", jsonWriteHexU64 tx.nonce),
      ("gasPrice", jsonWriteHexUint256 tx.gasPrice), ("gas", jsonWriteHexU64 tx.gasLimit),
      ("to", writeTo tx.recipient), ("value", jsonWriteHexUint256 tx.value),
      ("input", jsonWriteHexBytes tx.data), ("v", jsonWriteHexU64 tx.v),
      ("r", jsonWriteHexUint256 tx.r), ("s", jsonWriteHexUint256 tx.s)]
  | .eip2930 tx =>
    .obj [("type", jsonWriteHexU64 1), ("chainId", jsonWriteHexU64 tx.chainId),
      ("nonce", jsonWriteHexU64 tx.nonce), ("gasPrice", jsonWriteHexUint256 tx.gasPrice),
      ("gas", jsonWriteHexU64 tx.gasLimit), ("to", writeTo tx.recipient),
      ("value", jsonWriteHexUint256 tx.value), ("input", jsonWriteHexBytes tx.data),
      ("accessList", writeAccessList tx.accessList),
      ("yParity", jsonWriteHexU64 tx.yParity.toUInt64), ("r", jsonWriteHexUint256 tx.r),
      ("s", jsonWriteHexUint256 tx.s)]
  | .eip1559 tx =>
    .obj [("type", jsonWriteHexU64 2), ("chainId", jsonWriteHexU64 tx.chainId),
      ("nonce", jsonWriteHexU64 tx.nonce),
      ("maxPriorityFeePerGas", jsonWriteHexUint256 tx.maxPriorityFeePerGas),
      ("maxFeePerGas", jsonWriteHexUint256 tx.maxFeePerGas),
      ("gas", jsonWriteHexU64 tx.gasLimit), ("to", writeTo tx.recipient),
      ("value", jsonWriteHexUint256 tx.value), ("input", jsonWriteHexBytes tx.data),
      ("accessList", writeAccessList tx.accessList),
      ("yParity", jsonWriteHexU64 tx.yParity.toUInt64), ("r", jsonWriteHexUint256 tx.r),
      ("s", jsonWriteHexUint256 tx.s)]
  | .eip4844 tx =>
    .obj [("type", jsonWriteHexU64 3), ("chainId", jsonWriteHexU64 tx.chainId),
      ("nonce", jsonWriteHexU64 tx.nonce),
      ("maxPriorityFeePerGas", jsonWriteHexUint256 tx.maxPriorityFeePerGas),
      ("maxFeePerGas", jsonWriteHexUint256 tx.maxFeePerGas),
      ("gas", jsonWriteHexU64 tx.gasLimit), ("to", jsonWriteHexAddress tx.recipient),
      ("value", jsonWriteHexUint256 tx.value), ("input", jsonWriteHexBytes tx.data),
      ("maxFeePerBlobGas", jsonWriteHexUint256 tx.maxFeePerBlobGas),
      ("blobVersionedHashes", writeBlobHashes tx.blobVersionedHashes),
      ("accessList", writeAccessList tx.accessList),
      ("yParity", jsonWriteHexU64 tx.yParity.toUInt64), ("r", jsonWriteHexUint256 tx.r),
      ("s", jsonWriteHexUint256 tx.s)]
  | .eip7702 tx =>
    .obj [("type", jsonWriteHexU64 4), ("chainId", jsonWriteHexU64 tx.chainId),
      ("nonce", jsonWriteHexU64 tx.nonce),
      ("maxPriorityFeePerGas", jsonWriteHexUint256 tx.maxPriorityFeePerGas),
      ("maxFeePerGas", jsonWriteHexUint256 tx.maxFeePerGas),
      ("gas", jsonWriteHexU64 tx.gasLimit), ("to", jsonWriteHexAddress tx.recipient),
      ("value", jsonWriteHexUint256 tx.value), ("input", jsonWriteHexBytes tx.data),
      ("accessList", writeAccessList tx.accessList),
      ("authorizationList", writeAuthorizationList tx.authorizationList),
      ("yParity", jsonWriteHexU64 tx.yParity.toUInt64), ("r", jsonWriteHexUint256 tx.r),
      ("s", jsonWriteHexUint256 tx.s)]

end Writing

end Div0.TxJson
