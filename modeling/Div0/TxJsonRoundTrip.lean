import Div0.TxJson

/-!
What `t8n_write_tx` writes, `t8n_parse_tx` reads back. Each kind of field is read back from
a value that the writer made; the five transaction types then only have to find each of
their fields under its name.
-/

namespace Div0.TxJsonRoundTrip

open BigEndian Buffer Uint256 Transaction JsonValues TxJson

/-- The sizes that are not zero are granted. -/
def Grants (alloc : Alloc) (sizes : List ℕ) : Prop := ∀ n ∈ sizes, n ≠ 0 → alloc n = true

def recipientSizes (recipient : Option Address) : List ℕ := recipient.elim [] fun _ => [20]

def accessListSizes (list : AccessList) : List ℕ :=
  list.length * 40 :: list.map fun entry => entry.storageKeys.length * 32

def allocatedSizes : Tx → List ℕ
  | .legacy tx => tx.data.length :: recipientSizes tx.recipient
  | .eip2930 tx => tx.data.length :: (recipientSizes tx.recipient ++ accessListSizes tx.accessList)
  | .eip1559 tx => tx.data.length :: (recipientSizes tx.recipient ++ accessListSizes tx.accessList)
  | .eip4844 tx =>
    tx.data.length :: tx.blobVersionedHashes.length * 32 :: accessListSizes tx.accessList
  | .eip7702 tx =>
    tx.data.length :: tx.authorizationList.length * 112 :: accessListSizes tx.accessList

section Fields

variable {alloc : Alloc} {obj : Json} {key : String}

theorem readU64_of_get {v : UInt64} (h : obj.get key = some (jsonWriteHexU64 v)) :
    readU64 obj key = v := by
  rw [readU64, jsonGetHexU64, h, Option.bind_some, jsonValHexU64_write, Option.getD_some]

theorem jsonGetHexUint256_of_get {v out : Word} (h : obj.get key = some (jsonWriteHexUint256 v)) :
    jsonGetHexUint256 obj key out = (true, v) := by
  rw [jsonGetHexUint256, h]
  exact jsonValHexUint256_write v out

theorem readUint256_of_get {v : Word} (h : obj.get key = some (jsonWriteHexUint256 v)) :
    readUint256 obj key = v := by
  rw [readUint256, jsonGetHexUint256_of_get h]

theorem parseGas_of_get {v : UInt64} (h : obj.get "gas" = some (jsonWriteHexU64 v)) :
    parseGas obj = v := by
  rw [parseGas, jsonGetHexU64, h, Option.bind_some, jsonValHexU64_write, Option.getD_some]

theorem parseData_of_get {data : Bytes} (halloc : data.length ≠ 0 → alloc data.length = true)
    (h : obj.get "input" = some (jsonWriteHexBytes data)) (hdata : obj.get "data" = none) :
    parseData alloc obj = data := by
  rw [parseData, jsonGetHexBytes, h, Option.bind_some, jsonValHexBytes_write halloc,
    jsonGetHexBytes, hdata]
  exact ite_self data

theorem parseTo_of_get {recipient : Option Address} (halloc : Grants alloc (recipientSizes recipient))
    (h : obj.get "to" = some (writeTo recipient)) : parseTo alloc obj = .ok recipient := by
  rw [parseTo, h]
  cases recipient with
  | none => rfl
  | some addr =>
    have hgrant : alloc (1 * 20) = true := halloc 20 List.mem_cons_self (by decide)
    simp only [writeTo, Option.elim_some, jsonWriteHexAddress, allocArray, hgrant, or_true, if_true]
    rw [← jsonWriteHexAddress, jsonValHexAddress_write]
    rfl

theorem required_address_of_get {addr : Address} {error : JsonError} {detail : String}
    (h : obj.get key = some (jsonWriteHexAddress addr)) :
    required (jsonGetHexAddress obj key) error detail = .ok addr := by
  rw [jsonGetHexAddress, h, Option.bind_some, jsonValHexAddress_write]
  rfl

theorem parseYParity_of_get {y : UInt8} (h : obj.get "yParity" = some (jsonWriteHexU64 y.toUInt64)) :
    parseYParity obj = y := by
  rw [parseYParity, jsonGetHexU64, h, Option.bind_some, jsonValHexU64_write]
  exact UInt8.toUInt8_toUInt64 y

theorem allocArray_ok {count size : ℕ} {detail : String} (hsize : size ≠ 0)
    (h : count * size ≠ 0 → alloc (count * size) = true) :
    allocArray alloc count size detail = .ok () := by
  rw [allocArray, if_pos]
  by_cases hzero : count = 0
  · exact Or.inl hzero
  · exact Or.inr (h (Nat.mul_ne_zero hzero hsize))

end Fields

section Lists

variable {alloc : Alloc}

/-- Reading back each element of a list reads back the list. -/
theorem mapM_write {α : Type} {write : α → Json} {read : Json → Except JsonErr α} {list : List α}
    (h : ∀ a ∈ list, read (write a) = .ok a) : (list.map write).mapM read = .ok list :=
  mapM_eq_ok.mpr (List.forall₂_map_left_iff.mpr (List.forall₂_same.mpr h))

theorem parseAccessListEntry_write {entry : AccessListEntry}
    (h : entry.storageKeys.length * 32 ≠ 0 → alloc (entry.storageKeys.length * 32) = true) :
    parseAccessListEntry alloc (writeAccessListEntry entry) = .ok entry := by
  have hkeys : (entry.storageKeys.map jsonWriteHexUint256Padded).mapM parseStorageKey =
      .ok entry.storageKeys := by
    refine mapM_write fun key _ => ?_
    rw [parseStorageKey, jsonValHexUint256_writePadded]
    rfl
  rw [writeAccessListEntry, parseAccessListEntry, required_address_of_get rfl]
  refine bind_eq_ok.mpr ⟨entry.address, rfl, bind_eq_ok.mpr ⟨entry.storageKeys, ?_, rfl⟩⟩
  refine bind_eq_ok.mpr ⟨(), allocArray_ok (by decide) ?_, hkeys⟩
  rwa [List.length_map]

theorem parseAccessList_write {list : AccessList} (h : Grants alloc (accessListSizes list)) :
    parseAccessList alloc (some (writeAccessList list)) = .ok list := by
  refine bind_eq_ok.mpr ⟨(), allocArray_ok (by decide) ?_, mapM_write fun entry hentry => ?_⟩
  · rw [List.length_map]
    exact h _ List.mem_cons_self
  · refine parseAccessListEntry_write (h _ (List.mem_cons_of_mem _ ?_))
    exact List.mem_map_of_mem hentry

theorem parseAuthorization_write (auth : Authorization) :
    parseAuthorization (writeAuthorization auth) = .ok auth := by
  have hr : ∀ {obj : Json} {key detail : String} {v : Word},
      obj.get key = some (jsonWriteHexUint256 v) → requiredUint256 obj key detail = .ok v := by
    intro obj key detail v h
    rw [requiredUint256, jsonGetHexUint256_of_get h]
    rfl
  have hget : (writeAuthorization auth).get "nonce" = some (jsonWriteHexU64 auth.nonce) := rfl
  have hnonce : required (jsonGetHexU64 (writeAuthorization auth) "nonce") .missingField
      "missing authorization nonce" = .ok auth.nonce := by
    rw [jsonGetHexU64, hget, Option.bind_some, jsonValHexU64_write]
    rfl
  refine bind_eq_ok.mpr ⟨_, required_address_of_get rfl, bind_eq_ok.mpr ⟨_, hnonce,
    bind_eq_ok.mpr ⟨_, hr rfl, bind_eq_ok.mpr ⟨_, hr rfl, ?_⟩⟩⟩⟩
  rw [readU64_of_get rfl, parseYParity_of_get rfl]
  rfl

theorem parseAuthorizationList_write {list : AuthorizationList}
    (h : list.length * 112 ≠ 0 → alloc (list.length * 112) = true) :
    parseAuthorizationList alloc (some (writeAuthorizationList list)) = .ok list := by
  refine bind_eq_ok.mpr ⟨(), allocArray_ok (by decide) ?_,
    mapM_write fun auth _ => parseAuthorization_write auth⟩
  rwa [List.length_map]

theorem parseBlobHashes_write {hashes : List Hash}
    (h : hashes.length * 32 ≠ 0 → alloc (hashes.length * 32) = true) :
    parseBlobHashes alloc (some (writeBlobHashes hashes)) = .ok hashes := by
  refine bind_eq_ok.mpr ⟨(), allocArray_ok (by decide) ?_, mapM_write fun hash _ => ?_⟩
  · rwa [List.length_map]
  · rw [parseBlobHash, jsonValHexHash_write]
    rfl

end Lists

section Transactions

variable {alloc : Alloc}

theorem parseLegacyTx_write (tx : LegacyTx) (h : Grants alloc (allocatedSizes (.legacy tx))) :
    parseLegacyTx alloc (t8nWriteTx (.legacy tx)) = .ok tx := by
  obtain ⟨hdata, hto⟩ := List.forall_mem_cons.mp h
  refine bind_eq_ok.mpr ⟨_, parseTo_of_get hto rfl, ?_⟩
  rw [readU64_of_get rfl, readUint256_of_get rfl, parseGas_of_get rfl, readUint256_of_get rfl,
    parseData_of_get hdata rfl rfl, readU64_of_get rfl, readUint256_of_get rfl,
    readUint256_of_get rfl]
  rfl

theorem parseEip2930Tx_write (tx : Eip2930Tx) (h : Grants alloc (allocatedSizes (.eip2930 tx))) :
    parseEip2930Tx alloc (t8nWriteTx (.eip2930 tx)) = .ok tx := by
  obtain ⟨hdata, hrest⟩ := List.forall_mem_cons.mp h
  obtain ⟨hto, hlist⟩ := List.forall_mem_append.mp hrest
  refine bind_eq_ok.mpr ⟨_, parseTo_of_get hto rfl,
    bind_eq_ok.mpr ⟨_, parseAccessList_write hlist, ?_⟩⟩
  rw [readU64_of_get rfl, readU64_of_get rfl, readUint256_of_get rfl, parseGas_of_get rfl,
    readUint256_of_get rfl, parseData_of_get hdata rfl rfl, parseYParity_of_get rfl,
    readUint256_of_get rfl, readUint256_of_get rfl]
  rfl

theorem parseEip1559Tx_write (tx : Eip1559Tx) (h : Grants alloc (allocatedSizes (.eip1559 tx))) :
    parseEip1559Tx alloc (t8nWriteTx (.eip1559 tx)) = .ok tx := by
  obtain ⟨hdata, hrest⟩ := List.forall_mem_cons.mp h
  obtain ⟨hto, hlist⟩ := List.forall_mem_append.mp hrest
  refine bind_eq_ok.mpr ⟨_, parseTo_of_get hto rfl,
    bind_eq_ok.mpr ⟨_, parseAccessList_write hlist, ?_⟩⟩
  rw [readU64_of_get rfl, readU64_of_get rfl, readUint256_of_get rfl, readUint256_of_get rfl,
    parseGas_of_get rfl, readUint256_of_get rfl, parseData_of_get hdata rfl rfl,
    parseYParity_of_get rfl, readUint256_of_get rfl, readUint256_of_get rfl]
  rfl

theorem parseEip4844Tx_write (tx : Eip4844Tx) (h : Grants alloc (allocatedSizes (.eip4844 tx))) :
    parseEip4844Tx alloc (t8nWriteTx (.eip4844 tx)) = .ok tx := by
  obtain ⟨hdata, hrest⟩ := List.forall_mem_cons.mp h
  obtain ⟨hhashes, hlist⟩ := List.forall_mem_cons.mp hrest
  refine bind_eq_ok.mpr ⟨_, required_address_of_get rfl,
    bind_eq_ok.mpr ⟨_, parseAccessList_write hlist,
      bind_eq_ok.mpr ⟨_, parseBlobHashes_write hhashes, ?_⟩⟩⟩
  rw [readU64_of_get rfl, readU64_of_get rfl, readUint256_of_get rfl, readUint256_of_get rfl,
    parseGas_of_get rfl, readUint256_of_get rfl, parseData_of_get hdata rfl rfl,
    readUint256_of_get rfl, parseYParity_of_get rfl, readUint256_of_get rfl,
    readUint256_of_get rfl]
  rfl

theorem parseEip7702Tx_write (tx : Eip7702Tx) (h : Grants alloc (allocatedSizes (.eip7702 tx))) :
    parseEip7702Tx alloc (t8nWriteTx (.eip7702 tx)) = .ok tx := by
  obtain ⟨hdata, hrest⟩ := List.forall_mem_cons.mp h
  obtain ⟨hauths, hlist⟩ := List.forall_mem_cons.mp hrest
  refine bind_eq_ok.mpr ⟨_, required_address_of_get rfl,
    bind_eq_ok.mpr ⟨_, parseAccessList_write hlist,
      bind_eq_ok.mpr ⟨_, parseAuthorizationList_write hauths, ?_⟩⟩⟩
  rw [readU64_of_get rfl, readU64_of_get rfl, readUint256_of_get rfl, readUint256_of_get rfl,
    parseGas_of_get rfl, readUint256_of_get rfl, parseData_of_get hdata rfl rfl,
    parseYParity_of_get rfl, readUint256_of_get rfl, readUint256_of_get rfl]
  rfl

/-- The branch that the type written for a transaction selects. -/
theorem t8nParseTx_write {obj : Json} {code : UInt64} {fields : List (String × Json)}
    (hobj : obj = .obj fields) (hcode : obj.get "type" = some (jsonWriteHexU64 code)) :
    t8nParseTx alloc obj = parseTyped alloc obj code.toNat := by
  rw [← readU64_of_get hcode, hobj, t8nParseTx]

/-- Parsing what was written of a transaction gives the transaction again. -/
theorem parseTx_writeTx (tx : Tx) (h : Grants alloc (allocatedSizes tx)) :
    t8nParseTx alloc (t8nWriteTx tx) = .ok tx := by
  cases tx with
  | legacy tx =>
    refine (t8nParseTx_write rfl rfl).trans ?_
    exact congrArg (Tx.legacy <$> ·) (parseLegacyTx_write tx h)
  | eip2930 tx =>
    refine (t8nParseTx_write rfl rfl).trans ?_
    exact congrArg (Tx.eip2930 <$> ·) (parseEip2930Tx_write tx h)
  | eip1559 tx =>
    refine (t8nParseTx_write rfl rfl).trans ?_
    exact congrArg (Tx.eip1559 <$> ·) (parseEip1559Tx_write tx h)
  | eip4844 tx =>
    refine (t8nParseTx_write rfl rfl).trans ?_
    exact congrArg (Tx.eip4844 <$> ·) (parseEip4844Tx_write tx h)
  | eip7702 tx =>
    refine (t8nParseTx_write rfl rfl).trans ?_
    exact congrArg (Tx.eip7702 <$> ·) (parseEip7702Tx_write tx h)

def fullTx : Tx :=
  .eip7702
    { chainId := 1, nonce := 7, maxPriorityFeePerGas := uint256FromU64 2
      maxFeePerGas := uint256FromU64 100, gasLimit := 21000, recipient := addressZero
      value := uint256Zero, data := [0x60, 0x00]
      accessList := [⟨addressZero, [uint256Zero, uint256FromU64 1]⟩]
      authorizationList := [⟨0, addressZero, 3, 1, uint256FromU64 5, uint256FromU64 6⟩]
      yParity := 1, r := uint256FromU64 8, s := uint256FromU64 9 }

/-- It fits the arena and survives. -/
theorem parseTx_writeTx_full : Grants arenaAlloc (allocatedSizes fullTx) ∧
    t8nParseTx arenaAlloc (t8nWriteTx fullTx) = .ok fullTx := by
  have hgrants : Grants arenaAlloc (allocatedSizes fullTx) := by
    unfold Grants
    decide
  exact ⟨hgrants, parseTx_writeTx fullTx hgrants⟩

end Transactions

end Div0.TxJsonRoundTrip
