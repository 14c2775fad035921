import Div0.TxJsonRoundTrip

/-!
The allocation in the JSON of the `t8n` tool: an object from addresses to accounts, whose
nonce, code and storage are left out when they are zero or empty. Slots with a zero value
are neither written nor kept when read.
-/

namespace Div0.AllocJson

open BigEndian Buffer Uint256 Hex JsonValues TxJson TxJsonRoundTrip

structure StorageEntry where
  slot : Word
  value : Word
  deriving DecidableEq

structure AccountSnapshot where
  address : Address
  balance : Word
  nonce : UInt64
  code : Bytes
  storage : List StorageEntry
  deriving DecidableEq

abbrev StateSnapshot := List AccountSnapshot

section Parsing

variable (alloc : Alloc)

def parseStorageEntry (field : String × Json) : Except JsonErr StorageEntry :=
  let slot := hexDecodeUint256 (cString field.1) uint256Zero
  let value := jsonValHexUint256 field.2 uint256Zero
  if slot.1 = false then .error ⟨.invalidHex, "invalid storage slot key"⟩
  else if value.1 = false then .error ⟨.invalidHex, "invalid storage value"⟩
  else .ok ⟨slot.2, value.2⟩

def parseStorage : Option Json → Except JsonErr (List StorageEntry)
  | some (.obj fields) => do
    allocArray alloc fields.length 64 "failed to allocate storage"
    let entries ← fields.mapM parseStorageEntry
    pure (entries.filter fun entry => !uint256IsZero entry.value)
  | _ => .ok []

def parseAccount (field : String × Json) : Except JsonErr AccountSnapshot := do
  let address ← required ((hexDecode (cString field.1) 20).bind toAddress) .invalidHex
    "invalid address key"
  match field.2 with
  | .obj fields =>
    let account : Json := .obj fields
    let balance ← requiredUint256 account "balance" "missing balance field"
    let storage ← parseStorage alloc (account.get "storage")
    pure
      { address, balance, nonce := readU64 account "nonce"
        code := (jsonGetHexBytes alloc account "code").getD [], storage }
  | _ => .error ⟨.invalidType, "account must be an object"⟩

def t8nParseAllocValue : Json → Except JsonErr StateSnapshot
  | .obj fields => do
    allocArray alloc fields.length 112 "failed to allocate accounts"
    fields.mapM (parseAccount alloc)
  | _ => .error ⟨.invalidType, "alloc must be an object"⟩

end Parsing

def writeStorageEntry (entry : StorageEntry) : String × Json :=
  (hexEncodeUint256Padded entry.slot, jsonWriteHexUint256Padded entry.value)

def t8nWriteAllocAccount (account : AccountSnapshot) : Json :=
  .obj ([("balance", jsonWriteHexUint256 account.balance)] ++
    (if account.nonce ≠ 0 then [("nonce", jsonWriteHexU64 account.nonce)] else []) ++
    (if account.code ≠ [] then [("code", jsonWriteHexBytes account.code)] else []) ++
    if account.storage ≠ [] then
      [("storage", .obj ((account.storage.filter fun entry => !uint256IsZero entry.value).map
        writeStorageEntry))]
    else [])

def t8nWriteAlloc (snapshot : StateSnapshot) : Json :=
  .obj (snapshot.map fun account => (hexEncode account.address.bytes, t8nWriteAllocAccount account))

def accountSizes (account : AccountSnapshot) : List ℕ :=
  [account.code.length, account.storage.length * 64]

def snapshotSizes (snapshot : StateSnapshot) : List ℕ :=
  snapshot.length * 112 :: snapshot.flatMap accountSizes

section RoundTrip

variable {alloc : Alloc} {account : AccountSnapshot}

theorem parseStorageEntry_write (entry : StorageEntry) :
    parseStorageEntry (writeStorageEntry entry) = .ok entry := by
  have hslot : hexDecodeUint256 (cString (hexEncodeUint256Padded entry.slot)) uint256Zero =
      (true, entry.slot) := jsonValHexUint256_writePadded entry.slot uint256Zero
  have hvalue := jsonValHexUint256_writePadded entry.value uint256Zero
  simp only [parseStorageEntry, writeStorageEntry, hslot, hvalue]
  rfl

theorem get_storage_write : (t8nWriteAllocAccount account).get "storage" =
    if account.storage ≠ [] then
      some (.obj ((account.storage.filter fun entry => !uint256IsZero entry.value).map
        writeStorageEntry))
    else none := by
  rw [t8nWriteAllocAccount]
  split_ifs <;> rfl

theorem readU64_nonce_write : readU64 (t8nWriteAllocAccount account) "nonce" = account.nonce := by
  by_cases hzero : account.nonce = 0
  · have hget : (t8nWriteAllocAccount account).get "nonce" = none := by
      rw [t8nWriteAllocAccount, if_neg (not_not.mpr hzero)]
      split_ifs <;> rfl
    rw [readU64, jsonGetHexU64, hget, hzero]
    rfl
  · apply readU64_of_get
    rw [t8nWriteAllocAccount, if_pos hzero]
    split_ifs <;> rfl

theorem code_write (h : account.code.length ≠ 0 → alloc account.code.length = true) :
    (jsonGetHexBytes alloc (t8nWriteAllocAccount account) "code").getD [] = account.code := by
  by_cases hempty : account.code = []
  · have hget : (t8nWriteAllocAccount account).get "code" = none := by
      rw [t8nWriteAllocAccount, if_neg (not_not.mpr hempty)]
      split_ifs <;> rfl
    rw [jsonGetHexBytes, hget, hempty]
    rfl
  · have hget : (t8nWriteAllocAccount account).get "code" =
        some (jsonWriteHexBytes account.code) := by
      rw [t8nWriteAllocAccount, if_pos hempty]
      split_ifs <;> rfl
    rw [jsonGetHexBytes, hget, Option.bind_some, jsonValHexBytes_write h, Option.getD_some]

theorem parseStorage_write (hvalues : ∀ entry ∈ account.storage, uint256IsZero entry.value = false)
    (h : account.storage.length * 64 ≠ 0 → alloc (account.storage.length * 64) = true) :
    parseStorage alloc ((t8nWriteAllocAccount account).get "storage") = .ok account.storage := by
  have hfilter : (account.storage.filter fun entry => !uint256IsZero entry.value) =
      account.storage := by
    rw [List.filter_eq_self]
    intro entry hentry
    rw [hvalues entry hentry]
    rfl
  rw [get_storage_write]
  split
  · rw [hfilter]
    refine bind_eq_ok.mpr ⟨(), allocArray_ok (by decide) (by rwa [List.length_map]),
      bind_eq_ok.mpr ⟨account.storage, ?_, congrArg Except.ok hfilter⟩⟩
    exact mapM_eq_ok.mpr (List.forall₂_map_left_iff.mpr
      (List.forall₂_same.mpr fun entry _ => parseStorageEntry_write entry))
  · next hnil =>
    rw [not_not.mp hnil]
    rfl

theorem parseAccount_write (hvalues : ∀ entry ∈ account.storage, uint256IsZero entry.value = false)
    (h : Grants alloc (accountSizes account)) :
    parseAccount alloc (hexEncode account.address.bytes, t8nWriteAllocAccount account) =
      .ok account := by
  obtain ⟨hcode, hstorage⟩ := List.forall_mem_cons.mp h
  have haddress : required ((hexDecode (cString (hexEncode account.address.bytes)) 20).bind
      toAddress) .invalidHex "invalid address key" = .ok account.address := by
    exact congrArg (required · _ _) (jsonValHexAddress_write account.address)
  have hbalance : requiredUint256 (t8nWriteAllocAccount account) "balance"
      "missing balance field" = .ok account.balance := by
    rw [requiredUint256, jsonGetHexUint256_of_get rfl]
    rfl
  refine bind_eq_ok.mpr ⟨_, haddress, bind_eq_ok.mpr ⟨_, hbalance, bind_eq_ok.mpr
    ⟨_, parseStorage_write hvalues (hstorage _ List.mem_cons_self), ?_⟩⟩⟩
  rw [← t8nWriteAllocAccount, readU64_nonce_write, code_write hcode]
  rfl

/-- Parsing what was written of a snapshot gives the snapshot again. -/
theorem parseAlloc_writeAlloc (snapshot : StateSnapshot)
    (hvalues : ∀ account ∈ snapshot, ∀ entry ∈ account.storage, uint256IsZero entry.value = false)
    (h : Grants alloc (snapshotSizes snapshot)) :
    t8nParseAllocValue alloc (t8nWriteAlloc snapshot) = .ok snapshot := by
  obtain ⟨haccounts, hrest⟩ := List.forall_mem_cons.mp h
  refine bind_eq_ok.mpr ⟨(), allocArray_ok (by decide) (by rwa [List.length_map]), ?_⟩
  refine mapM_eq_ok.mpr (List.forall₂_map_left_iff.mpr (List.forall₂_same.mpr ?_))
  intro account haccount
  refine parseAccount_write (hvalues account haccount) fun n hn => hrest n ?_
  exact List.mem_flatMap.mpr ⟨account, haccount, hn⟩

def twoAccounts : StateSnapshot :=
  [⟨addressZero, uint256FromU64 5, 1, [0x60, 0x00], [⟨uint256FromU64 2, uint256FromU64 3⟩]⟩,
    ⟨⟨toBytes 20 1, toBytes_length 20 1⟩, uint256Zero, 0, [], []⟩]

theorem parseAlloc_writeAlloc_two :
    t8nParseAllocValue arenaAlloc (t8nWriteAlloc twoAccounts) = .ok twoAccounts := by
  refine parseAlloc_writeAlloc twoAccounts (by decide) ?_
  unfold Grants
  decide

end RoundTrip

end Div0.AllocJson
