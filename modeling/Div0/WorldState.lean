import Div0.Accounts
import Div0.Mpt
import Mathlib.Data.List.AList

/-!
The world state behind the state access interface. Accounts live in the state trie
under the hash of their address, storage in one trie for each address, code in a map.
The hash tables are lists and association lists, and grow as the host says: a set is walked
in the order of its list, and an insertion leaves an entry that is there as it is. Whether a
table has taken an entry is never looked at. Snapshots are counted but nothing is recorded,
so going back to one changes nothing.
-/

namespace Div0.WorldState

open BigEndian Buffer Containers Node Mpt Uint256 Accounts

structure SlotKey where
  addr : Address
  slot : Word
  deriving DecidableEq

structure World where
  stateTrie : Backend
  storageTries : AList fun _ : Address => Backend
  codeStore : AList fun _ : Address => Bytes
  warmAddresses : List Address
  warmSlots : List SlotKey
  originalStorage : AList fun _ : SlotKey => Word
  dirtyStorage : List Address
  allAccounts : List Address
  allStorageSlots : List SlotKey
  snapshotCounter : UInt64

def worldStateCreate : World := ⟨Backend.init, ∅, ∅, [], [], ∅, [], [], [], 0⟩

/-! The bytes of an entry in the hash tables. -/

def addressEntry : ℕ := 20

def slotEntry : ℕ := 56

def storageTrieEntry : ℕ := 32

def codeEntry : ℕ := 56

def originalEntry : ℕ := 88

/-- One round of `erase_slots_for_address`: at most 64 slots are collected and erased;
the flag says that there are more. -/
def eraseRound (slots : List SlotKey) (addr : Address) : List SlotKey × Bool :=
  let found := slots.filter fun key => decide (key.addr = addr)
  ((found.take 64).foldl List.erase slots, decide (64 < found.length))

def eraseRounds : ℕ → List SlotKey → Address → List SlotKey
  | 0, slots, _ => slots
  | n + 1, slots, addr =>
    match eraseRound slots addr with
    | (rest, true) => eraseRounds n rest addr
    | (rest, false) => rest

/-- `erase_slots_for_address`. A round that goes on erases 64 slots, so there are fewer
rounds than slots. -/
def eraseSlotsForAddress (slots : List SlotKey) (addr : Address) : List SlotKey :=
  eraseRounds (slots.length + 1) slots addr

section Operations

variable (host : Host) (ws : World) (addr : Address)

def addressToKey : Hash := host.keccak256 addr.bytes

def slotToKey (slot : Word) : Hash := host.keccak256 (uint256ToBytesBe slot)

/-- `world_state_get_account`; `none` is the result `false`. -/
def worldStateGetAccount : Option Account :=
  match mptGet host ws.stateTrie (addressToKey host addr).bytes with
  | none => none
  | some value => accountRlpDecode value

/-- The account that a caller goes on with: the stored one, or an empty one. -/
def accountOrEmpty : Account :=
  (worldStateGetAccount host ws addr).getD accountEmpty

def worldStateSetAccount (acc : Account) : Bool × World :=
  let key := addressToKey host addr
  if accountIsEmpty acc then
    (true, { ws with
      stateTrie := (mptDelete host ws.stateTrie key.bytes).2
      allAccounts := ws.allAccounts.erase addr
      allStorageSlots := eraseSlotsForAddress ws.allStorageSlots addr })
  else
    let ws := { ws with allAccounts := insertSet (host.tables addressEntry) ws.allAccounts addr }
    let encoded := accountRlpEncode host.alloc acc
    match encoded.block with
    | none => (false, ws)
    | some _ => (true, { ws with stateTrie := mptInsert host ws.stateTrie key.bytes encoded.data })

def wsAccountExists : Bool :=
  (mptGet host ws.stateTrie (addressToKey host addr).bytes).isSome

def wsAccountIsEmpty : Bool :=
  match worldStateGetAccount host ws addr with
  | none => true
  | some acc => accountIsEmpty acc

def wsCreateContract : World :=
  if wsAccountExists host ws addr then ws
  else (worldStateSetAccount host ws addr { accountEmpty with nonce := 1 }).2

def wsDeleteAccount : World :=
  { ws with
    stateTrie := (mptDelete host ws.stateTrie (addressToKey host addr).bytes).2
    storageTries := ws.storageTries.erase addr
    codeStore := ws.codeStore.erase addr }

def wsGetBalance : Word :=
  match worldStateGetAccount host ws addr with
  | none => uint256Zero
  | some acc => acc.balance

def wsSetBalance (balance : Word) : World :=
  (worldStateSetAccount host ws addr { accountOrEmpty host ws addr with balance := balance }).2

def wsAddBalance (amount : Word) : Bool × World :=
  let acc := accountOrEmpty host ws addr
  let newBalance := uint256Add acc.balance amount
  if uint256Lt newBalance acc.balance then (false, ws)
  else (true, (worldStateSetAccount host ws addr { acc with balance := newBalance }).2)

def wsSubBalance (amount : Word) : Bool × World :=
  match worldStateGetAccount host ws addr with
  | none => (uint256IsZero amount, ws)
  | some acc =>
    if uint256Lt acc.balance amount then (false, ws)
    else (true, (worldStateSetAccount host ws addr
      { acc with balance := uint256Sub acc.balance amount }).2)

def wsGetNonce : UInt64 :=
  match worldStateGetAccount host ws addr with
  | none => 0
  | some acc => acc.nonce

def wsSetNonce (nonce : UInt64) : World :=
  (worldStateSetAccount host ws addr { accountOrEmpty host ws addr with nonce := nonce }).2

/-- `ws_increment_nonce`: the old nonce; from `UINT64_MAX - 1` on nothing is written. -/
def wsIncrementNonce : UInt64 × World :=
  let acc := accountOrEmpty host ws addr
  if acc.nonce ≥ 0xffffffffffffffff - 1 then (acc.nonce, ws)
  else (acc.nonce, (worldStateSetAccount host ws addr { acc with nonce := acc.nonce + 1 }).2)

def wsGetCode : Bytes := (ws.codeStore.lookup addr).getD []

def wsGetCodeSize : ℕ := (wsGetCode ws addr).length

def wsGetCodeHash : Hash :=
  match worldStateGetAccount host ws addr with
  | none => emptyCodeHash
  | some acc => acc.codeHash

def wsSetCode (code : Bytes) : World :=
  let codeBytes := if 0 < code.length then ((Buf.fromData host.alloc code).getD Buf.init).data else []
  let ws := { ws with
    codeStore := insertNew (host.tables codeEntry) ws.codeStore addr codeBytes }
  let acc := accountOrEmpty host ws addr
  let codeHash := if code.length = 0 then emptyCodeHash else host.keccak256 code
  (worldStateSetAccount host ws addr { acc with codeHash := codeHash }).2

def wsGetStorage (slot : Word) : Word :=
  match ws.storageTries.lookup addr with
  | none => uint256Zero
  | some storage =>
    match mptGet host storage (slotToKey host slot).bytes with
    | none => uint256Zero
    | some value => if value.length = 0 then uint256Zero else uint256FromBytesBe value

def wsGetOriginalStorage (slot : Word) : Word :=
  match ws.originalStorage.lookup ⟨addr, slot⟩ with
  | some original => original
  | none => wsGetStorage host ws addr slot

/-- `world_state_get_storage_trie`: the trie, and the state in which it exists. -/
def worldStateGetStorageTrie : Backend × World :=
  match ws.storageTries.lookup addr with
  | some storage => (storage, ws)
  | none => (Backend.init, { ws with
      storageTries := insertNew (host.tables storageTrieEntry) ws.storageTries addr Backend.init })

/-- The trie with a slot written: deleted when the value is zero, otherwise the bytes
of the value without leading zeros. -/
def writeSlot (storage : Backend) (slot value : Word) : Backend :=
  let key := slotToKey host slot
  if uint256IsZero value then (mptDelete host storage key.bytes).2
  else
    let beBytes := uint256ToBytesBe value
    mptInsert host storage key.bytes (beBytes.drop (beBytes.takeWhile (· == 0)).length)

def recordOriginal (slot : Word) : World :=
  if (⟨addr, slot⟩ : SlotKey) ∈ ws.originalStorage then ws
  else { ws with
    originalStorage := insertNew (host.tables originalEntry) ws.originalStorage ⟨addr, slot⟩
      (wsGetStorage host ws addr slot) }

/-- The address gets dirty, and the slot is tracked for the export while it is not zero. -/
def trackSlot (slot value : Word) : World :=
  { ws with
    dirtyStorage := insertSet (host.tables addressEntry) ws.dirtyStorage addr
    allStorageSlots :=
      if uint256IsZero value then ws.allStorageSlots.erase ⟨addr, slot⟩
      else insertSet (host.tables slotEntry) ws.allStorageSlots ⟨addr, slot⟩ }

/-- The map holds a pointer to the trie, so the write is seen through the map. A trie that the
map has refused is written to and forgotten. -/
def writeThrough (slot value : Word) : World :=
  let (storage, ws) := worldStateGetStorageTrie host ws addr
  if addr ∈ ws.storageTries then
    { ws with storageTries := ws.storageTries.insert addr (writeSlot host storage slot value) }
  else ws

def wsSetStorage (slot value : Word) : World :=
  let ws := recordOriginal host ws addr slot
  let ws := trackSlot host ws addr slot value
  writeThrough host ws addr slot value

def wsIsAddressWarm : Bool := decide (addr ∈ ws.warmAddresses)

/-- `ws_warm_address`: whether the address was cold. -/
def wsWarmAddress : Bool × World :=
  if addr ∈ ws.warmAddresses then (false, ws)
  else (true, { ws with
    warmAddresses := insertSet (host.tables addressEntry) ws.warmAddresses addr })

theorem wsWarmAddress_fst : (wsWarmAddress host ws addr).1 = !wsIsAddressWarm ws addr := by
  unfold wsWarmAddress wsIsAddressWarm
  split <;> simp [*]

def wsIsSlotWarm (slot : Word) : Bool :=
  decide ((⟨addr, slot⟩ : SlotKey) ∈ ws.warmSlots)

/-- `ws_warm_slot`: whether the slot was cold. -/
def wsWarmSlot (slot : Word) : Bool × World :=
  if (⟨addr, slot⟩ : SlotKey) ∈ ws.warmSlots then (false, ws)
  else (true, { ws with
    warmSlots := insertSet (host.tables slotEntry) ws.warmSlots ⟨addr, slot⟩ })

theorem wsWarmSlot_fst (slot : Word) :
    (wsWarmSlot host ws addr slot).1 = !wsIsSlotWarm ws addr slot := by
  unfold wsWarmSlot wsIsSlotWarm
  split <;> simp [*]

def wsBeginTransaction : World :=
  { ws with warmAddresses := [], warmSlots := [], originalStorage := ∅ }

def wsSnapshot : UInt64 × World :=
  (ws.snapshotCounter + 1, { ws with snapshotCounter := ws.snapshotCounter + 1 })

def wsRevertToSnapshot (_ : UInt64) : World := ws

def wsCommitSnapshot (_ : UInt64) : World := ws

/-- The loop body of `world_state_root`: the storage root of a dirty address is brought
up to date, and its trie keeps the hash in its cache. -/
def updateStorageRoot : World :=
  match ws.storageTries.lookup addr with
  | none => ws
  | some storage =>
    let acc := accountOrEmpty host ws addr
    let (root, storage) := mptRootHash host storage
    let ws := { ws with storageTries := ws.storageTries.insert addr storage }
    (worldStateSetAccount host ws addr { acc with storageRoot := root }).2

def worldStateRoot : Hash × World :=
  let ws := ws.dirtyStorage.foldl (updateStorageRoot host) ws
  let (root, stateTrie) := mptRootHash host ws.stateTrie
  (root, { ws with dirtyStorage := [], stateTrie := stateTrie })

end Operations

end Div0.WorldState
