import Div0.CallTraces
import Div0.WorldStores

/-!
The world state under sequences of calls of the state access interface. Apart from
computing the root, a call hands one account to `world_state_set_account`, writes one
slot, deletes one account, or leaves the stores alone; what it does to the accounts,
the slots and the code is stated once for all calls.
-/

namespace Div0.WorldCalls

open BigEndian Buffer Containers Node Mpt Uint256 Accounts WorldState WorldLedger WorldStores
  PatriciaTree.Tree
open KeyedTries

variable {host : Host} {ws ws' : World} {addrs : Set Address} {slots : Set Word}

/-- The calls of the interface that change the world state. -/
inductive WorldOp where
  | createContract (addr : Address)
  | deleteAccount (addr : Address)
  | setBalance (addr : Address) (balance : Word)
  | addBalance (addr : Address) (amount : Word)
  | subBalance (addr : Address) (amount : Word)
  | setNonce (addr : Address) (nonce : UInt64)
  | incrementNonce (addr : Address)
  | setCode (addr : Address) (code : Bytes)
  | setStorage (addr : Address) (slot value : Word)
  | warmAddress (addr : Address)
  | warmSlot (addr : Address) (slot : Word)
  | beginTransaction
  | snapshot
  | revertToSnapshot (id : UInt64)
  | commitSnapshot (id : UInt64)
  | stateRoot
  deriving DecidableEq

section Calls

variable (host : Host) (ws : World)

def applyOp : WorldOp → World
  | .createContract addr => wsCreateContract host ws addr
  | .deleteAccount addr => wsDeleteAccount host ws addr
  | .setBalance addr balance => wsSetBalance host ws addr balance
  | .addBalance addr amount => (wsAddBalance host ws addr amount).2
  | .subBalance addr amount => (wsSubBalance host ws addr amount).2
  | .setNonce addr nonce => wsSetNonce host ws addr nonce
  | .incrementNonce addr => (wsIncrementNonce host ws addr).2
  | .setCode addr code => wsSetCode host ws addr code
  | .setStorage addr slot value => wsSetStorage host ws addr slot value
  | .warmAddress addr => (wsWarmAddress host ws addr).2
  | .warmSlot addr slot => (wsWarmSlot host ws addr slot).2
  | .beginTransaction => wsBeginTransaction ws
  | .snapshot => (wsSnapshot ws).2
  | .revertToSnapshot id => wsRevertToSnapshot ws id
  | .commitSnapshot id => wsCommitSnapshot ws id
  | .stateRoot => (worldStateRoot host ws).2

def runOps (ops : List WorldOp) : World := ops.foldl (applyOp host) ws

def storedCode (code : Bytes) : Bytes :=
  if 0 < code.length then ((Buf.fromData host.alloc code).getD Buf.init).data else []

/-- What a call does to the stores: it hands an account to `world_state_set_account`,
after putting its code into the code map when it is given one, or it writes a slot,
deletes an account, computes the root, or does none of these. -/
inductive Change where
  | account (addr : Address) (acc : Account) (code : Option Bytes)
  | store (addr : Address) (slot value : Word)
  | delete (addr : Address)
  | root
  | nothing

def changeOf : WorldOp → Change
  | .createContract addr =>
    if wsAccountExists host ws addr then .nothing
    else .account addr { accountEmpty with nonce := 1 } none
  | .deleteAccount addr => .delete addr
  | .setBalance addr balance =>
    .account addr { accountOrEmpty host ws addr with balance := balance } none
  | .addBalance addr amount =>
    let acc := accountOrEmpty host ws addr
    let newBalance := uint256Add acc.balance amount
    if uint256Lt newBalance acc.balance then .nothing
    else .account addr { acc with balance := newBalance } none
  | .subBalance addr amount =>
    match worldStateGetAccount host ws addr with
    | none => .nothing
    | some acc =>
      if uint256Lt acc.balance amount then .nothing
      else .account addr { acc with balance := uint256Sub acc.balance amount } none
  | .setNonce addr nonce => .account addr { accountOrEmpty host ws addr with nonce := nonce } none
  | .incrementNonce addr =>
    let acc := accountOrEmpty host ws addr
    if acc.nonce ≥ 0xffffffffffffffff - 1 then .nothing
    else .account addr { acc with nonce := acc.nonce + 1 } none
  | .setCode addr code =>
    .account addr { accountOrEmpty host ws addr with
      codeHash := if code.length = 0 then emptyCodeHash else host.keccak256 code } (some code)
  | .setStorage addr slot value => .store addr slot value
  | .stateRoot => .root
  | .warmAddress _ | .warmSlot _ _ | .beginTransaction | .snapshot | .revertToSnapshot _
  | .commitSnapshot _ => .nothing

def withCode (addr : Address) (code : Option Bytes) : World :=
  match code with
  | none => ws
  | some code => { ws with
      codeStore := insertNew (host.tables codeEntry) ws.codeStore addr (storedCode host code) }

def applyChange : Change → World
  | .account addr acc code => (worldStateSetAccount host (withCode host ws addr code) addr acc).2
  | .store addr slot value => wsSetStorage host ws addr slot value
  | .delete addr => wsDeleteAccount host ws addr
  | .root => (worldStateRoot host ws).2
  | .nothing => ws

end Calls

/-- Two world states that differ in what a transaction keeps track of only. -/
structure SameRecords (ws ws' : World) : Prop where
  stateTrie : ws'.stateTrie = ws.stateTrie
  storageTries : ws'.storageTries = ws.storageTries
  codeStore : ws'.codeStore = ws.codeStore
  dirtyStorage : ws'.dirtyStorage = ws.dirtyStorage
  allAccounts : ws'.allAccounts = ws.allAccounts
  allStorageSlots : ws'.allStorageSlots = ws.allStorageSlots

theorem SameRecords.refl (ws : World) : SameRecords ws ws := ⟨rfl, rfl, rfl, rfl, rfl, rfl⟩

/-- Every call does what its change says. -/
theorem applyOp_sameRecords (host : Host) (ws : World) (op : WorldOp) :
    SameRecords (applyChange host ws (changeOf host ws op)) (applyOp host ws op) := by
  cases op with
  | createContract | addBalance | incrementNonce =>
    simp only [applyOp, changeOf, wsCreateContract, wsAddBalance, wsIncrementNonce]
    split <;> exact SameRecords.refl _
  | subBalance addr amount =>
    simp only [applyOp, changeOf, wsSubBalance]
    cases worldStateGetAccount host ws addr with
    | none => exact SameRecords.refl _
    | some acc =>
      dsimp only
      split <;> exact SameRecords.refl _
  | warmAddress | warmSlot =>
    simp only [applyOp, changeOf, applyChange, wsWarmAddress, wsWarmSlot]
    split <;> exact ⟨rfl, rfl, rfl, rfl, rfl, rfl⟩
  | beginTransaction | snapshot => exact ⟨rfl, rfl, rfl, rfl, rfl, rfl⟩
  | _ => exact SameRecords.refl _

/-- The call uses one of these addresses and one of these slots, if any. -/
def WorldOp.Uses (addrs : Set Address) (slots : Set Word) : WorldOp → Prop
  | .createContract addr | .deleteAccount addr | .setBalance addr _ | .addBalance addr _
  | .subBalance addr _ | .setNonce addr _ | .incrementNonce addr | .setCode addr _
  | .warmAddress addr => addr ∈ addrs
  | .setStorage addr slot _ | .warmSlot addr slot => addr ∈ addrs ∧ slot ∈ slots
  | _ => True

/-- The change concerns one of these addresses and one of these slots, if any. -/
def Change.Uses (addrs : Set Address) (slots : Set Word) : Change → Prop
  | .account addr _ _ | .delete addr => addr ∈ addrs
  | .store addr slot _ => addr ∈ addrs ∧ slot ∈ slots
  | _ => True

variable {op : WorldOp}

theorem changeOf_uses (host : Host) (ws : World) (h : op.Uses addrs slots) :
    (changeOf host ws op).Uses addrs slots := by
  cases op with
  | createContract | addBalance | incrementNonce =>
    simp only [changeOf]
    split
    · trivial
    · exact h
  | subBalance =>
    simp only [changeOf]
    split
    · trivial
    · split
      · trivial
      · exact h
  | warmAddress | warmSlot => trivial
  | _ => exact h

def Change.From (op : WorldOp) : Change → Prop
  | .store addr slot value => op = .setStorage addr slot value
  | .delete addr => op = .deleteAccount addr
  | .root => op = .stateRoot
  | .account _ _ _ | .nothing => True

theorem changeOf_from {change : Change} (h : changeOf host ws op = change) : change.From op := by
  subst h
  cases op with
  | createContract a | addBalance a amount | incrementNonce a =>
    simp only [changeOf]
    split <;> trivial
  | subBalance a amount =>
    simp only [changeOf]
    split
    · trivial
    · split <;> trivial
  | deleteAccount a | setStorage a slot value | stateRoot => rfl
  | _ => trivial

section Fields

variable (host : Host) (ws : World) (addr : Address)

/-- `world_state_set_account` touches the state trie and the two export sets only. -/
theorem setAccount_fields (acc : Account) :
    (worldStateSetAccount host ws addr acc).2.storageTries = ws.storageTries ∧
      (worldStateSetAccount host ws addr acc).2.codeStore = ws.codeStore ∧
      (worldStateSetAccount host ws addr acc).2.dirtyStorage = ws.dirtyStorage := by
  unfold worldStateSetAccount
  split
  · exact ⟨rfl, rfl, rfl⟩
  · dsimp only
    split <;> exact ⟨rfl, rfl, rfl⟩

theorem withCode_fields (code : Option Bytes) :
    (withCode host ws addr code).stateTrie = ws.stateTrie ∧
      (withCode host ws addr code).storageTries = ws.storageTries ∧
      (withCode host ws addr code).dirtyStorage = ws.dirtyStorage := by
  cases code <;> exact ⟨rfl, rfl, rfl⟩

theorem recordOriginal_fields (slot : Word) :
    SameRecords ws (recordOriginal host ws addr slot) := by
  unfold recordOriginal
  split <;> exact ⟨rfl, rfl, rfl, rfl, rfl, rfl⟩

/-- The map of the storage tries has the address, or takes it. -/
def TrieRoom : Prop := HasRoom (host.tables storageTrieEntry) ws.storageTries addr

instance : Decidable (TrieRoom host ws addr) := inferInstanceAs (Decidable (HasRoom ..))

/-- A write to storage finds its address in the map of the storage tries, or room for it. -/
def WorldOp.Stored : WorldOp → Prop
  | .setStorage addr _ _ => TrieRoom host ws addr
  | _ => True

/-- A write to storage finds its slot in the map of the original values, or room for it. -/
def WorldOp.Recorded : WorldOp → Prop
  | .setStorage addr slot _ =>
    HasRoom (host.tables originalEntry) ws.originalStorage ⟨addr, slot⟩
  | _ => True

theorem trieRoom_of_roomy [Roomy host] : TrieRoom host ws addr := hasRoom_of_roomy _ _

theorem WorldOp.stored_of_roomy [Roomy host] (op : WorldOp) : op.Stored host ws := by
  cases op with
  | setStorage addr slot value => exact trieRoom_of_roomy host ws addr
  | _ => trivial

theorem writeThrough_lookup (slot value : Word) (b : Address) :
    (writeThrough host ws addr slot value).storageTries.lookup b =
      if b = addr ∧ TrieRoom host ws addr then
        some (writeSlot host ((ws.storageTries.lookup addr).getD Backend.init) slot value)
      else ws.storageTries.lookup b := by
  unfold writeThrough worldStateGetStorageTrie
  cases hlookup : ws.storageTries.lookup addr with
  | none =>
    have hmem : addr ∈ insertNew (host.tables storageTrieEntry) ws.storageTries addr Backend.init ↔
        TrieRoom host ws addr := mem_insertNew
    dsimp only
    simp only [hmem, Option.getD_none]
    by_cases hroom : TrieRoom host ws addr
    · rw [if_pos hroom]
      by_cases hb : b = addr
      · rw [if_pos ⟨hb, hroom⟩, hb, AList.lookup_insert]
      · rw [if_neg fun h => hb h.1, AList.lookup_insert_ne hb, lookup_insertNew,
          if_neg fun h => hb h.1]
    · rw [if_neg hroom, if_neg fun h => hroom h.2, lookup_insertNew, if_neg fun h => hroom h.2]
  | some storage =>
    have hmem : addr ∈ ws.storageTries := AList.lookup_isSome.mp (by rw [hlookup]; rfl)
    have hroom : TrieRoom host ws addr := Or.inl hmem
    dsimp only
    rw [if_pos hmem, Option.getD_some]
    by_cases hb : b = addr
    · rw [if_pos ⟨hb, hroom⟩, hb, AList.lookup_insert]
    · rw [if_neg fun h => hb h.1, AList.lookup_insert_ne hb]

theorem writeThrough_refused {addr : Address} (h : ¬TrieRoom host ws addr) (slot value : Word) :
    (writeThrough host ws addr slot value).storageTries = ws.storageTries := by
  obtain ⟨hmem, hroom⟩ := not_or.mp h
  unfold writeThrough worldStateGetStorageTrie
  rw [AList.lookup_eq_none.mpr hmem]
  dsimp only
  rw [insertNew, if_neg hmem, Bool.eq_false_iff.mpr hroom, cond_false, if_neg hmem]

theorem writeThrough_fields (slot value : Word) :
    (writeThrough host ws addr slot value).stateTrie = ws.stateTrie ∧
      (writeThrough host ws addr slot value).codeStore = ws.codeStore ∧
      (writeThrough host ws addr slot value).dirtyStorage = ws.dirtyStorage := by
  unfold writeThrough worldStateGetStorageTrie
  cases ws.storageTries.lookup addr <;> dsimp only <;> split <;> exact ⟨rfl, rfl, rfl⟩

theorem tracked_storageTries (slot value : Word) :
    (trackSlot host (recordOriginal host ws addr slot) addr slot value).storageTries =
      ws.storageTries :=
  (recordOriginal_fields host ws addr slot).storageTries

theorem tracked_room (slot value : Word) :
    TrieRoom host (trackSlot host (recordOriginal host ws addr slot) addr slot value) addr ↔
      TrieRoom host ws addr := by
  unfold TrieRoom
  rw [tracked_storageTries]

/-- `ws_set_storage` writes to the storage trie of the address, which is made when it
does not exist; a trie that the map refuses is lost. -/
theorem setStorage_lookup (slot value : Word) (b : Address) :
    (wsSetStorage host ws addr slot value).storageTries.lookup b =
      if b = addr ∧ TrieRoom host ws addr then
        some (writeSlot host ((ws.storageTries.lookup addr).getD Backend.init) slot value)
      else ws.storageTries.lookup b := by
  refine (writeThrough_lookup host _ addr slot value b).trans ?_
  simp only [tracked_room, tracked_storageTries]

theorem setStorage_refused {addr : Address} (h : ¬TrieRoom host ws addr) (slot value : Word) :
    (wsSetStorage host ws addr slot value).storageTries = ws.storageTries := by
  rw [← tracked_room host ws addr slot value] at h
  exact (writeThrough_refused host _ h slot value).trans (tracked_storageTries ..)

theorem setStorage_fields (slot value : Word) :
    (wsSetStorage host ws addr slot value).stateTrie = ws.stateTrie ∧
      (wsSetStorage host ws addr slot value).codeStore = ws.codeStore ∧
      (wsSetStorage host ws addr slot value).dirtyStorage =
        insertSet (host.tables addressEntry) ws.dirtyStorage addr := by
  have hsame := recordOriginal_fields host ws addr slot
  obtain ⟨htrie, hcode, hdirty⟩ := writeThrough_fields host
    (trackSlot host (recordOriginal host ws addr slot) addr slot value) addr slot value
  refine ⟨htrie.trans hsame.stateTrie, hcode.trans hsame.codeStore, hdirty.trans ?_⟩
  rw [← hsame.dirtyStorage]
  rfl

end Fields

section Effects

variable (host : Host) (ws : World)

def rootAt (addr : Address) : Option Hash :=
  (ws.storageTries.lookup addr).map fun storage => (mptRootHash host storage).1

def refresh (addr : Address) (acc : Account) : Account :=
  match rootAt host ws addr with
  | none => acc
  | some root => { acc with storageRoot := root }

def accountAfter (change : Change) (probe : Address) : Option Account :=
  match change with
  | .account addr acc _ =>
    if probe = addr then if accountIsEmpty acc then none else some acc
    else worldStateGetAccount host ws probe
  | .delete addr => if probe = addr then none else worldStateGetAccount host ws probe
  | .root =>
    if probe ∈ ws.dirtyStorage then
      (worldStateGetAccount host ws probe).map (refresh host ws probe)
    else worldStateGetAccount host ws probe
  | .store _ _ _ | .nothing => worldStateGetAccount host ws probe

def slotAfter (change : Change) (probe : Address) (key : Hash) : Word :=
  match change with
  | .store addr slot value =>
    if probe = addr ∧ key = slotToKey host slot ∧ TrieRoom host ws addr then value
    else slotAt host ws probe key
  | .delete addr => if probe = addr then uint256Zero else slotAt host ws probe key
  | .account _ _ _ | .root | .nothing => slotAt host ws probe key

def codeAfter : Change → AList fun _ : Address => Bytes
  | .account addr _ (some code) =>
    insertNew (host.tables codeEntry) ws.codeStore addr (storedCode host code)
  | .delete addr => ws.codeStore.erase addr
  | .account _ _ none | .store _ _ _ | .root | .nothing => ws.codeStore

def hasTrieAfter (change : Change) (probe : Address) : Prop :=
  match change with
  | .store addr _ _ => probe = addr ∧ TrieRoom host ws addr ∨ probe ∈ ws.storageTries
  | .delete addr => probe ≠ addr ∧ probe ∈ ws.storageTries
  | .account _ _ _ | .root | .nothing => probe ∈ ws.storageTries

def dirtyAfter : Change → List Address
  | .store addr _ _ => insertSet (host.tables addressEntry) ws.dirtyStorage addr
  | .root => []
  | .account _ _ _ | .delete _ | .nothing => ws.dirtyStorage

end Effects

variable {addr : Address}

section Accounts

/-- Seen through addresses whose keys differ, a write to one account is just that. -/
theorem getAccount_update (hinj : Set.InjOn (addressToKey host) addrs) (haddr : addr ∈ addrs)
    {value : Option Account}
    (hupdate : accountAt host ws' =
      Function.update (accountAt host ws) (addressToKey host addr) value) {probe : Address}
    (hprobe : probe ∈ addrs) :
    worldStateGetAccount host ws' probe =
      if probe = addr then value else worldStateGetAccount host ws probe := by
  rw [worldStateGetAccount_eq, hupdate, Function.update_apply, worldStateGetAccount_eq]
  simp only [hinj.eq_iff hprobe haddr]

variable [harena : OnArena host]

theorem setAccount_effect (h : AccountsIn host ws addrs) (haddr : addr ∈ addrs) (acc : Account) :
    AccountsIn host (worldStateSetAccount host ws addr acc).2 addrs ∧
      accountAt host (worldStateSetAccount host ws addr acc).2 =
        Function.update (accountAt host ws) (addressToKey host addr)
          (if accountIsEmpty acc then none else some acc) := by
  obtain ⟨hwell, hupdate⟩ := worldStateSetAccount_spec h.wellFormed addr acc
  exact ⟨h.update haddr hwell hupdate, hupdate⟩

theorem deleteAccount_effect (h : AccountsIn host ws addrs) (haddr : addr ∈ addrs) :
    AccountsIn host (wsDeleteAccount host ws addr) addrs ∧
      accountAt host (wsDeleteAccount host ws addr) =
        Function.update (accountAt host ws) (addressToKey host addr) none := by
  obtain ⟨t, hrep, htree⟩ := h.wellFormed.tree
  have hkey : (NibbleFormat.toNibbles (addressToKey host addr).bytes).length ≤ 65536 := by
    rw [keyNibbles_length]
    omega
  have hdelete := (hrep.delete harena.supply htree.fits hkey).1
  have hupdate : accountAt host (wsDeleteAccount host ws addr) =
      Function.update (accountAt host ws) (addressToKey host addr) none := by
    funext key
    rw [accountAt_eq hdelete, lookup_erase, Function.update_apply, accountAt_eq hrep]
    simp only [keyNibbles_inj]
    split <;> rfl
  exact ⟨h.update haddr ⟨_, hdelete, htree.erase _⟩ hupdate, hupdate⟩

end Accounts

section Storage

variable [harena : OnArena host]

section

variable (h : StorageIn host ws addrs slots)
include h

/-- The storage trie of one address is replaced. -/
theorem storageIn_replaced {trie : Option Backend} (words : Hash → Word)
    (hlookup : ∀ probe, ws'.storageTries.lookup probe =
      if probe = addr then trie else ws.storageTries.lookup probe)
    (hsome : ∀ storage, trie = some storage →
      addr ∈ addrs ∧ Holds host slotBytes storage fun key => present (words key))
    (hnone : trie = none → ∀ key, words key = uint256Zero)
    (hkeys : ∀ key, words key ≠ uint256Zero → ∃ slot ∈ slots, key = slotToKey host slot) :
    StorageIn host ws' addrs slots ∧ ∀ probe key, slotAt host ws' probe key =
      if probe = addr then words key else slotAt host ws probe key := by
  apply storageIn_of_words
  · intro probe storage hstorage
    rw [hlookup] at hstorage
    by_cases hprobe : probe = addr
    · rw [if_pos hprobe] at hstorage
      simp only [hprobe, if_true]
      exact hsome storage hstorage
    · rw [if_neg hprobe] at hstorage
      simp only [hprobe, if_false]
      exact ⟨h.addresses probe storage hstorage, h.holds probe storage hstorage⟩
  · intro probe hmissing key
    rw [hlookup] at hmissing
    split at hmissing
    · next hprobe =>
      rw [if_pos hprobe]
      exact hnone hmissing key
    · next hprobe =>
      rw [if_neg hprobe]
      exact slotAt_of_none hmissing key
  · intro probe key hne
    split at hne
    · exact hkeys key hne
    · exact h.keys probe key hne

theorem setStorage_effect (haddr : addr ∈ addrs) {slot : Word} (hslot : slot ∈ slots)
    (value : Word) :
    StorageIn host (wsSetStorage host ws addr slot value) addrs slots ∧
      ∀ probe key, slotAt host (wsSetStorage host ws addr slot value) probe key =
        slotAfter host ws (.store addr slot value) probe key := by
  by_cases hroom : TrieRoom host ws addr
  case neg =>
    have htries := setStorage_refused host ws hroom slot value
    refine ⟨h.congr htries, fun probe key => ?_⟩
    rw [slotAfter, if_neg fun hall => hroom hall.2.2]
    exact slotAt_congr (by rw [htries]) key
  have hwrite := holds_writeSlot (h.holds_getD addr) slot value
  have hlookup := setStorage_lookup host ws addr slot value
  simp only [hroom, and_true] at hlookup
  obtain ⟨hstorage, hwords⟩ := storageIn_replaced h _ hlookup
    (fun storage hsome => ⟨haddr, Option.some.inj hsome ▸ hwrite⟩) (fun hnone => by cases hnone)
    fun key hne => by
      by_cases hkey : key = slotToKey host slot
      · exact ⟨slot, hslot, hkey⟩
      · rw [Function.update_of_ne hkey] at hne
        exact h.keys addr key hne
  refine ⟨hstorage, fun probe key => (hwords probe key).trans ?_⟩
  by_cases hprobe : probe = addr
  · simp only [slotAfter, hprobe, hroom, if_true, true_and, and_true, Function.update_apply]
  · simp only [slotAfter, hprobe, if_false, false_and]

theorem deleteStorage_effect (addr : Address) :
    StorageIn host (wsDeleteAccount host ws addr) addrs slots ∧
      ∀ probe key, slotAt host (wsDeleteAccount host ws addr) probe key =
        slotAfter host ws (.delete addr) probe key := by
  have hlookup : ∀ probe, (wsDeleteAccount host ws addr).storageTries.lookup probe =
      if probe = addr then none else ws.storageTries.lookup probe := by
    intro probe
    by_cases hprobe : probe = addr
    · rw [if_pos hprobe, hprobe]
      exact AList.lookup_erase _ _
    · rw [if_neg hprobe]
      exact AList.lookup_erase_ne hprobe
  exact storageIn_replaced h (fun _ => uint256Zero) hlookup (fun _ hsome => by cases hsome)
    (fun _ _ => rfl) fun _ hne => absurd rfl hne

end

end Storage

section Roots

theorem refresh_eq (h : rootAt host ws' = rootAt host ws) :
    refresh host ws' = refresh host ws := by
  funext addr acc
  rw [refresh, h, refresh]

theorem refresh_refresh (addr : Address) (acc : Account) :
    refresh host ws addr (refresh host ws addr acc) = refresh host ws addr acc := by
  unfold refresh
  cases rootAt host ws addr <;> rfl

theorem accountIsEmpty_refresh (addr : Address) (acc : Account) :
    accountIsEmpty (refresh host ws addr acc) = accountIsEmpty acc := by
  unfold refresh
  cases rootAt host ws addr <;> rfl

theorem codeHash_refresh (addr : Address) (acc : Account) :
    (refresh host ws addr acc).codeHash = acc.codeHash := by
  unfold refresh
  cases rootAt host ws addr <;> rfl

theorem updateStorageRoot_none (h : ws.storageTries.lookup addr = none) :
    updateStorageRoot host ws addr = ws := by
  rw [updateStorageRoot, h]

theorem updateStorageRoot_some {storage : Backend}
    (h : ws.storageTries.lookup addr = some storage) :
    updateStorageRoot host ws addr =
      (worldStateSetAccount host
        { ws with storageTries := ws.storageTries.insert addr (mptRootHash host storage).2 } addr
        (refresh host ws addr (accountOrEmpty host ws addr))).2 := by
  have hroot : rootAt host ws addr = some (mptRootHash host storage).1 := by
    rw [rootAt, h, Option.map_some]
  rw [updateStorageRoot, h, refresh, hroot]

/-- What bringing one storage root up to date leaves as it is. -/
structure SameWords (host : Host) (ws ws' : World) : Prop where
  words : ∀ addr key, slotAt host ws' addr key = slotAt host ws addr key
  roots : rootAt host ws' = rootAt host ws
  code : ws'.codeStore = ws.codeStore

theorem SameWords.trans {ws₁ ws₂ ws₃ : World} (h : SameWords host ws₁ ws₂)
    (h' : SameWords host ws₂ ws₃) : SameWords host ws₁ ws₃ where
  words addr key := (h'.words addr key).trans (h.words addr key)
  roots := h'.roots.trans h.roots
  code := h'.code.trans h.code

variable [harena : OnArena host]

/-- Keeping the root hash in the cache of a storage trie. -/
theorem cacheRoot_effect (h : StorageIn host ws addrs slots) {storage : Backend}
    (hlookup : ws.storageTries.lookup addr = some storage) {mid : World}
    (htries : mid.storageTries = ws.storageTries.insert addr (mptRootHash host storage).2)
    (hcode : mid.codeStore = ws.codeStore) :
    StorageIn host mid addrs slots ∧ SameWords host ws mid := by
  have hstorage := h.holds addr storage hlookup
  have hhashed := hstorage.rootHash entryFits_slot
  have hmid : ∀ probe, mid.storageTries.lookup probe =
      if probe = addr then some (mptRootHash host storage).2
      else ws.storageTries.lookup probe := by
    intro probe
    rw [htries]
    by_cases hprobe : probe = addr
    · rw [if_pos hprobe, hprobe, AList.lookup_insert]
    · rw [if_neg hprobe, AList.lookup_insert_ne hprobe]
  obtain ⟨hstored, hwords⟩ := storageIn_replaced h (slotAt host ws addr) hmid
    (fun trie htrie => ⟨h.addresses addr storage hlookup, Option.some.inj htrie ▸ hhashed⟩)
    (fun hnone => by cases hnone) (h.keys addr)
  refine ⟨hstored, fun probe key => (hwords probe key).trans ?_, ?_, hcode⟩
  · split
    · next hprobe => rw [hprobe]
    · rfl
  funext probe
  rw [rootAt, hmid, rootAt]
  split
  · next hprobe =>
    rw [hprobe, hlookup, Option.map_some, Option.map_some,
      hhashed.rootHash_eq entryFits_slot hstorage]
  · rfl

theorem updateStorageRoot_effect (h : Sound host ws addrs slots) (addr : Address) :
    Sound host (updateStorageRoot host ws addr) addrs slots ∧
      SameWords host ws (updateStorageRoot host ws addr) ∧
      accountAt host (updateStorageRoot host ws addr) =
        Function.update (accountAt host ws) (addressToKey host addr)
          ((accountAt host ws (addressToKey host addr)).map (refresh host ws addr)) := by
  cases hlookup : ws.storageTries.lookup addr with
  | none =>
    have hrefresh : refresh host ws addr = id := by
      funext acc
      rw [refresh, rootAt, hlookup]
      rfl
    rw [updateStorageRoot_none hlookup, hrefresh, Option.map_id_fun, id, Function.update_eq_self]
    exact ⟨h, ⟨fun _ _ => rfl, rfl, rfl⟩, rfl⟩
  | some storage =>
    have haddr := h.storage.addresses addr storage hlookup
    rw [updateStorageRoot_some hlookup]
    generalize hmid : { ws with
      storageTries := ws.storageTries.insert addr (mptRootHash host storage).2 } = mid
    obtain ⟨hstorage, hsame⟩ := @cacheRoot_effect host ws addrs slots addr _ h.storage storage
      hlookup mid (by rw [← hmid]) (by rw [← hmid])
    have htrie : mid.stateTrie = ws.stateTrie := by rw [← hmid]
    generalize hacc : refresh host ws addr (accountOrEmpty host ws addr) = acc
    obtain ⟨haccounts, hupdate⟩ := setAccount_effect (h.accounts.congr htrie) haddr acc
    obtain ⟨htries, hcode, -⟩ := setAccount_fields host mid addr acc
    have hfield : SameWords host mid (worldStateSetAccount host mid addr acc).2 := by
      refine ⟨fun probe key => slotAt_congr (by rw [htries]) key, ?_, hcode⟩
      funext probe
      rw [rootAt, htries, rootAt]
    refine ⟨⟨haccounts, hstorage.congr htries⟩, hsame.trans hfield, ?_⟩
    rw [hupdate, accountAt_congr htrie]
    congr 1
    -- an account that is not there stays away, as the storage root does not count
    rw [← hacc, accountIsEmpty_refresh, accountOrEmpty, worldStateGetAccount_eq]
    cases hat : accountAt host ws (addressToKey host addr) with
    | none => rfl
    | some old =>
      have hold := (h.accounts.wellFormed.get (addressToKey host addr)).2 old hat
      simp only [Option.getD_some, Option.map_some, hold, Bool.false_eq_true, if_false]

/-- The loop of `world_state_root`: every account in the list gets the root hash of its
storage trie. -/
theorem updateStorageRoots_effect (hinj : Set.InjOn (addressToKey host) addrs)
    (h : Sound host ws addrs slots) (pending : List Address) :
    Sound host (pending.foldl (updateStorageRoot host) ws) addrs slots ∧
      SameWords host ws (pending.foldl (updateStorageRoot host) ws) ∧
      ∀ probe ∈ addrs, worldStateGetAccount host (pending.foldl (updateStorageRoot host) ws) probe =
        if probe ∈ pending then (worldStateGetAccount host ws probe).map (refresh host ws probe)
        else worldStateGetAccount host ws probe := by
  induction pending generalizing ws with
  | nil => exact ⟨h, ⟨fun _ _ => rfl, rfl, rfl⟩, fun probe _ => by simp⟩
  | cons addr rest ih =>
    obtain ⟨hsound, hsame, hupdate⟩ := updateStorageRoot_effect h addr
    obtain ⟨hrest, hsameRest, haccounts⟩ := ih hsound
    refine ⟨hrest, hsame.trans hsameRest, ?_⟩
    intro probe hprobe
    have hone : worldStateGetAccount host (updateStorageRoot host ws addr) probe =
        if probe = addr then (worldStateGetAccount host ws probe).map (refresh host ws probe)
        else worldStateGetAccount host ws probe := by
      by_cases haddr : addr ∈ addrs
      · rw [getAccount_update hinj haddr hupdate hprobe]
        split
        · next heq => rw [heq, worldStateGetAccount_eq]
        · rfl
      · have hnone : ws.storageTries.lookup addr = none := by
          by_contra hsome
          obtain ⟨storage, hstorage⟩ := Option.ne_none_iff_exists'.mp hsome
          exact haddr (h.storage.addresses addr storage hstorage)
        rw [updateStorageRoot_none hnone, if_neg (by rintro rfl; exact haddr hprobe)]
    have htwice : refresh host ws probe ∘ refresh host ws probe = refresh host ws probe :=
      funext fun acc => refresh_refresh probe acc
    rw [List.foldl_cons, haccounts probe hprobe, hone, refresh_eq hsame.roots]
    by_cases heq : probe = addr
    · simp only [heq, List.mem_cons_self, if_true, Option.map_map] at htwice ⊢
      rw [htwice, ite_self]
    · simp only [heq, if_false, List.mem_cons, false_or]

theorem worldStateRoot_effect (hinj : Set.InjOn (addressToKey host) addrs)
    (h : Sound host ws addrs slots) :
    Sound host (worldStateRoot host ws).2 addrs slots ∧
      SameWords host ws (worldStateRoot host ws).2 ∧
      ∀ probe ∈ addrs, worldStateGetAccount host (worldStateRoot host ws).2 probe =
        accountAfter host ws .root probe := by
  obtain ⟨hsound, hsame, haccounts⟩ := updateStorageRoots_effect hinj h ws.dirtyStorage
  unfold worldStateRoot
  generalize ws.dirtyStorage.foldl (updateStorageRoot host) ws = mid at hsound hsame haccounts
  obtain ⟨t, hrep, htree⟩ := hsound.accounts.wellFormed.tree
  have hroot := (hrep.rootHash harena.supply htree.fits).1
  have haccount : ∀ key, accountAt host { mid with
      dirtyStorage := [], stateTrie := (mptRootHash host mid.stateTrie).2 } key =
      accountAt host mid key :=
    fun key => (accountAt_eq hroot key).trans (accountAt_eq hrep key).symm
  refine ⟨⟨⟨⟨t, hroot, htree⟩, ?_⟩, hsound.storage.congr rfl⟩, ⟨?_, ?_, hsame.code⟩, ?_⟩
  · intro key acc hacc
    exact hsound.accounts.keys key acc (by rw [← haccount]; exact hacc)
  · intro probe key
    exact (slotAt_congr rfl key).trans (hsame.words probe key)
  · exact hsame.roots
  · intro probe hprobe
    rw [worldStateGetAccount_eq]
    exact (haccount _).trans ((worldStateGetAccount_eq probe).symm.trans (haccounts probe hprobe))

end Roots

section Step

theorem mem_storageTries (host : Host) : addr ∈ ws.storageTries ↔ rootAt host ws addr ≠ none := by
  rw [rootAt, Ne, Option.map_eq_none_iff, AList.lookup_eq_none, not_not]

theorem root_dirtyStorage (host : Host) (ws : World) :
    (worldStateRoot host ws).2.dirtyStorage = [] := rfl

theorem withCode_codeStore (host : Host) (ws : World) (addr : Address) (acc : Account)
    (code : Option Bytes) :
    (withCode host ws addr code).codeStore = codeAfter host ws (.account addr acc code) := by
  cases code <;> rfl

/-- What a change does to a world state, seen through the addresses in use. -/
structure Applied (host : Host) (ws : World) (change : Change) (ws' : World)
    (addrs : Set Address) (slots : Set Word) : Prop where
  sound : Sound host ws' addrs slots
  accounts : ∀ probe ∈ addrs,
    worldStateGetAccount host ws' probe = accountAfter host ws change probe
  words : ∀ probe key, slotAt host ws' probe key = slotAfter host ws change probe key
  tries : ∀ probe, probe ∈ ws'.storageTries ↔ hasTrieAfter host ws change probe
  code : ws'.codeStore = codeAfter host ws change
  dirty : ws'.dirtyStorage = dirtyAfter host ws change

variable [harena : OnArena host] (hinj : Set.InjOn (addressToKey host) addrs)
include hinj

theorem applyChange_applied (h : Sound host ws addrs slots) {change : Change}
    (huses : change.Uses addrs slots) :
    Applied host ws change (applyChange host ws change) addrs slots := by
  cases change with
  | account addr acc code =>
    obtain ⟨htrie, htries, hdirty⟩ := withCode_fields host ws addr code
    obtain ⟨htries', hcode', hdirty'⟩ :=
      setAccount_fields host (withCode host ws addr code) addr acc
    obtain ⟨haccounts, hupdate⟩ := setAccount_effect (h.accounts.congr htrie) huses acc
    rw [accountAt_congr htrie] at hupdate
    have hsame : (applyChange host ws (.account addr acc code)).storageTries = ws.storageTries :=
      htries'.trans htries
    exact {
      sound := ⟨haccounts, h.storage.congr hsame⟩
      accounts := fun probe hprobe => getAccount_update hinj huses hupdate hprobe
      words := fun probe key => slotAt_congr (by rw [hsame]) key
      tries := fun probe => by rw [hsame]; rfl
      code := hcode'.trans (withCode_codeStore host ws addr acc code)
      dirty := hdirty'.trans hdirty }
  | store addr slot value =>
    obtain ⟨hstorage, hslot⟩ := setStorage_effect h.storage huses.1 huses.2 value
    obtain ⟨htrie, hcode, hdirty⟩ := setStorage_fields host ws addr slot value
    refine ⟨⟨h.accounts.congr htrie, hstorage⟩, ?_, hslot, ?_, hcode, hdirty⟩
    · intro probe _
      rw [worldStateGetAccount_eq, applyChange, accountAt_congr htrie, ← worldStateGetAccount_eq]
      rfl
    · intro probe
      rw [← not_iff_not, ← AList.lookup_eq_none, applyChange, setStorage_lookup, hasTrieAfter,
        not_or, ← AList.lookup_eq_none]
      split <;> simp [*]
  | delete addr =>
    obtain ⟨haccounts, hupdate⟩ := deleteAccount_effect h.accounts huses
    obtain ⟨hstorage, hslot⟩ := deleteStorage_effect h.storage addr
    refine ⟨⟨haccounts, hstorage⟩,
      fun probe hprobe => getAccount_update hinj huses hupdate hprobe, hslot, ?_, rfl, rfl⟩
    exact fun probe => AList.mem_erase
  | root =>
    obtain ⟨hsound, hsame, haccounts⟩ := worldStateRoot_effect hinj h
    refine ⟨hsound, haccounts, hsame.words, ?_, hsame.code, root_dirtyStorage host ws⟩
    intro probe
    rw [mem_storageTries host, applyChange, hsame.roots, ← mem_storageTries]
    rfl
  | nothing => exact ⟨h, fun _ _ => rfl, fun _ _ => rfl, fun _ => Iff.rfl, rfl, rfl⟩

/-- What a call does to a world state. -/
theorem applyOp_applied (h : Sound host ws addrs slots) (huses : op.Uses addrs slots) :
    Applied host ws (changeOf host ws op) (applyOp host ws op) addrs slots := by
  have hsame := applyOp_sameRecords host ws op
  have happlied := applyChange_applied hinj h (changeOf_uses host ws huses)
  refine ⟨⟨happlied.sound.accounts.congr hsame.stateTrie,
    happlied.sound.storage.congr hsame.storageTries⟩, ?_, ?_, ?_,
    hsame.codeStore.trans happlied.code, hsame.dirtyStorage.trans happlied.dirty⟩
  · intro probe hprobe
    rw [worldStateGetAccount_eq, accountAt_congr hsame.stateTrie, ← worldStateGetAccount_eq]
    exact happlied.accounts probe hprobe
  · intro probe key
    exact (slotAt_congr (by rw [hsame.storageTries]) key).trans (happlied.words probe key)
  · intro probe
    rw [hsame.storageTries]
    exact happlied.tries probe

end Step

section Accounts

/-- An account that is not there reads as the empty one. -/
theorem accountOrEmpty_of_none (h : worldStateGetAccount host ws addr = none) :
    accountOrEmpty host ws addr = accountEmpty := by
  rw [accountOrEmpty, h, Option.getD_none]

theorem accountOrEmpty_of_some {acc : Account} (h : worldStateGetAccount host ws addr = some acc) :
    accountOrEmpty host ws addr = acc := by
  rw [accountOrEmpty, h, Option.getD_some]

theorem wsGetCodeHash_eq (addr : Address) :
    wsGetCodeHash host ws addr = (accountOrEmpty host ws addr).codeHash := by
  unfold wsGetCodeHash accountOrEmpty
  cases worldStateGetAccount host ws addr <;> rfl

variable [harena : OnArena host]

theorem getAccount_of_not_exists (h : AccountsIn host ws addrs)
    (hexists : wsAccountExists host ws addr = false) :
    worldStateGetAccount host ws addr = none := by
  rw [wsAccountExists_eq h.wellFormed, Option.isSome_eq_false_iff, Option.isNone_iff_eq_none]
    at hexists
  rw [worldStateGetAccount_eq, hexists]

/-- An account is written back with its storage root, and with its code hash unless
the call sets the code. -/
theorem changeOf_account (h : AccountsIn host ws addrs) {acc : Account} {code : Option Bytes}
    (hchange : changeOf host ws op = .account addr acc code) :
    acc.storageRoot = (accountOrEmpty host ws addr).storageRoot ∧
      (code = none ∧ acc.codeHash = (accountOrEmpty host ws addr).codeHash ∨
        ∃ bytes, code = some bytes ∧ op = .setCode addr bytes ∧
          acc.codeHash = if bytes.length = 0 then emptyCodeHash else host.keccak256 bytes) := by
  cases op with
  | createContract a =>
    simp only [changeOf] at hchange
    split at hchange
    · cases hchange
    · next hexists =>
      cases hchange
      rw [accountOrEmpty_of_none
        (getAccount_of_not_exists h (Bool.eq_false_iff.mpr hexists))]
      exact ⟨rfl, Or.inl ⟨rfl, rfl⟩⟩
  | setBalance | setNonce =>
    cases hchange
    exact ⟨rfl, Or.inl ⟨rfl, rfl⟩⟩
  | addBalance | incrementNonce =>
    simp only [changeOf] at hchange
    split at hchange
    · cases hchange
    · cases hchange
      exact ⟨rfl, Or.inl ⟨rfl, rfl⟩⟩
  | subBalance a amount =>
    simp only [changeOf] at hchange
    split at hchange
    · cases hchange
    · next old hold =>
      split at hchange
      · cases hchange
      · cases hchange
        rw [accountOrEmpty_of_some hold]
        exact ⟨rfl, Or.inl ⟨rfl, rfl⟩⟩
  | setCode a bytes =>
    cases hchange
    exact ⟨rfl, Or.inr ⟨bytes, rfl, rfl, rfl⟩⟩
  | _ => cases hchange

end Accounts

end Div0.WorldCalls
