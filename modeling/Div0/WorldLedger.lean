import Div0.Ledgers
import Div0.TrieMap
import Div0.WorldState

/-!
What the world state says about balances and nonces. A well-formed state trie holds
the encodings of accounts that are not empty, under keys of 32 bytes. The ledger of a
world state has one account for each such key; it does not matter whether two
addresses share a key. Every operation that writes accounts does so through
`world_state_set_account`, whose effect on the ledger is stated once.
-/

namespace Div0.WorldLedger

open BigEndian NibbleFormat Node Mpt Uint256 Accounts WorldState Ledgers PatriciaTree.Tree
open TrieRefinement TrieMap RlpFormat RlpEncode

noncomputable instance instFintypeHash : Fintype Hash := by
  have hbyte : Finite UInt8 := Finite.of_injective UInt8.toFin fun a b h => UInt8.toFin_inj.mp h
  have hhash : Finite Hash := by
    refine Finite.of_injective (fun (h : Hash) (i : Fin 32) => h.bytes.get (i.cast h.size_eq.symm)) ?_
    intro a b hab
    apply Hash.ext
    apply List.ext_get (a.size_eq.trans b.size_eq.symm)
    intro n ha hb
    exact congrFun hab ⟨n, a.size_eq ▸ ha⟩
  exact Fintype.ofFinite Hash

section Accounts

variable (host : Host) (ws : World)

def accountAt (key : Hash) : Option Account :=
  (mptGet host ws.stateTrie key.bytes).bind accountRlpDecode

def ledger : Ledger Hash where
  balance key := ((accountAt host ws key).map fun acc => acc.balance.toNat).getD 0
  nonce key := ((accountAt host ws key).map fun acc => acc.nonce.toNat).getD 0

theorem ledger_balance (key : Hash) : (ledger host ws).balance key =
    ((accountAt host ws key).map fun acc => acc.balance.toNat).getD 0 := rfl

theorem ledger_nonce (key : Hash) : (ledger host ws).nonce key =
    ((accountAt host ws key).map fun acc => acc.nonce.toNat).getD 0 := rfl

def AccountTree (t : ByteTree) : Prop :=
  ∀ path value, t.lookup path = some value →
    path.length = 64 ∧ ∃ acc, value = accountBytes acc ∧ accountIsEmpty acc = false

/-- The state trie represents a tree of accounts. -/
structure WellFormed : Prop where
  tree : ∃ t, Represents host ws.stateTrie t ∧ AccountTree t

end Accounts

variable {host : Host} {ws : World}

theorem wellFormed_create (host : Host) : WellFormed host worldStateCreate :=
  ⟨nil, Represents.init host, by intro path value h; cases h⟩

/-- The world state is well formed and this is its ledger. -/
structure Shows (host : Host) (ws : World) (l : Ledger Hash) : Prop where
  wellFormed : WellFormed host ws
  ledger_eq : ledger host ws = l

variable {l : Ledger Hash}

theorem WellFormed.shows (h : WellFormed host ws) : Shows host ws (ledger host ws) := ⟨h, rfl⟩

/-- Only the state trie matters. -/
theorem Shows.congr (h : Shows host ws l) {ws' : World} (htrie : ws'.stateTrie = ws.stateTrie) :
    Shows host ws' l := by
  constructor
  · exact ⟨by rw [htrie]; exact h.wellFormed.tree⟩
  · rw [← h.ledger_eq]
    unfold ledger accountAt
    rw [htrie]

theorem worldStateGetAccount_eq (addr : Address) :
    worldStateGetAccount host ws addr = accountAt host ws (addressToKey host addr) := by
  unfold worldStateGetAccount accountAt
  cases mptGet host ws.stateTrie (addressToKey host addr).bytes <;> rfl

/-- An entry of the state trie fits the arena. -/
theorem entryFits_account (acc : Account) : EntryFits (· ≤ 65536) 64 (accountBytes acc) := by
  have hlen := framedBound_mono (accountBytes_length_le acc)
  have hvalue : framedBound 121 = 123 := by decide
  have hpath : framedBound 33 = 35 := by decide
  have hheader : rlpMaxHeaderSize = 9 := rfl
  constructor
  · change 64 ≤ 65536
    omega
  · change rlpMaxHeaderSize + 16 * 33 + framedBound 33 + framedBound (accountBytes acc).length ≤ 65536
    omega

theorem keyLength (key : Hash) : (toNibbles key.bytes).length = 64 := by
  rw [toNibbles_length, key.size_eq]

variable {t : ByteTree}

theorem AccountTree.fits (h : AccountTree t) : TreeFits (· ≤ 65536) t := by
  intro path value hpath
  obtain ⟨hlen, acc, rfl, -⟩ := h path value hpath
  rw [hlen]
  exact entryFits_account acc

variable {acc : Account}

theorem AccountTree.insert (h : AccountTree t) (key : Hash) (hacc : accountIsEmpty acc = false) :
    AccountTree (t.insert (toNibbles key.bytes) (accountBytes acc)) := by
  intro path value hpath
  rw [lookup_insert] at hpath
  split at hpath
  · next heq =>
    cases hpath
    exact ⟨heq ▸ keyLength key, acc, rfl, hacc⟩
  · exact h path value hpath

theorem AccountTree.erase (h : AccountTree t) (key : Hash) :
    AccountTree (t.erase (toNibbles key.bytes)) := by
  intro path value hpath
  rw [lookup_erase] at hpath
  split at hpath
  · cases hpath
  · exact h path value hpath

section Arena

variable [harena : OnArena host]

/-- The account a represented tree holds under a key. -/
theorem accountAt_eq (h : Represents host ws.stateTrie t) (key : Hash) :
    accountAt host ws key = (t.lookup (toNibbles key.bytes)).bind accountRlpDecode := by
  rw [accountAt, (h.get harena.supply (by rw [keyLength]; omega)).1]

/-- What is read from a well-formed state trie is an account that is not empty. -/
theorem WellFormed.get (h : WellFormed host ws) (key : Hash) :
    mptGet host ws.stateTrie key.bytes = (accountAt host ws key).map accountBytes ∧
      ∀ acc, accountAt host ws key = some acc → accountIsEmpty acc = false := by
  obtain ⟨t, hrep, hentries⟩ := h.tree
  rw [accountAt_eq hrep, (hrep.get harena.supply (by rw [keyLength]; omega)).1]
  cases hlookup : t.lookup (toNibbles key.bytes) with
  | none => simp
  | some value =>
    obtain ⟨-, acc, rfl, hnonempty⟩ := hentries _ _ hlookup
    simp [accountRlpDecode_accountBytes, hnonempty]

theorem wsAccountExists_eq (h : WellFormed host ws) (addr : Address) :
    wsAccountExists host ws addr = (accountAt host ws (addressToKey host addr)).isSome := by
  rw [wsAccountExists, (h.get _).1, Option.isSome_map]

/-- `world_state_set_account` writes the account under its key, or removes it. -/
theorem worldStateSetAccount_spec (h : WellFormed host ws) (addr : Address) (acc : Account) :
    WellFormed host (worldStateSetAccount host ws addr acc).2 ∧
      accountAt host (worldStateSetAccount host ws addr acc).2 =
        Function.update (accountAt host ws) (addressToKey host addr)
          (if accountIsEmpty acc then none else some acc) := by
  obtain ⟨t, hrep, htree⟩ := h.tree
  have hkey : (toNibbles (addressToKey host addr).bytes).length ≤ 65536 := by
    rw [keyLength]
    omega
  have hprobe : ∀ key : Hash, key = addressToKey host addr ↔
      toNibbles key.bytes = toNibbles (addressToKey host addr).bytes :=
    fun key => ⟨fun heq => by rw [heq], fun heq => Hash.ext (toNibbles_injective heq)⟩
  unfold worldStateSetAccount
  cases hempty : accountIsEmpty acc with
  | true =>
    have hdelete := (hrep.delete harena.supply htree.fits hkey).1
    refine ⟨⟨_, hdelete, htree.erase _⟩, ?_⟩
    funext key
    simp only [if_true]
    rw [accountAt_eq hdelete, lookup_erase, Function.update_apply, accountAt_eq hrep]
    simp only [hprobe]
    split <;> rfl
  | false =>
    have hencode := accountRlpEncode_eq (harena.supply.grantsUpTo (show 128 ≤ 65536 by omega)) acc
    have hentry : EntryFits (· ≤ 65536) (toNibbles (addressToKey host addr).bytes).length
        (accountBytes acc) := by
      rw [keyLength]
      exact entryFits_account acc
    have hinsert := hrep.insert harena.supply htree.fits hentry
    simp only [hencode]
    refine ⟨⟨_, hinsert, htree.insert _ hempty⟩, ?_⟩
    funext key
    simp only [Bool.false_eq_true, if_false]
    rw [accountAt_eq hinsert, lookup_insert, Function.update_apply, accountAt_eq hrep]
    simp only [hprobe]
    split
    · exact accountRlpDecode_accountBytes acc
    · rfl

/-- The effect of `world_state_set_account` on the ledger; an account that is removed
holds nothing and has sent nothing. -/
theorem Shows.setAccount (h : Shows host ws l) (addr : Address) (acc : Account) :
    Shows host (worldStateSetAccount host ws addr acc).2
      ⟨Function.update l.balance (addressToKey host addr) acc.balance.toNat,
        Function.update l.nonce (addressToKey host addr) acc.nonce.toNat⟩ := by
  obtain ⟨hwf, haccounts⟩ := worldStateSetAccount_spec h.wellFormed addr acc
  refine ⟨hwf, ?_⟩
  have hempty : accountIsEmpty acc = true → acc.balance.toNat = 0 ∧ acc.nonce.toNat = 0 := by
    intro hacc
    obtain ⟨hnonce, hbalance, -⟩ := (accountIsEmpty_iff acc).mp hacc
    exact ⟨hbalance, by rw [hnonce]; rfl⟩
  rw [← h.ledger_eq]
  unfold ledger
  rw [haccounts]
  congr 1
  all_goals
    funext key
    simp only [Function.update_apply]
    split
    · split
      · next hacc => simp [hempty hacc]
      · rfl
    · rfl

end Arena

section Reading

theorem wsGetBalance_eq (addr : Address) :
    wsGetBalance host ws addr = (accountOrEmpty host ws addr).balance := by
  unfold wsGetBalance accountOrEmpty
  cases worldStateGetAccount host ws addr <;> rfl

theorem wsGetNonce_eq (addr : Address) :
    wsGetNonce host ws addr = (accountOrEmpty host ws addr).nonce := by
  unfold wsGetNonce accountOrEmpty
  cases worldStateGetAccount host ws addr <;> rfl

variable (h : Shows host ws l) (addr : Address)
include h

theorem Shows.balance_eq :
    (accountOrEmpty host ws addr).balance.toNat = l.balance (addressToKey host addr) := by
  rw [← h.ledger_eq, accountOrEmpty, worldStateGetAccount_eq, ledger_balance]
  cases accountAt host ws (addressToKey host addr) <;> rfl

theorem Shows.nonce_eq :
    (accountOrEmpty host ws addr).nonce.toNat = l.nonce (addressToKey host addr) := by
  rw [← h.ledger_eq, accountOrEmpty, worldStateGetAccount_eq, ledger_nonce]
  cases accountAt host ws (addressToKey host addr) <;> rfl

end Reading

section Writing

variable [harena : OnArena host] (h : Shows host ws l) (addr : Address)
include h

/-- Writing back the account that is there with a new balance. -/
theorem Shows.setBalance (hnonce : acc.nonce.toNat = l.nonce (addressToKey host addr))
    (balance : Word) :
    Shows host (worldStateSetAccount host ws addr { acc with balance := balance }).2
      { l with balance := Function.update l.balance (addressToKey host addr) balance.toNat } := by
  have hset := h.setAccount addr { acc with balance := balance }
  rwa [hnonce, Function.update_eq_self] at hset

/-- Writing back the account that is there with a new nonce. -/
theorem Shows.setNonce (hbalance : acc.balance.toNat = l.balance (addressToKey host addr))
    (nonce : UInt64) :
    Shows host (worldStateSetAccount host ws addr { acc with nonce := nonce }).2
      (l.sign (addressToKey host addr) nonce.toNat) := by
  have hset := h.setAccount addr { acc with nonce := nonce }
  rwa [hbalance, Function.update_eq_self] at hset

/-- Writing back an account that differs in other fields only. -/
theorem Shows.setOther (hbalance : acc.balance.toNat = l.balance (addressToKey host addr))
    (hnonce : acc.nonce.toNat = l.nonce (addressToKey host addr)) :
    Shows host (worldStateSetAccount host ws addr acc).2 l := by
  have hset := h.setAccount addr acc
  rwa [hbalance, hnonce, Function.update_eq_self, Function.update_eq_self] at hset

/-- `ws_add_balance` is a deposit, refused when the balance would overflow. -/
theorem Shows.addBalance (amount : Word) :
    Shows host (wsAddBalance host ws addr amount).2
      (l.deposit (2 ^ 256) (addressToKey host addr) amount.toNat) := by
  have hbalance := h.balance_eq addr
  have hlt := amount.toNat_lt
  have hsum := toNat_add (accountOrEmpty host ws addr).balance amount
  have hold := (accountOrEmpty host ws addr).balance.toNat_lt
  rw [hbalance] at hsum hold
  unfold wsAddBalance Ledger.deposit
  by_cases hfit : l.balance (addressToKey host addr) + amount.toNat < 2 ^ 256
  · rw [Nat.mod_eq_of_lt hfit] at hsum
    have hkept : ¬uint256Lt (uint256Add (accountOrEmpty host ws addr).balance amount)
        (accountOrEmpty host ws addr).balance = true := by
      rw [lt_iff, hsum, hbalance]
      omega
    have hset := h.setBalance addr (h.nonce_eq addr)
      (uint256Add (accountOrEmpty host ws addr).balance amount)
    rw [hsum] at hset
    simp only [if_neg hkept, if_pos hfit]
    exact hset
  · have hwraps : uint256Lt (uint256Add (accountOrEmpty host ws addr).balance amount)
        (accountOrEmpty host ws addr).balance = true := by
      rw [lt_iff, hsum, hbalance]
      omega
    simp only [if_pos hwraps, if_neg hfit]
    exact h

/-- `ws_sub_balance` is a withdrawal, refused when there is not enough. -/
theorem Shows.subBalance (amount : Word) :
    (wsSubBalance host ws addr amount).1 =
        decide (amount.toNat ≤ l.balance (addressToKey host addr)) ∧
      Shows host (wsSubBalance host ws addr amount).2
        (l.withdraw (addressToKey host addr) amount.toNat) := by
  have hbalance := h.balance_eq addr
  have hnonce := h.nonce_eq addr
  unfold accountOrEmpty at hbalance hnonce
  unfold wsSubBalance Ledger.withdraw
  cases hget : worldStateGetAccount host ws addr with
  | none =>
    -- nothing can be taken from an account that does not exist
    rw [hget] at hbalance
    have hnone : l.balance (addressToKey host addr) = 0 := hbalance.symm
    rw [hnone]
    by_cases hzero : amount.toNat = 0
    · rw [if_pos (Nat.le_of_eq hzero), hzero, Ledger.debit_zero]
      exact ⟨(isZero_iff amount).mpr hzero, h⟩
    · rw [if_neg (by omega)]
      have hpos : uint256IsZero amount = false :=
        Bool.eq_false_iff.mpr fun hz => hzero ((isZero_iff amount).mp hz)
      exact ⟨by rw [hpos]; symm; exact decide_eq_false (by omega), h⟩
  | some acc =>
    rw [hget, Option.getD_some] at hbalance hnonce
    have hlt := acc.balance.toNat_lt
    by_cases hle : amount.toNat ≤ l.balance (addressToKey host addr)
    · have hdiff : (uint256Sub acc.balance amount).toNat =
          l.balance (addressToKey host addr) - amount.toNat := by
        rw [toNat_sub, hbalance]
        omega
      have henough : ¬uint256Lt acc.balance amount = true := by
        rw [lt_iff, hbalance]
        omega
      have hset := h.setBalance addr hnonce (uint256Sub acc.balance amount)
      rw [hdiff] at hset
      simp only [if_neg henough, if_pos hle]
      exact ⟨(decide_eq_true hle).symm, hset⟩
    · have hshort : uint256Lt acc.balance amount = true := by
        rw [lt_iff, hbalance]
        omega
      simp only [if_pos hshort, if_neg hle]
      exact ⟨(decide_eq_false hle).symm, h⟩

/-- `ws_increment_nonce` counts up below the limit and writes nothing from there on. -/
theorem Shows.incrementNonce :
    (wsIncrementNonce host ws addr).1 = wsGetNonce host ws addr ∧
      Shows host (wsIncrementNonce host ws addr).2
        (if l.nonce (addressToKey host addr) < 2 ^ 64 - 2 then
          l.sign (addressToKey host addr) (l.nonce (addressToKey host addr) + 1) else l) := by
  have hnonce := h.nonce_eq addr
  have hlimit : (accountOrEmpty host ws addr).nonce ≥ 0xffffffffffffffff - 1 ↔
      ¬l.nonce (addressToKey host addr) < 2 ^ 64 - 2 := by
    rw [← hnonce, ge_iff_le, UInt64.le_iff_toNat_le, not_lt]
    rfl
  rw [wsGetNonce_eq]
  unfold wsIncrementNonce
  by_cases hmax : l.nonce (addressToKey host addr) < 2 ^ 64 - 2
  · simp only [if_neg fun hge => hlimit.mp hge hmax, if_pos hmax]
    have hsucc : ((accountOrEmpty host ws addr).nonce + 1).toNat =
        l.nonce (addressToKey host addr) + 1 := by
      rw [UInt64.toNat_add, hnonce, UInt64.toNat_one]
      omega
    have hset := h.setNonce addr (h.balance_eq addr) ((accountOrEmpty host ws addr).nonce + 1)
    rw [hsucc] at hset
    exact ⟨trivial, hset⟩
  · simp only [if_pos (hlimit.mpr hmax), if_neg hmax]
    exact ⟨trivial, h⟩

/-- `ws_create_contract` gives an account that does not exist the nonce one. -/
theorem Shows.createContract :
    ∃ nonce, l.nonce (addressToKey host addr) ≤ nonce ∧
      (0 < l.nonce (addressToKey host addr) → nonce = l.nonce (addressToKey host addr)) ∧
      Shows host (wsCreateContract host ws addr) (l.sign (addressToKey host addr) nonce) := by
  unfold wsCreateContract
  cases hexists : wsAccountExists host ws addr with
  | true =>
    refine ⟨l.nonce (addressToKey host addr), le_rfl, fun _ => rfl, ?_⟩
    rw [Ledger.sign_self]
    exact h
  | false =>
    have hbalance := h.balance_eq addr
    have hnonce := h.nonce_eq addr
    rw [wsAccountExists_eq h.wellFormed, Option.isSome_eq_false_iff, Option.isNone_iff_eq_none]
      at hexists
    rw [accountOrEmpty, worldStateGetAccount_eq, hexists, Option.getD_none] at hbalance hnonce
    have hzero : l.nonce (addressToKey host addr) = 0 := hnonce.symm
    exact ⟨1, by omega, fun hpos => by omega, h.setNonce addr hbalance 1⟩

/-- `ws_set_code` leaves balance and nonce alone. -/
theorem Shows.setCode (code : Bytes) : Shows host (wsSetCode host ws addr code) l := by
  have hstored : ∀ store, Shows host { ws with codeStore := store } l := fun _ => h.congr rfl
  exact (hstored _).setOther addr ((hstored _).balance_eq addr) ((hstored _).nonce_eq addr)

end Writing

section Root

variable [harena : OnArena host]

theorem Shows.updateStorageRoot (h : Shows host ws l) (addr : Address) :
    Shows host (updateStorageRoot host ws addr) l := by
  unfold WorldState.updateStorageRoot
  cases ws.storageTries.lookup addr with
  | none => exact h
  | some storage =>
    have hhashed : ∀ tries, Shows host { ws with storageTries := tries } l := fun _ => h.congr rfl
    exact (hhashed _).setOther addr (h.balance_eq addr) (h.nonce_eq addr)

theorem Shows.updateStorageRoots (h : Shows host ws l) (addrs : List Address) :
    Shows host (addrs.foldl (WorldState.updateStorageRoot host) ws) l := by
  induction addrs generalizing ws with
  | nil => exact h
  | cons addr rest ih => exact ih (h.updateStorageRoot addr)

/-- Computing the state root leaves the ledger alone. -/
theorem Shows.root (h : Shows host ws l) : Shows host (worldStateRoot host ws).2 l := by
  have hdirty := h.updateStorageRoots ws.dirtyStorage
  obtain ⟨t, hrep, htree⟩ := hdirty.wellFormed.tree
  have hroot := (hrep.rootHash harena.supply htree.fits).1
  refine ⟨⟨t, hroot, htree⟩, ?_⟩
  rw [← hdirty.ledger_eq]
  unfold ledger
  have haccounts : ∀ key, accountAt host (worldStateRoot host ws).2 key =
      accountAt host (ws.dirtyStorage.foldl (WorldState.updateStorageRoot host) ws) key :=
    fun key => (accountAt_eq hroot key).trans (accountAt_eq hrep key).symm
  simp only [haccounts]

end Root

section Other

variable (h : Shows host ws l)
include h

theorem Shows.warmAddress (addr : Address) : Shows host (wsWarmAddress host ws addr).2 l := by
  unfold wsWarmAddress
  split
  · exact h
  · exact h.congr rfl

theorem Shows.warmSlot (addr : Address) (slot : Word) :
    Shows host (wsWarmSlot host ws addr slot).2 l := by
  unfold wsWarmSlot
  split
  · exact h
  · exact h.congr rfl

theorem Shows.setStorage (addr : Address) (slot value : Word) :
    Shows host (wsSetStorage host ws addr slot value) l := by
  have horiginal : (recordOriginal host ws addr slot).stateTrie = ws.stateTrie := by
    unfold recordOriginal
    split <;> rfl
  have hthrough : ∀ ws : World, (writeThrough host ws addr slot value).stateTrie =
      ws.stateTrie := by
    intro ws
    unfold writeThrough worldStateGetStorageTrie
    cases ws.storageTries.lookup addr <;> dsimp only <;> split <;> rfl
  exact h.congr ((hthrough _).trans horiginal)

theorem Shows.beginTransaction : Shows host (wsBeginTransaction ws) l := h.congr rfl

theorem Shows.snapshot : Shows host (wsSnapshot ws).2 l := h.congr rfl

end Other

section Interface

/-- The interface shows the same balances, nonces, code and storage. -/
structure SameAccounts (host : Host) (ws ws' : World) : Prop where
  balance : ∀ addr, wsGetBalance host ws' addr = wsGetBalance host ws addr
  nonce : ∀ addr, wsGetNonce host ws' addr = wsGetNonce host ws addr
  code : ∀ addr, wsGetCode ws' addr = wsGetCode ws addr
  codeHash : ∀ addr, wsGetCodeHash host ws' addr = wsGetCodeHash host ws addr
  storage : ∀ addr slot, wsGetStorage host ws' addr slot = wsGetStorage host ws addr slot

theorem sameAccounts_of_stores {ws' : World} (htrie : ws'.stateTrie = ws.stateTrie)
    (hstorage : ws'.storageTries = ws.storageTries) (hcode : ws'.codeStore = ws.codeStore) :
    SameAccounts host ws ws' := by
  have haccount : ∀ addr, worldStateGetAccount host ws' addr = worldStateGetAccount host ws addr :=
    fun addr => by rw [worldStateGetAccount, htrie, worldStateGetAccount]
  constructor
  · exact fun addr => by rw [wsGetBalance, haccount, wsGetBalance]
  · exact fun addr => by rw [wsGetNonce, haccount, wsGetNonce]
  · exact fun addr => by rw [wsGetCode, hcode, wsGetCode]
  · exact fun addr => by rw [wsGetCodeHash, haccount, wsGetCodeHash]
  · exact fun addr slot => by rw [wsGetStorage, hstorage, wsGetStorage]

end Interface

end Div0.WorldLedger
