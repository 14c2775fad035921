import Div0.KeyedTries
import Div0.WorldLedger

/-!
The stores of a world state. A world state is sound when its state trie holds accounts
and each of its storage tries holds words that are not zero, all under keys of the
addresses and slots in use.
-/

namespace Div0.WorldStores

open BigEndian RlpFormat RlpEncode Node Mpt Uint256 Accounts WorldState PatriciaTree.Tree
open WorldLedger TrieRefinement KeyedTries

section SlotValues

abbrev NonZero := {value : Word // value ≠ uint256Zero}

def slotBytes (value : NonZero) : Bytes :=
  (uint256ToBytesBe value.1).drop ((uint256ToBytesBe value.1).takeWhile (· == 0)).length

/-- A word as an entry of a storage trie: zero is not stored. -/
def present (value : Word) : Option NonZero :=
  if h : value = uint256Zero then none else some ⟨value, h⟩

@[simp] theorem present_zero : present uint256Zero = none := dif_pos rfl

theorem present_of_ne {value : Word} (h : value ≠ uint256Zero) :
    present value = some ⟨value, h⟩ := dif_neg h

theorem present_eq_some {value : Word} {v : NonZero} : present value = some v ↔ value = v.1 := by
  by_cases hzero : value = uint256Zero
  · rw [hzero, present_zero]
    exact iff_of_false (by rintro ⟨⟩) fun h => v.2 h.symm
  · rw [present_of_ne hzero, Option.some.injEq, Subtype.ext_iff]

theorem toNat_ne_zero (value : NonZero) : value.1.toNat ≠ 0 :=
  fun h => value.2 (Word.toNat_injective h)

theorem isZero_eq_true {value : Word} : uint256IsZero value = true ↔ value = uint256Zero := by
  rw [isZero_iff]
  exact ⟨fun h => Word.toNat_injective h, fun h => by rw [h]; rfl⟩

theorem slotBytes_eq (value : NonZero) :
    slotBytes value = toBytes (byteLength value.1.toNat) value.1.toNat := by
  have hvalue := ofBytes_toBytesBe value.1
  rw [slotBytes, drop_leading_zeros (by rw [hvalue]; exact toNat_ne_zero value), hvalue]

theorem byteLength_word_le (value : Word) : byteLength value.toNat ≤ 32 :=
  byteLength_le_of_lt_pow value.toNat_lt

theorem slotBytes_length (value : NonZero) :
    0 < (slotBytes value).length ∧ (slotBytes value).length ≤ 32 := by
  rw [slotBytes_eq, toBytes_length]
  exact ⟨byteLength_pos (toNat_ne_zero value), byteLength_word_le value.1⟩

theorem slotBytes_ne_nil (value : NonZero) : slotBytes value ≠ [] :=
  List.ne_nil_of_length_pos (slotBytes_length value).1

/-- Reading back what was stored. -/
theorem fromBytesBe_slotBytes (value : NonZero) :
    uint256FromBytesBe (slotBytes value) = value.1 := by
  apply Word.toNat_injective
  rw [toNat_fromBytesBe (slotBytes_length value).2, slotBytes_eq, ofBytes_toBytes_byteLength]

/-- A short entry under a key of 32 bytes fits the arena. -/
theorem entryFits_short {value : Bytes} (h : value.length ≤ 33) :
    EntryFits (· ≤ 65536) 64 value := by
  have hlen := framedBound_mono h
  have hvalue : framedBound 33 = 35 := by decide
  have hheader : rlpMaxHeaderSize = 9 := rfl
  constructor
  · change 64 ≤ 65536
    omega
  · change rlpMaxHeaderSize + 16 * 33 + framedBound 33 + framedBound value.length ≤ 65536
    omega

theorem entryFits_slot (value : NonZero) : EntryFits (· ≤ 65536) 64 (slotBytes value) :=
  entryFits_short ((slotBytes_length value).2.trans (by omega))

end SlotValues

section Stores

variable (host : Host) (ws : World)

def slotAt (addr : Address) (key : Hash) : Word :=
  match ws.storageTries.lookup addr with
  | none => uint256Zero
  | some storage =>
    match mptGet host storage key.bytes with
    | none => uint256Zero
    | some value => if value.length = 0 then uint256Zero else uint256FromBytesBe value

theorem wsGetStorage_eq (addr : Address) (slot : Word) :
    wsGetStorage host ws addr slot = slotAt host ws addr (slotToKey host slot) := rfl

/-- The state trie holds accounts of some addresses. -/
structure AccountsIn (addrs : Set Address) : Prop where
  wellFormed : WellFormed host ws
  keys : ∀ key acc, accountAt host ws key = some acc → ∃ addr ∈ addrs, key = addressToKey host addr

/-- The storage tries belong to some addresses and hold words that are not zero in some
slots. -/
structure StorageIn (addrs : Set Address) (slots : Set Word) : Prop where
  holds : ∀ addr storage, ws.storageTries.lookup addr = some storage →
    Holds host slotBytes storage fun key => present (slotAt host ws addr key)
  keys : ∀ addr key, slotAt host ws addr key ≠ uint256Zero →
    ∃ slot ∈ slots, key = slotToKey host slot
  addresses : ∀ addr storage, ws.storageTries.lookup addr = some storage → addr ∈ addrs

/-- The stores of a world state that has been used with some addresses and slots. -/
structure Sound (addrs : Set Address) (slots : Set Word) : Prop where
  accounts : AccountsIn host ws addrs
  storage : StorageIn host ws addrs slots

end Stores

variable {host : Host} {ws ws' : World} {addrs : Set Address} {slots : Set Word}

variable {addr : Address}

theorem slotAt_of_none (h : ws.storageTries.lookup addr = none) (key : Hash) :
    slotAt host ws addr key = uint256Zero := by
  rw [slotAt, h]

theorem slotAt_congr (h : ws'.storageTries.lookup addr = ws.storageTries.lookup addr) (key : Hash) :
    slotAt host ws' addr key = slotAt host ws addr key := by
  rw [slotAt, h, slotAt]

theorem accountAt_congr (h : ws'.stateTrie = ws.stateTrie) :
    accountAt host ws' = accountAt host ws := by
  funext key
  rw [accountAt, h, accountAt]

theorem AccountsIn.congr (h : AccountsIn host ws addrs) (htrie : ws'.stateTrie = ws.stateTrie) :
    AccountsIn host ws' addrs where
  wellFormed := ⟨by rw [htrie]; exact h.wellFormed.tree⟩
  keys := by
    rw [accountAt_congr htrie]
    exact h.keys

/-- Writing or removing the account of one address. -/
theorem AccountsIn.update (h : AccountsIn host ws addrs) (haddr : addr ∈ addrs)
    {value : Option Account} (hwell : WellFormed host ws')
    (hupdate : accountAt host ws' =
      Function.update (accountAt host ws) (addressToKey host addr) value) :
    AccountsIn host ws' addrs where
  wellFormed := hwell
  keys := by
    intro key acc hacc
    rw [hupdate, Function.update_apply] at hacc
    split at hacc
    · next heq => exact ⟨addr, haddr, heq⟩
    · exact h.keys key acc hacc

theorem StorageIn.congr (h : StorageIn host ws addrs slots)
    (htries : ws'.storageTries = ws.storageTries) : StorageIn host ws' addrs slots := by
  have hslot : ∀ addr key, slotAt host ws' addr key = slotAt host ws addr key :=
    fun addr key => slotAt_congr (by rw [htries]) key
  constructor
  · simp only [hslot, htries]
    exact h.holds
  · simp only [hslot]
    exact h.keys
  · rw [htries]
    exact h.addresses

theorem sound_create (host : Host) (addrs : Set Address) (slots : Set Word) :
    Sound host worldStateCreate addrs slots where
  accounts := by
    refine ⟨wellFormed_create host, ?_⟩
    intro key acc h
    exact absurd h (by simp [accountAt, worldStateCreate, mptGet, Backend.init])
  storage := by
    refine ⟨?_, ?_, ?_⟩
    · intro addr storage h
      cases h
    · intro addr key h
      exact absurd (slotAt_of_none rfl key) h
    · intro addr storage h
      cases h

/-- The trie of an address, or a new one, holds its words. -/
theorem StorageIn.holds_getD (h : StorageIn host ws addrs slots) (addr : Address) :
    Holds host slotBytes ((ws.storageTries.lookup addr).getD Backend.init)
      fun key => present (slotAt host ws addr key) := by
  cases hlookup : ws.storageTries.lookup addr with
  | none =>
    simp only [slotAt_of_none hlookup, present_zero]
    exact holds_init host slotBytes
  | some storage => exact h.holds addr storage hlookup

section Tries

variable [OnArena host]

/-- The words read from a trie are those it holds. -/
theorem slotAt_of_holds {storage : Backend} {words : Hash → Word}
    (hlookup : ws.storageTries.lookup addr = some storage)
    (h : Holds host slotBytes storage fun key => present (words key)) (key : Hash) :
    slotAt host ws addr key = words key := by
  rw [slotAt, hlookup]
  dsimp only
  rw [h.get]
  by_cases hzero : words key = uint256Zero
  · rw [hzero, present_zero, Option.map_none]
  · have hlen := (slotBytes_length ⟨words key, hzero⟩).1
    rw [present_of_ne hzero, Option.map_some]
    dsimp only
    rw [if_neg (by omega), fromBytesBe_slotBytes]

/-- `ws_set_storage` on the trie of the address. -/
theorem holds_writeSlot {storage : Backend} {words : Hash → Word}
    (h : Holds host slotBytes storage fun key => present (words key)) (slot value : Word) :
    Holds host slotBytes (writeSlot host storage slot value)
      fun key => present (Function.update words (slotToKey host slot) value key) := by
  have hupdate : (fun key => present (Function.update words (slotToKey host slot) value key)) =
      Function.update (fun key => present (words key)) (slotToKey host slot) (present value) :=
    funext fun key => Function.apply_update (fun _ => present) words _ value key
  rw [hupdate, writeSlot]
  by_cases hzero : value = uint256Zero
  · rw [if_pos (isZero_eq_true.mpr hzero), hzero, present_zero]
    exact h.delete entryFits_slot _
  · rw [if_neg fun hz => hzero (isZero_eq_true.mp hz), present_of_ne hzero]
    exact h.insert entryFits_slot _ ⟨value, hzero⟩

/-- Storage tries that hold these words. -/
theorem storageIn_of_words {words : Address → Hash → Word}
    (hsome : ∀ addr storage, ws'.storageTries.lookup addr = some storage →
      addr ∈ addrs ∧ Holds host slotBytes storage fun key => present (words addr key))
    (hnone : ∀ addr, ws'.storageTries.lookup addr = none → ∀ key, words addr key = uint256Zero)
    (hkeys : ∀ addr key, words addr key ≠ uint256Zero → ∃ slot ∈ slots, key = slotToKey host slot) :
    StorageIn host ws' addrs slots ∧ ∀ addr key, slotAt host ws' addr key = words addr key := by
  have hslot : ∀ addr key, slotAt host ws' addr key = words addr key := by
    intro addr key
    cases hlookup : ws'.storageTries.lookup addr with
    | none => rw [slotAt_of_none hlookup, hnone addr hlookup]
    | some storage => exact slotAt_of_holds hlookup (hsome addr storage hlookup).2 key
  refine ⟨⟨?_, ?_, fun addr storage hlookup => (hsome addr storage hlookup).1⟩, hslot⟩
  · intro addr storage hlookup
    simp only [hslot]
    exact (hsome addr storage hlookup).2
  · intro addr key hkey
    rw [hslot] at hkey
    exact hkeys addr key hkey

end Tries

end Div0.WorldStores
