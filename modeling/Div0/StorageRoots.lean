import Div0.StorageHistory

/-!
The root of a storage trie against the one the trie document asks for. The document has
the RLP encoding of a value under the hash of its slot, `ws_set_storage` stores the bytes
of the value without a header. The two agree below 128 only, so the roots do as well,
unless two of the strings that are hashed for them collide. What is written to an address
whose trie the map of the storage tries has refused is lost.
-/

namespace Div0.StorageRoots

open BigEndian Containers RlpTree RlpEncode NibbleFormat Node Mpt Uint256 WorldState WorldStores
open WorldCalls StorageHistory KeyedTries TrieRefinement TrieBinding TrieRoot PatriciaRoot OpEffects
open GasConservation
open TrieMap (markedHash)

section Definitions

variable (host : Host) (writes : List (SlotKey × Word)) (addr : Address)

def storeCalls : List WorldOp := writes.map fun w => .setStorage w.1.addr w.1.slot w.2

def writtenWorld : World := runOps host worldStateCreate (storeCalls writes)

def valueOf (slot : Word) : Word := lastWritten (storeCalls writes) addr slot

/-- The addresses whose storage tries the map takes. -/
def trieAddresses (tables : Growth) (writes : List (SlotKey × Word)) : List Address :=
  insertAll (tables storageTrieEntry) (writes.map fun w => w.1.addr)

def storageTrie : Backend :=
  (worldStateGetStorageTrie host (writtenWorld host writes) addr).1

def liveEntries : List (Hash × NonZero) :=
  (writes.map fun w => w.1.slot).dedup.filterMap fun slot =>
    (present (valueOf writes addr slot)).map fun value => (slotToKey host slot, value)

def rlpValue (value : NonZero) : Bytes := (rlpEncodeUint256 host.alloc value.1).data

def documentEntries : Entries :=
  (liveEntries host writes addr).map fun e => (toNibbles e.1.bytes, rlpValue host e.2)

end Definitions

section Values

/-- The stored bytes are the RLP encoding exactly for values below 128. -/
theorem slotBytes_eq_encodeNat_iff (value : NonZero) :
    slotBytes value = encodeNat value.1.toNat ↔ value.1.toNat < 128 := by
  have hpos := toNat_ne_zero value
  rw [slotBytes_eq]
  constructor
  · intro heq
    by_contra hlarge
    have hlen := byteLength_word_le value.1
    have hlength := congrArg List.length heq
    rw [encodeNat_large (by omega) (by omega), List.length_cons] at hlength
    omega
  · intro hsmall
    have hone : byteLength value.1.toNat = 1 := by
      have hle : byteLength value.1.toNat ≤ 1 := byteLength_le_of_lt_pow (by omega)
      have hbytes := byteLength_pos hpos
      omega
    rw [encodeNat_small (by omega) hsmall, hone]
    simp [toBytes]

variable {host : Host} [harena : OnArena host]

theorem rlpValue_eq (value : NonZero) : rlpValue host value = encodeNat value.1.toNat :=
  rlpEncodeUint256_data (harena.supply.grantsUpTo (show 33 ≤ 65536 by omega)) value.1

theorem rlpValue_length (value : NonZero) :
    0 < (rlpValue host value).length ∧ (rlpValue host value).length ≤ 33 := by
  have hpos := toNat_ne_zero value
  have hlen := byteLength_word_le value.1
  rw [rlpValue_eq]
  by_cases hsmall : value.1.toNat < 128
  · rw [encodeNat_small (by omega) hsmall, List.length_singleton]
    omega
  · rw [encodeNat_large (by omega) (by omega), List.length_cons, toBytes_length]
    omega

theorem entryFits_rlpValue (value : NonZero) : EntryFits (· ≤ 65536) 64 (rlpValue host value) :=
  entryFits_short (rlpValue_length value).2

end Values

section Writes

variable {host : Host} {slots : Set Word} {writes : List (SlotKey × Word)}

theorem storeCalls_concat (w : SlotKey × Word) :
    storeCalls (writes ++ [w]) = storeCalls writes ++ [.setStorage w.1.addr w.1.slot w.2] :=
  List.map_append

theorem writtenWorld_concat (host : Host) (w : SlotKey × Word) :
    writtenWorld host (writes ++ [w]) =
      wsSetStorage host (writtenWorld host writes) w.1.addr w.1.slot w.2 := by
  rw [writtenWorld, storeCalls_concat, runOps_concat]
  rfl

theorem valueOf_concat (w : SlotKey × Word) (addr : Address) (slot : Word) :
    valueOf (writes ++ [w]) addr slot =
      if addr = w.1.addr ∧ slot = w.1.slot then w.2 else valueOf writes addr slot := by
  rw [valueOf, storeCalls_concat, lastWritten, List.foldl_append]
  rfl

/-- A slot that is never written holds nothing. -/
theorem valueOf_eq_zero {addr : Address} {slot : Word}
    (h : ∀ w ∈ writes, ¬(addr = w.1.addr ∧ slot = w.1.slot)) :
    valueOf writes addr slot = uint256Zero := by
  induction writes using List.reverseRecOn with
  | nil => rfl
  | append_singleton writes w ih =>
    rw [List.forall_mem_append] at h
    rw [valueOf_concat, if_neg (h.2 w List.mem_cons_self), ih h.1]

theorem trieAddresses_concat (tables : Growth) (w : SlotKey × Word) :
    trieAddresses tables (writes ++ [w]) =
      insertSet (tables storageTrieEntry) (trieAddresses tables writes) w.1.addr := by
  rw [trieAddresses, List.map_append]
  exact insertAll_concat _ _

/-- The map has the tries of the addresses it takes, and no other. -/
theorem storageTries_keys (host : Host) (writes : List (SlotKey × Word)) :
    (writtenWorld host writes).storageTries.keys.Perm (trieAddresses host.tables writes) := by
  induction writes using List.reverseRecOn with
  | nil => exact .refl _
  | append_singleton writes w ih =>
    have hlength := ih.length_eq
    rw [AList.keys, List.keys, List.length_map] at hlength
    refine (List.perm_ext_iff_of_nodup (AList.keys_nodup _) (nodup_insertAll _)).mpr fun addr => ?_
    change addr ∈ _ ↔ addr ∈ trieAddresses _ _
    have hmem := ih.mem_iff (a := addr)
    rw [← AList.mem_keys] at hmem
    rw [← AList.mem_keys, ← AList.lookup_isSome, writtenWorld_concat, setStorage_lookup,
      trieAddresses_concat, mem_insertSet, ← hlength, ← hmem]
    by_cases heq : addr = w.1.addr
    · subst heq
      by_cases hroom : TrieRoom host (writtenWorld host writes) w.1.addr
      · simpa [hroom] using hroom.symm
      · have hnot := not_or.mp hroom
        simp [hroom, hnot, AList.lookup_eq_none.mpr hnot.1]
    · simp [heq, AList.lookup_isSome]

theorem trieRoom_iff (host : Host) (w : SlotKey × Word) :
    TrieRoom host (writtenWorld host writes) w.1.addr ↔
      w.1.addr ∈ trieAddresses host.tables (writes ++ [w]) := by
  rw [← (storageTries_keys host (writes ++ [w])).mem_iff, ← AList.mem_keys, ← AList.lookup_isSome,
    writtenWorld_concat, setStorage_lookup]
  by_cases hroom : TrieRoom host (writtenWorld host writes) w.1.addr
  · simp [hroom]
  · simp [hroom, AList.lookup_eq_none.mpr (not_or.mp hroom).1]

/-- An address that the map takes only now has not been written to: a map that has refused an
address refuses every later one. -/
theorem unwritten_of_new {tables : Growth} {w : SlotKey × Word}
    (hnew : w.1.addr ∈ trieAddresses tables (writes ++ [w]))
    (hold : w.1.addr ∉ trieAddresses tables writes) (slot : Word) :
    valueOf writes w.1.addr slot = uint256Zero := by
  rw [trieAddresses_concat, mem_insertSet, or_iff_left hold] at hnew
  refine valueOf_eq_zero fun v hv hat => ?_
  have hmem : w.1.addr ∈ writes.map fun w => w.1.addr :=
    List.mem_map.mpr ⟨v, hv, hat.1.symm⟩
  have hfull := room_insertAll_of_refused hmem hold
  rw [trieAddresses, hfull] at hnew
  cases hnew.2

variable [harena : OnArena host] (hslots : Set.InjOn (slotToKey host) slots)
  (hwrites : ∀ w ∈ writes, w.1.slot ∈ slots)
include hslots hwrites

/-- An address in the map reads back what was written to it, and any other one zero. -/
theorem storage_writes :
    StorageIn host (writtenWorld host writes) Set.univ slots ∧
      ∀ addr, ∀ slot ∈ slots, wsGetStorage host (writtenWorld host writes) addr slot =
          if addr ∈ trieAddresses host.tables writes then valueOf writes addr slot
          else uint256Zero := by
  induction writes using List.reverseRecOn with
  | nil => exact ⟨(sound_create host Set.univ slots).storage, fun _ _ _ => rfl⟩
  | append_singleton writes w ih =>
    rw [List.forall_mem_append] at hwrites
    obtain ⟨hstorage, hvalue⟩ := ih hwrites.1
    have hslot := hwrites.2 w List.mem_cons_self
    rw [writtenWorld_concat]
    refine ⟨(setStorage_effect hstorage (Set.mem_univ _) hslot w.2).1, ?_⟩
    intro addr slot hmem
    have hwritten := getStorage_written hslots hstorage (Set.mem_univ w.1.addr) hslot w.2 addr hmem
    simp only [hvalue addr slot hmem, trieRoom_iff] at hwritten
    refine hwritten.trans ?_
    rw [valueOf_concat]
    by_cases heq : addr = w.1.addr
    · subst heq
      by_cases hnew : w.1.addr ∈ trieAddresses host.tables (writes ++ [w])
      · have hold : (if w.1.addr ∈ trieAddresses host.tables writes then
            valueOf writes w.1.addr slot else uint256Zero) = valueOf writes w.1.addr slot :=
          ite_eq_left_iff.mpr fun hnot => (unwritten_of_new hnew hnot slot).symm
        simp only [hnew, and_true, if_true, true_and, hold]
      · have hnot : w.1.addr ∉ trieAddresses host.tables writes := by
          rw [trieAddresses_concat, mem_insertSet, not_or] at hnew
          exact hnew.2
        simp only [hnew, hnot, and_false, if_false]
    · simp only [heq, false_and, if_false, trieAddresses_concat, mem_insertSet, false_or]

variable (addr : Address) (hread : ∀ slot ∈ slots,
  wsGetStorage host (writtenWorld host writes) addr slot = valueOf writes addr slot)
include hread

/-- The entries listed are those of the storage trie. -/
theorem mem_liveEntries (key : Hash) (value : NonZero) :
    (key, value) ∈ liveEntries host writes addr ↔
      present (slotAt host (writtenWorld host writes) addr key) = some value := by
  have hstorage := (storage_writes hslots hwrites).1
  have hwritten : ∀ slot ∈ writes.map fun w => w.1.slot, slot ∈ slots := by
    rw [List.forall_mem_map]
    exact hwrites
  simp only [liveEntries, List.mem_filterMap, List.mem_dedup, Option.map_eq_some_iff,
    Prod.mk.injEq]
  constructor
  · rintro ⟨slot, hslot, v, hv, rfl, rfl⟩
    rw [← wsGetStorage_eq, hread slot (hwritten slot hslot), hv]
  · intro hpresent
    have hne : slotAt host (writtenWorld host writes) addr key ≠ uint256Zero := by
      intro hzero
      rw [hzero, present_zero] at hpresent
      cases hpresent
    obtain ⟨slot, hslot, rfl⟩ := hstorage.keys addr key hne
    rw [← wsGetStorage_eq, hread slot hslot] at hpresent hne
    refine ⟨slot, ?_, value, hpresent, rfl, rfl⟩
    by_contra hnot
    exact hne (valueOf_eq_zero fun w hw hat => hnot (List.mem_map.mpr ⟨w, hw, hat.2.symm⟩))

omit harena hread in
theorem nodup_liveEntries :
    ((liveEntries host writes addr).map Prod.fst).Nodup := by
  have hdistinct : (writes.map fun w => w.1.slot).dedup.Nodup := List.nodup_dedup _
  rw [liveEntries, List.Nodup, List.pairwise_map, List.pairwise_filterMap]
  refine hdistinct.imp_of_mem ?_
  intro slot slot' hslot hslot' hne e he e' he' heq
  obtain ⟨v, -, rfl⟩ := Option.map_eq_some_iff.mp he
  obtain ⟨v', -, rfl⟩ := Option.map_eq_some_iff.mp he'
  have hin : ∀ slot ∈ (writes.map fun w => w.1.slot).dedup, slot ∈ slots := by
    simp only [List.mem_dedup, List.forall_mem_map]
    exact hwrites
  exact hne (hslots (hin slot hslot) (hin slot' hslot') heq)

omit hread in
theorem holds_storageTrie :
    Holds host slotBytes (storageTrie host writes addr) fun key =>
      present (slotAt host (writtenWorld host writes) addr key) := by
  have hholds := (storage_writes hslots hwrites).1.holds_getD addr
  unfold storageTrie worldStateGetStorageTrie
  cases hlookup : (writtenWorld host writes).storageTries.lookup addr with
  | none =>
    rw [hlookup] at hholds
    exact hholds
  | some storage =>
    rw [hlookup] at hholds
    exact hholds

/-- The trie of the document has the root of its entries. -/
theorem documentRoot (hempty : host.keccak256 [0x80] = mptEmptyRoot) :
    (mptRootHash host (trieOf host (rlpValue host) (liveEntries host writes addr))).1.bytes =
      patriciaRoot (hashBytes host.keccak256) (documentEntries host writes addr) := by
  have hmem := mem_liveEntries hslots hwrites addr hread
  have hnodup := nodup_liveEntries hslots hwrites addr
  refine (holds_trieOf entryFits_rlpValue hmem).rootHash_patricia
    entryFits_rlpValue hempty ?_ ?_
  · have hpaths : Function.Injective fun key : Hash => toNibbles key.bytes :=
      fun key key' heq => keyNibbles_inj.mp heq
    have hmapped := hnodup.map hpaths
    rw [List.map_map] at hmapped
    rw [documentEntries, List.map_map]
    exact hmapped
  · intro path value
    simp only [documentEntries, List.mem_map, Prod.mk.injEq, Prod.exists, hmem]
    constructor
    · rintro ⟨key, v, hv, rfl, rfl⟩
      exact ⟨key, v, hv, rfl, rfl⟩
    · rintro ⟨key, v, hv, rfl, rfl⟩
      exact ⟨key, v, hv, rfl, rfl⟩

/-- If no slot holds 128 or more, the bytes stored are the encodings of the document. -/
theorem rootHash_eq_of_small
    (hsmall : ∀ slot ∈ slots, (valueOf writes addr slot).toNat < 128) :
    (mptRootHash host (storageTrie host writes addr)).1 =
      (mptRootHash host (trieOf host (rlpValue host) (liveEntries host writes addr))).1 := by
  have hstorage := (storage_writes hslots hwrites).1
  have hmem := mem_liveEntries hslots hwrites addr hread
  refine Holds.rootHash_eq entryFits_rlpValue
    ((holds_storageTrie hslots hwrites addr).congr ?_)
    (holds_trieOf entryFits_rlpValue hmem)
  intro key v hv
  have hword := present_eq_some.mp hv
  obtain ⟨slot, hslot, rfl⟩ := hstorage.keys addr key (hword ▸ v.2)
  rw [← wsGetStorage_eq, hread slot hslot] at hword
  have hlow := hsmall slot hslot
  rw [hword] at hlow
  exact ((slotBytes_eq_encodeNat_iff v).mpr hlow).trans (rlpValue_eq v).symm

/-- If the roots are the same, no slot holds 128 or more, or two strings collide. -/
theorem small_or_collision (hempty : host.keccak256 [0x80] = mptEmptyRoot)
    (hroot : (mptRootHash host (storageTrie host writes addr)).1 =
      (mptRootHash host (trieOf host (rlpValue host) (liveEntries host writes addr))).1) :
    (∀ slot ∈ slots, (valueOf writes addr slot).toNat < 128) ∨ Collision host.keccak256
      ([0x80] :: (hashedEncodings host (storageTrie host writes addr) ++
        hashedEncodings host (trieOf host (rlpValue host) (liveEntries host writes addr)))) := by
  have hfit := @entryFits_rlpValue host _
  have hdocument : Holds host _ _ _ :=
    holds_trieOf hfit (mem_liveEntries hslots hwrites addr hread)
  refine ((holds_storageTrie hslots hwrites addr).binding entryFits_slot hdocument hfit hempty
    slotBytes_ne_nil (fun v => List.ne_nil_of_length_pos (rlpValue_length v).1) hroot).imp_left ?_
  intro hsame slot hslot
  have hat := hsame (slotToKey host slot)
  rw [← wsGetStorage_eq, hread slot hslot] at hat
  by_cases hzero : valueOf writes addr slot = uint256Zero
  · rw [hzero]
    decide
  · rw [present_of_ne hzero, Option.map_some, Option.map_some, Option.some.injEq,
      rlpValue_eq] at hat
    exact (slotBytes_eq_encodeNat_iff _).mp hat

end Writes

/-- The root of the storage trie of an address is the one of the trie document, and every slot
reads back the value written last, exactly when no value that a slot holds exceeds 127 and the
map of the storage tries takes the address, unless its slots hold nothing. -/
theorem storageRoot_conforms_iff (host : Host) [OnArena host]
    (hempty : host.keccak256 [0x80] = mptEmptyRoot) (slots : Set Word)
    (hslots : Set.InjOn (slotToKey host) slots) (writes : List (SlotKey × Word))
    (hwrites : ∀ w ∈ writes, w.1.slot ∈ slots) (addr : Address)
    (hcollision : ¬Collision host.keccak256
      ([0x80] :: (hashedEncodings host (storageTrie host writes addr) ++
        hashedEncodings host (trieOf host (rlpValue host) (liveEntries host writes addr))))) :
    ((mptRootHash host (storageTrie host writes addr)).1.bytes =
        patriciaRoot (hashBytes host.keccak256) (documentEntries host writes addr) ∧
      ∀ slot ∈ slots,
        wsGetStorage host (writtenWorld host writes) addr slot = valueOf writes addr slot) ↔
      ∀ slot ∈ slots, valueOf writes addr slot ≠ uint256Zero →
        (valueOf writes addr slot).toNat < 128 ∧ addr ∈ trieAddresses host.tables writes := by
  have hstored := (storage_writes hslots hwrites).2 addr
  constructor
  · rintro ⟨hroot, hread⟩ slot hslot hne
    have hdocument := documentRoot hslots hwrites addr hread hempty
    refine ⟨(small_or_collision hslots hwrites addr hread hempty
      (Hash.ext (hroot.trans hdocument.symm))).resolve_right hcollision slot hslot, ?_⟩
    by_contra hlost
    rw [← hread slot hslot, hstored slot hslot] at hne
    exact hne (if_neg hlost)
  · intro hwell
    have hread : ∀ slot ∈ slots,
        wsGetStorage host (writtenWorld host writes) addr slot = valueOf writes addr slot := by
      intro slot hslot
      rw [hstored slot hslot, ite_eq_left_iff]
      intro hlost
      by_contra hne
      exact hlost (hwell slot hslot (Ne.symm hne)).2
    have hsmall : ∀ slot ∈ slots, (valueOf writes addr slot).toNat < 128 := by
      intro slot hslot
      by_cases hzero : valueOf writes addr slot = uint256Zero
      · rw [hzero]
        decide
      · exact (hwell slot hslot hzero).1
    rw [rootHash_eq_of_small hslots hwrites addr hread hsmall]
    exact ⟨documentRoot hslots hwrites addr hread hempty, hread⟩

/-- A map of storage tries in a block of the arena takes 2048 addresses at most. -/
theorem trieAddresses_length_le {tables : Growth} (htables : tables.InBlock 65536)
    (writes : List (SlotKey × Word)) : (trieAddresses tables writes).length ≤ 2048 := by
  refine insertAll_length_le (fun n hroom => ?_) _
  have hblock := htables storageTrieEntry n hroom
  simp only [storageTrieEntry] at hblock
  omega

abbrev markedHost : Host := tabledArena (.packed 65536) markedHash

def oneWrite (value : Word) : List (SlotKey × Word) := [(⟨lowAddress 1, uint256Zero⟩, value)]

theorem oneWrite_distinct :
    ¬Collision markedHash ([0x80] :: (hashedEncodings markedHost
        (storageTrie markedHost (oneWrite (uint256FromU64 127)) (lowAddress 1)) ++
      hashedEncodings markedHost (trieOf markedHost (rlpValue markedHost)
        (liveEntries markedHost (oneWrite (uint256FromU64 127)) (lowAddress 1))))) := by
  decide +kernel

theorem storageRoot_conforms_iff_one :
    (mptRootHash markedHost
        (storageTrie markedHost (oneWrite (uint256FromU64 127)) (lowAddress 1))).1.bytes =
      patriciaRoot (hashBytes markedHash)
        (documentEntries markedHost (oneWrite (uint256FromU64 127)) (lowAddress 1)) :=
  ((storageRoot_conforms_iff markedHost rfl {uint256Zero}
    (Set.injOn_singleton _ _) (oneWrite (uint256FromU64 127)) (by simp [oneWrite]) (lowAddress 1)
    oneWrite_distinct).mpr (by
      rintro slot rfl -
      decide)).1

/-- The value 128 is stored as one byte, where the document asks for two. -/
theorem storageRoot_differs :
    (mptRootHash markedHost
        (storageTrie markedHost (oneWrite (uint256FromU64 128)) (lowAddress 1))).1.bytes ≠
      patriciaRoot (hashBytes markedHash)
        (documentEntries markedHost (oneWrite (uint256FromU64 128)) (lowAddress 1)) := by
  decide +kernel

end Div0.StorageRoots
