import Div0.GasConservation
import Div0.WorldCalls

/-!
Original and current values of storage slots over sequences of calls. The original value
of a slot is recorded when it is first written in a transaction; before that the current
value stands for it. Over all calls the EVM and the executor make, the original value is
the value at the last `ws_begin_transaction` and the current value the one written last.
-/

namespace Div0.StorageHistory

open BigEndian CallTraces Containers Node Uint256 Accounts WorldState WorldStores WorldCalls
open OpEffects GasConservation

variable {host : Host} {ws : World} {addrs : Set Address} {slots : Set Word}

/-- The calls the EVM and the executor make: nothing calls `delete_account`. -/
def Issued (op : WorldOp) : Prop := ∀ addr, op ≠ .deleteAccount addr

def writtenBy (addr : Address) (slot old : Word) : WorldOp → Word
  | .setStorage a s value => if addr = a ∧ slot = s then value else old
  | _ => old

/-- With the deletions of accounts. -/
def storedBy (probe : Address) (slot old : Word) : WorldOp → Word
  | .deleteAccount addr => if probe = addr then uint256Zero else old
  | op => writtenBy probe slot old op

theorem storedBy_of_issued {op : WorldOp} (h : Issued op) (probe : Address) (slot old : Word) :
    storedBy probe slot old op = writtenBy probe slot old op := by
  cases op with
  | deleteAccount addr => exact absurd rfl (h addr)
  | _ => rfl

/-- The value the calls have written to a slot last; it was zero at first. -/
def lastWritten (ops : List WorldOp) (addr : Address) (slot : Word) : Word :=
  ops.foldl (writtenBy addr slot) uint256Zero

section Original

variable (host : Host) (ws : World)

theorem setAccount_originalStorage (addr : Address) (acc : Account) :
    (worldStateSetAccount host ws addr acc).2.originalStorage = ws.originalStorage := by
  unfold worldStateSetAccount
  split
  · rfl
  · dsimp only
    split <;> rfl

theorem updateStorageRoots_originalStorage (pending : List Address) :
    (pending.foldl (updateStorageRoot host) ws).originalStorage = ws.originalStorage := by
  induction pending generalizing ws with
  | nil => rfl
  | cons addr rest ih =>
    refine (ih _).trans ?_
    cases hlookup : ws.storageTries.lookup addr with
    | none => rw [updateStorageRoot_none hlookup]
    | some storage =>
      rw [updateStorageRoot_some hlookup]
      exact setAccount_originalStorage host _ addr _

/-- Only a write to storage records an original value. -/
theorem applyOp_originalStorage {op : WorldOp} (hbegin : op ≠ .beginTransaction)
    (hwrite : ∀ addr slot value, op ≠ .setStorage addr slot value) :
    (applyOp host ws op).originalStorage = ws.originalStorage := by
  cases op with
  | createContract | addBalance | incrementNonce =>
    simp only [applyOp, wsCreateContract, wsAddBalance, wsIncrementNonce]
    split
    · rfl
    · exact setAccount_originalStorage ..
  | subBalance addr amount =>
    simp only [applyOp, wsSubBalance]
    split
    · rfl
    · split
      · rfl
      · exact setAccount_originalStorage ..
  | setBalance | setNonce | setCode => exact setAccount_originalStorage ..
  | setStorage addr slot value => exact absurd rfl (hwrite addr slot value)
  | warmAddress | warmSlot =>
    simp only [applyOp, wsWarmAddress, wsWarmSlot]
    split <;> rfl
  | beginTransaction => exact absurd rfl hbegin
  | stateRoot => exact updateStorageRoots_originalStorage host ws ws.dirtyStorage
  | _ => rfl

theorem setStorage_recorded (addr : Address) (slot value : Word) :
    (wsSetStorage host ws addr slot value).originalStorage =
      (recordOriginal host ws addr slot).originalStorage := by
  have hthrough : ∀ ws : World,
      (writeThrough host ws addr slot value).originalStorage = ws.originalStorage := by
    intro ws
    unfold writeThrough worldStateGetStorageTrie
    cases ws.storageTries.lookup addr <;> dsimp only <;> split <;> rfl
  exact hthrough _

/-- The record of original values after a write. -/
theorem setStorage_originalStorage (addr : Address) (slot value : Word) (probe : Address)
    (slot' : Word) :
    (wsSetStorage host ws addr slot value).originalStorage.lookup ⟨probe, slot'⟩ =
      if (probe = addr ∧ slot' = slot) ∧
          HasRoom (host.tables originalEntry) ws.originalStorage ⟨addr, slot⟩ then
        some (wsGetOriginalStorage host ws addr slot)
      else ws.originalStorage.lookup ⟨probe, slot'⟩ := by
  rw [setStorage_recorded, recordOriginal, wsGetOriginalStorage]
  have hkey : (⟨probe, slot'⟩ : SlotKey) = ⟨addr, slot⟩ ↔ probe = addr ∧ slot' = slot :=
    SlotKey.mk.injEq .. ▸ Iff.rfl
  split
  · next hmem =>
    obtain ⟨original, horiginal⟩ := Option.isSome_iff_exists.mp (AList.lookup_isSome.mpr hmem)
    rw [horiginal]
    split
    · next hprobe => rw [hkey.mpr hprobe.1, horiginal]
    · rfl
  · next hmem =>
    simp only [lookup_insertNew, AList.lookup_eq_none.mpr hmem, Option.getD_none, hkey]

end Original

variable {slot : Word}

section Steps

variable [OnArena host] (hslots : Set.InjOn (slotToKey host) slots)
include hslots

/-- A write to storage, seen through slots whose keys differ. -/
theorem getStorage_written (h : StorageIn host ws addrs slots) {addr : Address}
    (haddr : addr ∈ addrs) (hslot : slot ∈ slots) (value : Word) (probe : Address) {slot' : Word}
    (hslot' : slot' ∈ slots) :
    wsGetStorage host (wsSetStorage host ws addr slot value) probe slot' =
      if (probe = addr ∧ slot' = slot) ∧ TrieRoom host ws addr then value
      else wsGetStorage host ws probe slot' := by
  rw [wsGetStorage_eq, (setStorage_effect h haddr hslot value).2, slotAfter, ← wsGetStorage_eq]
  simp only [hslots.eq_iff hslot' hslot, and_assoc]

theorem getStorage_setStorage (h : StorageIn host ws addrs slots) {addr : Address}
    (haddr : addr ∈ addrs) (hroom : TrieRoom host ws addr) (hslot : slot ∈ slots) (value : Word)
    (probe : Address) {slot' : Word} (hslot' : slot' ∈ slots) :
    wsGetStorage host (wsSetStorage host ws addr slot value) probe slot' =
      if probe = addr ∧ slot' = slot then value else wsGetStorage host ws probe slot' := by
  simp only [getStorage_written hslots h haddr hslot value probe hslot', hroom, and_true]

/-- A write does not change an original value: it is recorded by the first one. -/
theorem getOriginalStorage_setStorage (h : StorageIn host ws addrs slots) {addr : Address}
    (haddr : addr ∈ addrs) (hroom : TrieRoom host ws addr)
    (hrecord : HasRoom (host.tables originalEntry) ws.originalStorage ⟨addr, slot⟩)
    (hslot : slot ∈ slots) (value : Word) (probe : Address) {slot' : Word}
    (hslot' : slot' ∈ slots) :
    wsGetOriginalStorage host (wsSetStorage host ws addr slot value) probe slot' =
      wsGetOriginalStorage host ws probe slot' := by
  rw [wsGetOriginalStorage, setStorage_originalStorage]
  by_cases hprobe : probe = addr ∧ slot' = slot
  · rw [if_pos ⟨hprobe, hrecord⟩, hprobe.1, hprobe.2]
  · rw [if_neg fun hboth => hprobe hboth.1,
      getStorage_setStorage hslots h haddr hroom hslot value probe hslot', if_neg hprobe,
      wsGetOriginalStorage]

variable (hinj : Set.InjOn (addressToKey host) addrs)
include hinj

theorem getStorage_applyOp (h : Sound host ws addrs slots) {op : WorldOp}
    (huses : op.Uses addrs slots) (hstored : op.Stored host ws) (probe : Address)
    (hslot : slot ∈ slots) :
    wsGetStorage host (applyOp host ws op) probe slot =
      storedBy probe slot (wsGetStorage host ws probe slot) op := by
  by_cases hwrite : ∃ addr s value, op = .setStorage addr s value
  · obtain ⟨addr, s, value, rfl⟩ := hwrite
    exact getStorage_setStorage hslots h.storage huses.1 hstored huses.2 value probe hslot
  · rw [wsGetStorage_eq, (applyOp_applied hinj h huses).words, wsGetStorage_eq]
    cases op with
    | setStorage addr s value => exact absurd ⟨addr, s, value, rfl⟩ hwrite
    | deleteAccount addr => rfl
    | _ =>
      cases hchange : changeOf host ws _ with
      | store addr s value => cases changeOf_from hchange
      | delete addr => cases changeOf_from hchange
      | _ => rfl

/-- Within a transaction, no call changes an original value. -/
theorem getOriginalStorage_applyOp (h : Sound host ws addrs slots) {op : WorldOp}
    (huses : op.Uses addrs slots) (hissued : Issued op) (hstored : op.Stored host ws)
    (hrecorded : op.Recorded host ws) (hbegin : op ≠ .beginTransaction) (probe : Address)
    (hslot : slot ∈ slots) :
    wsGetOriginalStorage host (applyOp host ws op) probe slot =
      wsGetOriginalStorage host ws probe slot := by
  by_cases hwrite : ∃ addr s value, op = .setStorage addr s value
  · obtain ⟨addr, s, value, rfl⟩ := hwrite
    exact getOriginalStorage_setStorage hslots h.storage huses.1 hstored hrecorded huses.2 value
      probe hslot
  · have hother : ∀ addr s value, op ≠ .setStorage addr s value :=
      fun addr s value heq => hwrite ⟨addr, s, value, heq⟩
    have hcurrent : wsGetStorage host (applyOp host ws op) probe slot =
        wsGetStorage host ws probe slot := by
      rw [getStorage_applyOp hslots hinj h huses hstored probe hslot, storedBy_of_issued hissued]
      cases op with
      | setStorage addr s value => exact absurd rfl (hother addr s value)
      | _ => rfl
    rw [wsGetOriginalStorage, applyOp_originalStorage host ws hbegin hother, hcurrent,
      wsGetOriginalStorage]

end Steps

section Runs

/-- Every write of a run to storage finds room for its address. -/
def AllStored (host : Host) (ws : World) (ops : List WorldOp) : Prop :=
  EachCall (fun before op => op.Stored host (runOps host ws before)) ops

/-- Every write of a run to storage finds room for the original value of its slot. -/
def AllRecorded (host : Host) (ws : World) (ops : List WorldOp) : Prop :=
  EachCall (fun before op => op.Recorded host (runOps host ws before)) ops

theorem allStored_of_roomy [Roomy host] (ws : World) (ops : List WorldOp) :
    AllStored host ws ops :=
  fun _ op _ _ => op.stored_of_roomy host _

theorem runOps_append (host : Host) (ws : World) (ops ops' : List WorldOp) :
    runOps host ws (ops ++ ops') = runOps host (runOps host ws ops) ops' :=
  List.foldl_append ..

theorem runOps_concat (host : Host) (ws : World) (ops : List WorldOp) (op : WorldOp) :
    runOps host ws (ops ++ [op]) = applyOp host (runOps host ws ops) op :=
  runOps_append host ws ops [op]

variable {ops : List WorldOp}

theorem allStored_suffix {before : List WorldOp} (h : AllStored host ws (before ++ ops)) :
    AllStored host (runOps host ws before) ops := by
  intro mid op after hops
  rw [← runOps_append]
  exact h (before ++ mid) op after (by rw [hops, List.append_assoc])

variable [OnArena host] (hinj : Set.InjOn (addressToKey host) addrs)
include hinj

theorem sound_runOps (h : Sound host ws addrs slots) (huses : ∀ op ∈ ops, op.Uses addrs slots) :
    Sound host (runOps host ws ops) addrs slots := by
  induction ops generalizing ws with
  | nil => exact h
  | cons op ops ih =>
    obtain ⟨hop, hops⟩ := List.forall_mem_cons.mp huses
    exact ih (applyOp_applied hinj h hop).sound hops

variable (hslots : Set.InjOn (slotToKey host) slots)
include hslots

/-- The current value is the one written last. -/
theorem getStorage_runOps (h : Sound host ws addrs slots)
    (huses : ∀ op ∈ ops, op.Uses addrs slots) (hstored : AllStored host ws ops) (addr : Address)
    (hslot : slot ∈ slots) :
    wsGetStorage host (runOps host ws ops) addr slot =
      ops.foldl (storedBy addr slot) (wsGetStorage host ws addr slot) := by
  induction ops generalizing ws with
  | nil => rfl
  | cons op ops ih =>
    obtain ⟨hop, hops⟩ := List.forall_mem_cons.mp huses
    obtain ⟨hopStored, hopsStored⟩ := eachCall_cons.mp hstored
    rw [List.foldl_cons, ← getStorage_applyOp hslots hinj h hop hopStored addr hslot]
    exact ih (applyOp_applied hinj h hop).sound hops hopsStored

/-- Calls within a transaction keep the original values. -/
theorem getOriginalStorage_runOps (h : Sound host ws addrs slots)
    (huses : ∀ op ∈ ops, op.Uses addrs slots) (hissued : ∀ op ∈ ops, Issued op)
    (hstored : AllStored host ws ops) (hrecorded : AllRecorded host ws ops)
    (hbegin : .beginTransaction ∉ ops) (addr : Address) (hslot : slot ∈ slots) :
    wsGetOriginalStorage host (runOps host ws ops) addr slot =
      wsGetOriginalStorage host ws addr slot := by
  induction ops generalizing ws with
  | nil => rfl
  | cons op ops ih =>
    obtain ⟨hop, hops⟩ := List.forall_mem_cons.mp huses
    obtain ⟨hopIssued, hopsIssued⟩ := List.forall_mem_cons.mp hissued
    obtain ⟨hopStored, hopsStored⟩ := eachCall_cons.mp hstored
    obtain ⟨hopRecorded, hopsRecorded⟩ := eachCall_cons.mp hrecorded
    obtain ⟨hfirst, hrest⟩ := not_or.mp (mt List.mem_cons.mpr hbegin)
    rw [← getOriginalStorage_applyOp hslots hinj h hop hopIssued hopStored hopRecorded
      (Ne.symm hfirst) addr hslot]
    exact ih (applyOp_applied hinj h hop).sound hops hopsIssued hopsStored hopsRecorded hrest

end Runs

/-- After any calls of the EVM and the executor on a new world state, a slot holds the value
written last, as long as the map of the storage tries has taken every address that was written
to. Its original value is the one it had at the last `begin_transaction`, as long as every slot
written since then has been recorded. -/
theorem storage_history (host : Host) [OnArena host] (addrs : Set Address) (slots : Set Word)
    (hinj : Set.InjOn (addressToKey host) addrs) (hslots : Set.InjOn (slotToKey host) slots)
    (ops : List WorldOp) (huses : ∀ op ∈ ops, op.Uses addrs slots)
    (hissued : ∀ op ∈ ops, Issued op) (hstored : AllStored host worldStateCreate ops)
    (addr : Address) (slot : Word) (hslot : slot ∈ slots) :
    wsGetStorage host (runOps host worldStateCreate ops) addr slot = lastWritten ops addr slot ∧
    ∀ before after, ops = before ++ .beginTransaction :: after → .beginTransaction ∉ after →
      AllRecorded host (runOps host worldStateCreate (before ++ [.beginTransaction])) after →
      wsGetOriginalStorage host (runOps host worldStateCreate ops) addr slot =
        wsGetStorage host (runOps host worldStateCreate before) addr slot := by
  have hsound := sound_create host addrs slots
  refine ⟨?_, ?_⟩
  · rw [getStorage_runOps hinj hslots hsound huses hstored addr hslot, lastWritten]
    exact List.foldl_ext _ _ _ fun old op hop => storedBy_of_issued (hissued op hop) addr slot old
  rintro before after rfl hafter hrecorded
  rw [List.forall_mem_append, List.forall_mem_cons] at huses hissued
  have hbefore := sound_runOps hinj hsound huses.1
  have hbegun := (applyOp_applied hinj hbefore huses.2.1).sound
  rw [runOps_append]
  rw [runOps_concat] at hrecorded
  exact getOriginalStorage_runOps hinj hslots hbegun huses.2.2 hissued.2.2
    (eachCall_cons.mp (allStored_suffix hstored)).2 hrecorded hafter addr hslot

abbrev packedHost : Host := tabledArena (.packed 65536) padded

def twoWrites (before after : Word) : List WorldOp :=
  [.setStorage (lowAddress 1) uint256Zero before, .beginTransaction,
    .setStorage (lowAddress 1) uint256Zero after, .stateRoot]

theorem storage_history_twoWrites :
    wsGetStorage packedHost
        (runOps packedHost worldStateCreate
          (twoWrites (uint256FromU64 5) (uint256FromU64 7))) (lowAddress 1) uint256Zero =
      uint256FromU64 7 ∧
    wsGetOriginalStorage packedHost
        (runOps packedHost worldStateCreate
          (twoWrites (uint256FromU64 5) (uint256FromU64 7))) (lowAddress 1) uint256Zero =
      wsGetStorage packedHost
        (runOps packedHost worldStateCreate
          [.setStorage (lowAddress 1) uint256Zero (uint256FromU64 5)]) (lowAddress 1)
        uint256Zero := by
  have huses : ∀ op ∈ twoWrites (uint256FromU64 5) (uint256FromU64 7),
      op.Uses {lowAddress 1} {uint256Zero} := by
    simp [twoWrites, WorldOp.Uses]
  have hissued : ∀ op ∈ twoWrites (uint256FromU64 5) (uint256FromU64 7), Issued op := by
    simp [twoWrites, Issued]
  have hstored : AllStored packedHost worldStateCreate
      (twoWrites (uint256FromU64 5) (uint256FromU64 7)) := by
    simp only [AllStored, twoWrites, eachCall_cons, eachCall_nil, WorldOp.Stored]
    decide +kernel
  have hrecorded : AllRecorded packedHost
      (runOps packedHost worldStateCreate
        [.setStorage (lowAddress 1) uint256Zero (uint256FromU64 5), .beginTransaction])
      [.setStorage (lowAddress 1) uint256Zero (uint256FromU64 7), .stateRoot] := by
    simp only [AllRecorded, eachCall_cons, eachCall_nil, WorldOp.Recorded]
    decide +kernel
  have hboth := storage_history packedHost {lowAddress 1} {uint256Zero}
    (Set.injOn_singleton _ _) (Set.injOn_singleton _ _) _ huses hissued hstored (lowAddress 1)
    uint256Zero rfl
  exact ⟨hboth.1.trans (by decide), hboth.2 [_] [_, _] rfl (by decide) hrecorded⟩

section Forgotten

variable {host : Host} {ws : World} {addr : Address}

/-- The original values lie in one block. -/
theorem originals_length_applyOp (hblock : host.tables.InBlock 65536)
    (h : ws.originalStorage.entries.length ≤ 744) (op : WorldOp) :
    (applyOp host ws op).originalStorage.entries.length ≤ 744 := by
  have hroom : ∀ n, host.tables originalEntry n = true → n + 1 ≤ 744 := by
    intro n hn
    have hbytes := hblock originalEntry n hn
    unfold originalEntry at hbytes
    omega
  by_cases hbegin : op = .beginTransaction
  · subst hbegin
    exact Nat.zero_le _
  by_cases hwrite : ∃ addr slot value, op = .setStorage addr slot value
  · obtain ⟨addr, slot, value, rfl⟩ := hwrite
    rw [applyOp, setStorage_recorded, recordOriginal]
    split
    · exact h
    · exact insertNew_length_le hroom h _ _
  · rw [applyOp_originalStorage host ws hbegin fun addr slot value heq =>
      hwrite ⟨addr, slot, value, heq⟩]
    exact h

theorem originals_length_runOps (hblock : host.tables.InBlock 65536) (ops : List WorldOp)
    (h : ws.originalStorage.entries.length ≤ 744) :
    (runOps host ws ops).originalStorage.entries.length ≤ 744 := by
  induction ops generalizing ws with
  | nil => exact h
  | cons op ops ih => exact ih (originals_length_applyOp hblock h op)

/-- One value written to each of a list of slots. -/
def fill (addr : Address) (value : Word) (written : List Word) : List WorldOp :=
  written.map fun slot => .setStorage addr slot value

theorem trieRoom_setStorage (h : TrieRoom host ws addr) (slot value : Word) :
    TrieRoom host (wsSetStorage host ws addr slot value) addr := by
  refine Or.inl (AList.lookup_isSome.mp ?_)
  rw [setStorage_lookup, if_pos ⟨rfl, h⟩]
  rfl

theorem allStored_fill (h : TrieRoom host ws addr) (value : Word) (written : List Word) :
    AllStored host ws (fill addr value written) := by
  induction written generalizing ws with
  | nil => exact eachCall_nil
  | cons slot rest ih => exact eachCall_cons.mpr ⟨h, ih (trieRoom_setStorage h slot value)⟩

theorem written_fill {slot value old : Word} {written : List Word}
    (h : slot ∈ written ∨ old = value) :
    (fill addr value written).foldl (storedBy addr slot) old = value := by
  induction written generalizing old with
  | nil => exact h.resolve_left List.not_mem_nil
  | cons first rest ih =>
    refine ih ?_
    by_cases hfirst : slot = first
    · exact Or.inr (if_pos ⟨rfl, hfirst⟩)
    · rcases h with hmem | hold
      · exact Or.inl ((List.mem_cons.mp hmem).resolve_left hfirst)
      · exact Or.inr ((if_neg fun heq => hfirst heq.2).trans hold)

/-- Of more slots than there are records, one has no record. -/
theorem exists_unrecorded (addr : Address) {written : List Word} (hnodup : written.Nodup)
    (hmany : ws.originalStorage.entries.length < written.length) :
    ∃ slot ∈ written, (⟨addr, slot⟩ : SlotKey) ∉ ws.originalStorage := by
  by_contra hall
  push Not at hall
  have hsub : (written.map (SlotKey.mk addr)).Subperm ws.originalStorage.keys := by
    refine List.Nodup.subperm (hnodup.map fun a b hab => (SlotKey.mk.inj hab).2) ?_
    intro key hkey
    obtain ⟨slot, hslot, rfl⟩ := List.mem_map.mp hkey
    exact hall slot hslot
  have hle := hsub.length_le
  rw [List.length_map, AList.keys, List.keys, List.length_map] at hle
  omega

/-- A slot that is not among the original values has the value it has now for its original
value. Among more than 744 slots there is one. -/
theorem original_forgotten [OnArena host] (hblock : host.tables.InBlock 65536)
    (htrie : host.tables storageTrieEntry 0 = true) (addr : Address) {written : List Word}
    (hnodup : written.Nodup) (hmany : 744 < written.length)
    (hslots : Set.InjOn (slotToKey host) {slot | slot ∈ written}) (value : Word) :
    ∃ slot ∈ written, wsGetOriginalStorage host
      (runOps host worldStateCreate (fill addr value written)) addr slot = value := by
  have hroom : TrieRoom host worldStateCreate addr := Or.inr htrie
  have hlength := @originals_length_runOps host worldStateCreate hblock
    (fill addr value written) (Nat.zero_le _)
  obtain ⟨slot, hslot, hmissing⟩ := exists_unrecorded addr hnodup (lt_of_le_of_lt hlength hmany)
  refine ⟨slot, hslot, ?_⟩
  rw [wsGetOriginalStorage, AList.lookup_eq_none.mpr hmissing]
  have huses : ∀ op ∈ fill addr value written, op.Uses {addr} {slot | slot ∈ written} := by
    intro op hop
    obtain ⟨s, hs, rfl⟩ := List.mem_map.mp hop
    exact ⟨rfl, hs⟩
  refine (getStorage_runOps (Set.injOn_singleton _ _) hslots (sound_create host _ _) huses
    (allStored_fill hroom value written) addr hslot).trans ?_
  exact written_fill (Or.inl hslot)

end Forgotten

/-- 745 slots, one more than the map of original values can hold. -/
def manySlots : List Word := (List.range 745).map fun n => uint256FromU64 (UInt64.ofNat n)

theorem manySlots_nodup : manySlots.Nodup := by
  refine List.Nodup.map_on ?_ List.nodup_range
  intro m hm n hn hmn
  have hlimb : UInt64.ofNat m = UInt64.ofNat n := congrArg Word.limb0 hmn
  have hnat := congrArg UInt64.toNat hlimb
  rw [List.mem_range] at hm hn
  simp only [UInt64.toNat_ofNat'] at hnat
  omega

theorem slotToKey_padded_injective : Function.Injective (slotToKey packedHost) := by
  intro a b hab
  have hkey : ∀ w, (slotToKey packedHost w).bytes = uint256ToBytesBe w := by
    intro w
    exact List.take_left' (toBytesBe_length w)
  have hbytes := congrArg Hash.bytes hab
  rw [hkey, hkey] at hbytes
  have hnat := congrArg ofBytes hbytes
  rw [ofBytes_toBytesBe, ofBytes_toBytesBe] at hnat
  exact Word.toNat_injective hnat

theorem runOps_begin (host : Host) (ops : List WorldOp) :
    runOps host worldStateCreate (.beginTransaction :: ops) = runOps host worldStateCreate ops :=
  rfl

/-- Of 745 slots that are written in one transaction, one reports the new value as its original
value. -/
theorem original_not_recorded :
    ∃ slot ∈ manySlots,
      wsGetOriginalStorage packedHost
          (runOps packedHost worldStateCreate
            (.beginTransaction :: fill (lowAddress 1) (uint256FromU64 1) manySlots))
          (lowAddress 1) slot ≠
        wsGetStorage packedHost
          (runOps packedHost worldStateCreate []) (lowAddress 1) slot := by
  have hmany : 744 < manySlots.length := by simp [manySlots]
  obtain ⟨slot, hslot, hnew⟩ := @original_forgotten packedHost _
    (Growth.packed_inBlock 65536) rfl (lowAddress 1) _ manySlots_nodup hmany
    slotToKey_padded_injective.injOn (uint256FromU64 1)
  refine ⟨slot, hslot, ?_⟩
  rw [runOps_begin, hnew]
  exact (by decide : uint256FromU64 1 ≠ uint256Zero)

end Div0.StorageHistory
