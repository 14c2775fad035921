import Div0.AccountViews

/-!
State roots over sequences of calls. `world_state_root` brings the storage roots of the
accounts up to date whose storage has changed since it was last called. An account that is
created gets the root of an empty storage. So the roots are those of the slots unless an
account is created over a storage that is in use and was not changed since.
-/

namespace Div0.RootHistory

open Containers Node Mpt Uint256 Accounts WorldState WorldLedger WorldStores WorldCalls
open StorageHistory AccountViews CallTraces KeyedTries GasConservation

section Definitions

variable (host : Host) (ws : World)

def storageRootOf (addr : Address) : Hash := (rootAt host ws addr).getD mptEmptyRoot

def liveSlots (slots : List Word) (addr : Address) : List (Hash × NonZero) :=
  slots.filterMap fun slot =>
    (present (wsGetStorage host ws addr slot)).map fun value => (slotToKey host slot, value)

def scratchRoot (slots : List Word) (addr : Address) : Hash :=
  (mptRootHash host (trieOf host slotBytes (liveSlots host ws slots addr))).1

def Current (addrs : Set Address) : Prop :=
  ∀ addr ∈ addrs, ∀ acc, worldStateGetAccount host ws addr = some acc →
    acc.storageRoot = storageRootOf host ws addr ∨
      addr ∈ ws.dirtyStorage ∧ addr ∈ ws.storageTries

/-- The call creates an account only where no slot is in use, or where the storage has
changed since the last root. -/
def Founded (slots : Set Word) (op : WorldOp) : Prop :=
  ∀ addr acc code, changeOf host ws op = .account addr acc code → accountIsEmpty acc = false →
    worldStateGetAccount host ws addr = none →
    addr ∈ ws.dirtyStorage ∨ ∀ slot ∈ slots, wsGetStorage host ws addr slot = uint256Zero

/-- A write that reaches its storage trie finds its address in the set of the addresses with
changed storage, or room for it. -/
def Marked : WorldOp → Prop
  | .setStorage addr _ _ => TrieRoom host ws addr →
    addr ∈ ws.dirtyStorage ∨ host.tables addressEntry ws.dirtyStorage.length = true
  | _ => True

theorem marked_of_roomy [hroomy : Roomy host] (op : WorldOp) : Marked host ws op := by
  cases op with
  | setStorage addr slot value => exact fun _ => Or.inr (hroomy.takes _ _)
  | _ => trivial

end Definitions

def writesOf (ops : List WorldOp) : List WorldOp := ops.filter (· ≠ .stateRoot)

/-- Leaving these out makes no difference to what they do not change. -/
theorem foldl_writesOf {σ : Type} {f : σ → WorldOp → σ} (hroot : ∀ x, f x .stateRoot = x) (x : σ)
    (ops : List WorldOp) : (writesOf ops).foldl f x = ops.foldl f x := by
  induction ops generalizing x with
  | nil => rfl
  | cons op ops ih =>
    by_cases hop : op = .stateRoot
    · rw [hop, List.foldl_cons, hroot, ← ih x]
      rfl
    · rw [List.foldl_cons, ← ih]
      simp [writesOf, hop]

variable {host : Host} {ws ws' : World} {addrs : Set Address} {slots : Set Word}

theorem storageRootOf_eq (host : Host) (ws : World) (addr : Address) :
    storageRootOf host ws addr =
      (mptRootHash host ((ws.storageTries.lookup addr).getD Backend.init)).1 := by
  unfold storageRootOf rootAt
  cases ws.storageTries.lookup addr <;> rfl

variable {addr : Address}

section Storage

variable [harena : OnArena host]

/-- The slots determine the root of the storage. -/
theorem storageRootOf_congr {slots' : Set Word} {addrs' : Set Address}
    (h : StorageIn host ws addrs slots) (h' : StorageIn host ws' addrs' slots')
    (hsame : ∀ key, slotAt host ws' addr key = slotAt host ws addr key) :
    storageRootOf host ws' addr = storageRootOf host ws addr := by
  have hholds' := h'.holds_getD addr
  simp only [hsame] at hholds'
  rw [storageRootOf_eq, storageRootOf_eq]
  exact hholds'.rootHash_eq entryFits_slot (h.holds_getD addr)

theorem storageRootOf_of_zero (h : StorageIn host ws addrs slots)
    (hzero : ∀ slot ∈ slots, wsGetStorage host ws addr slot = uint256Zero) :
    storageRootOf host ws addr = mptEmptyRoot := by
  refine storageRootOf_congr (sound_create host addrs slots).storage h fun key => ?_
  by_contra hne
  obtain ⟨slot, hslot, rfl⟩ := h.keys addr key hne
  exact hne (hzero slot hslot)

/-- The root of a storage is that of the slots in use, built from scratch. -/
theorem storageRootOf_scratch {slots : List Word} (h : StorageIn host ws addrs {s | s ∈ slots})
    (addr : Address) : storageRootOf host ws addr = scratchRoot host ws slots addr := by
  rw [storageRootOf_eq, scratchRoot]
  refine (h.holds_getD addr).rootHash_eq entryFits_slot (holds_trieOf entryFits_slot ?_)
  intro key value
  simp only [liveSlots, List.mem_filterMap, Option.map_eq_some_iff, Prod.mk.injEq]
  constructor
  · rintro ⟨slot, -, v, hv, rfl, rfl⟩
    exact hv
  · intro hvalue
    obtain ⟨slot, hslot, rfl⟩ := h.keys addr key (by rw [present_eq_some.mp hvalue]; exact value.2)
    exact ⟨slot, hslot, value, hvalue, rfl, rfl⟩

/-- Where neither the account nor the slots change, the root is as current as it was. -/
theorem Current.of_same (hcurrent : Current host ws addrs)
    (h : StorageIn host ws addrs slots) (h' : StorageIn host ws' addrs slots)
    (haddr : addr ∈ addrs) (acc : Account) (hacc : worldStateGetAccount host ws addr = some acc)
    (hwords : ∀ key, slotAt host ws' addr key = slotAt host ws addr key)
    (hdirty : addr ∈ ws.dirtyStorage → addr ∈ ws'.dirtyStorage)
    (htries : addr ∈ ws.storageTries → addr ∈ ws'.storageTries) :
    acc.storageRoot = storageRootOf host ws' addr ∨
      addr ∈ ws'.dirtyStorage ∧ addr ∈ ws'.storageTries := by
  rw [storageRootOf_congr h h' hwords]
  exact (hcurrent addr haddr acc hacc).imp_right fun hno => ⟨hdirty hno.1, htries hno.2⟩

end Storage

section Steps

variable [harena : OnArena host] (hinj : Set.InjOn (addressToKey host) addrs)
include hinj

/-- After `world_state_root` every account has the root of its storage. -/
theorem getAccount_root (h : Sound host ws addrs slots) (hcurrent : Current host ws addrs)
    (haddr : addr ∈ addrs) :
    worldStateGetAccount host (worldStateRoot host ws).2 addr =
      (view host ws addr).map fun acc => { acc with storageRoot := storageRootOf host ws addr } := by
  rw [(worldStateRoot_effect hinj h).2.2 addr haddr, view, Option.map_map, accountAfter]
  cases hget : worldStateGetAccount host ws addr with
  | none => split <;> rfl
  | some acc =>
    have hroot := hcurrent addr haddr acc hget
    rw [mem_storageTries host] at hroot
    unfold storageRootOf at hroot ⊢
    simp only [Option.map_some, Function.comp_apply, dropRoot]
    cases hat : rootAt host ws addr with
    | none =>
      rw [hat] at hroot
      have hkept : acc.storageRoot = mptEmptyRoot := hroot.resolve_right fun hno => hno.2 rfl
      simp only [refresh, hat, ite_self, Option.getD_none, ← hkept]
    | some root =>
      rw [hat] at hroot
      simp only [refresh, hat, Option.getD_some]
      split
      · rfl
      · next hclean =>
        have hkept : acc.storageRoot = root := hroot.resolve_right fun hno => hclean hno.1
        rw [← hkept]

/-- A call that is founded keeps the roots current. -/
theorem current_step (h : Sound host ws addrs slots) (hcurrent : Current host ws addrs)
    {op : WorldOp} (huses : op.Uses addrs slots) (hfounded : Founded host ws slots op)
    (hmarked : Marked host ws op) : Current host (applyOp host ws op) addrs := by
  have happlied := applyOp_applied hinj h huses
  intro probe hprobe acc hacc
  have hsame := hcurrent.of_same h.storage happlied.sound.storage hprobe
  have haccount := happlied.accounts probe hprobe
  have hwords := happlied.words probe
  have htries := happlied.tries probe
  have hdirty := happlied.dirty
  rw [hacc] at haccount
  cases hchange : changeOf host ws op with
  | account addr acc' code =>
    rw [hchange] at haccount hwords htries hdirty
    rw [accountAfter] at haccount
    split at haccount
    · next heq =>
      subst heq
      split at haccount
      · cases haccount
      · next hfull =>
        cases haccount
        have hkept := (changeOf_account h.accounts hchange).1
        rw [hkept]
        cases hget : worldStateGetAccount host ws probe with
        | none =>
          rw [accountOrEmpty_of_none hget, hdirty, htries]
          by_cases hno : probe ∈ ws.dirtyStorage ∧ probe ∈ ws.storageTries
          · exact Or.inr hno
          · refine Or.inl (storageRootOf_of_zero happlied.sound.storage fun slot hslot => ?_).symm
            rw [wsGetStorage_eq, hwords]
            rcases hfounded probe acc code hchange (Bool.eq_false_iff.mpr hfull) hget with hin | hzero
            · exact slotAt_of_none
                (AList.lookup_eq_none.mpr fun htrie => hno ⟨hin, htrie⟩) _
            · exact hzero slot hslot
        | some old =>
          rw [accountOrEmpty_of_some hget]
          exact hsame old hget hwords (by rw [hdirty]; exact id) htries.mpr
    · exact hsame acc haccount.symm hwords (by rw [hdirty]; exact id) htries.mpr
  | store addr slot value =>
    rw [hchange] at haccount hwords htries hdirty
    obtain rfl : op = .setStorage addr slot value := changeOf_from hchange
    rw [dirtyAfter] at hdirty
    by_cases heq : probe = addr ∧ TrieRoom host ws addr
    · refine Or.inr ⟨?_, htries.mpr (Or.inl heq)⟩
      rw [hdirty, mem_insertSet, heq.1]
      exact (hmarked heq.2).elim Or.inr fun hroom => Or.inl ⟨rfl, hroom⟩
    · refine hsame acc haccount.symm (fun key => (hwords key).trans ?_) ?_ ?_
      · exact if_neg fun hno => heq ⟨hno.1, hno.2.2⟩
      · rw [hdirty, mem_insertSet]
        exact Or.inr
      · exact fun htrie => htries.mpr (Or.inr htrie)
  | delete addr =>
    rw [hchange] at haccount hwords htries hdirty
    rw [accountAfter] at haccount
    split at haccount
    · cases haccount
    · next hne =>
      refine hsame acc haccount.symm (fun key => (hwords key).trans (if_neg hne)) ?_ ?_
      · rw [hdirty]
        exact id
      · exact fun htrie => htries.mpr ⟨hne, htrie⟩
  | root =>
    rw [hchange] at haccount hwords
    have hrooted := getAccount_root hinj h hcurrent hprobe
    rw [(worldStateRoot_effect hinj h).2.2 probe hprobe, ← haccount] at hrooted
    obtain ⟨old, -, rfl⟩ := Option.map_eq_some_iff.mp hrooted.symm
    exact Or.inl (storageRootOf_congr h.storage happlied.sound.storage hwords).symm
  | nothing =>
    rw [hchange] at haccount hwords htries hdirty
    exact hsame acc haccount.symm hwords (by rw [hdirty]; exact id) htries.mpr

variable {ops : List WorldOp}

section

variable (huses : ∀ op ∈ ops, op.Uses addrs slots)
include huses

theorem current_run
    (hfounded : EachCall
      (fun before op => Founded host (runOps host worldStateCreate before) slots op) ops)
    (hmarked : EachCall
      (fun before op => Marked host (runOps host worldStateCreate before) op) ops) :
    Throughout (fun before => Current host (runOps host worldStateCreate before) addrs) ops := by
  refine throughout_of_eachCall ?_ ?_ fun before op after hops =>
    And.intro (hfounded before op after hops) (hmarked before op after hops)
  · intro addr _ acc hacc
    cases hacc
  · rintro before op after rfl hcurrent hop
    rw [List.forall_mem_append, List.forall_mem_cons] at huses
    have hsound := sound_runOps hinj (sound_create host addrs slots) huses.1
    rw [runOps_concat]
    exact current_step hinj hsound hcurrent huses.2.1 hop.1 hop.2

/-- As long as the root is not computed, every storage in use counts as changed. -/
theorem dirty_of_slot [hroomy : Roomy host] (hroots : .stateRoot ∉ ops) {key : Hash}
    (hslot : slotAt host (runOps host worldStateCreate ops) addr key ≠ uint256Zero) :
    addr ∈ (runOps host worldStateCreate ops).dirtyStorage := by
  induction ops using List.reverseRecOn with
  | nil => exact absurd rfl hslot
  | append_singleton ops op ih =>
    rw [List.forall_mem_append] at huses
    rw [List.mem_append, not_or] at hroots
    have hsound := sound_runOps hinj (sound_create host addrs slots) huses.1
    have happlied := applyOp_applied hinj hsound (huses.2 op List.mem_cons_self)
    rw [runOps_concat] at hslot ⊢
    rw [happlied.words] at hslot
    rw [happlied.dirty]
    cases hchange : changeOf host (runOps host worldStateCreate ops) op with
    | account a acc code =>
      rw [hchange] at hslot
      exact ih huses.1 hroots.1 hslot
    | store a s value =>
      rw [hchange] at hslot
      rw [dirtyAfter, mem_insertSet]
      by_cases heq : addr = a
      · exact Or.inl ⟨heq, hroomy.takes _ _⟩
      · rw [slotAfter, if_neg fun hno => heq hno.1] at hslot
        exact Or.inr (ih huses.1 hroots.1 hslot)
    | delete a =>
      rw [hchange, slotAfter] at hslot
      split at hslot
      · exact absurd rfl hslot
      · exact ih huses.1 hroots.1 hslot
    | root =>
      have hop : op = .stateRoot := changeOf_from hchange
      exact absurd (List.mem_singleton.mpr hop.symm) hroots.2
    | nothing =>
      rw [hchange] at hslot
      exact ih huses.1 hroots.1 hslot

theorem current_writes [Roomy host] (hroots : .stateRoot ∉ ops) :
    Current host (runOps host worldStateCreate ops) addrs := by
  refine (current_run hinj huses ?_ fun _ op _ _ => marked_of_roomy host _ op).last
  rintro before op after rfl addr acc code - - -
  rw [List.forall_mem_append] at huses
  rw [List.mem_append, not_or] at hroots
  by_cases hdirty : addr ∈ (runOps host worldStateCreate before).dirtyStorage
  · exact Or.inl hdirty
  · refine Or.inr fun slot _ => ?_
    by_contra hne
    exact hdirty (dirty_of_slot hinj huses.1 hroots.1 hne)

end

omit hinj in
/-- The state trie holds the accounts. -/
theorem holds_accounts (h : WellFormed host ws) :
    Holds host accountBytes ws.stateTrie (accountAt host ws) := by
  obtain ⟨t, hrep, htree⟩ := h.tree
  refine ⟨t, hrep, fun key => ?_, fun path value hpath => (htree path value hpath).1⟩
  rw [← (h.get key).1, (hrep.get harena.supply (by rw [keyLength]; omega)).1]

omit hinj in
/-- The root that is returned is that of the state trie behind the call. -/
theorem worldStateRoot_hash (h : WellFormed host ws) :
    (worldStateRoot host ws).1 = (mptRootHash host (worldStateRoot host ws).2.stateTrie).1 := by
  have hholds := holds_accounts (h.shows.updateStorageRoots ws.dirtyStorage).wellFormed
  exact hholds.rootHash_eq entryFits_account (hholds.rootHash entryFits_account)

/-- World states with the same accounts, and with the same slots of these, have the same root. -/
theorem worldStateRoot_congr (h : Sound host ws addrs slots) (h' : Sound host ws' addrs slots)
    (hcurrent : Current host ws addrs) (hcurrent' : Current host ws' addrs)
    (hviews : ∀ addr ∈ addrs, view host ws' addr = view host ws addr)
    (hstorage : ∀ addr ∈ addrs, view host ws addr ≠ none → ∀ slot ∈ slots,
      wsGetStorage host ws' addr slot = wsGetStorage host ws addr slot) :
    (worldStateRoot host ws').1 = (worldStateRoot host ws).1 := by
  have hwords : ∀ addr ∈ addrs, view host ws addr ≠ none → ∀ key,
      slotAt host ws' addr key = slotAt host ws addr key := by
    intro addr haddr hthere key
    by_cases hkey : ∃ slot ∈ slots, key = slotToKey host slot
    · obtain ⟨slot, hslot, rfl⟩ := hkey
      exact hstorage addr haddr hthere slot hslot
    · rw [not_imp_comm.mp (h.storage.keys addr key) hkey,
        not_imp_comm.mp (h'.storage.keys addr key) hkey]
  have hget : ∀ addr ∈ addrs, worldStateGetAccount host (worldStateRoot host ws').2 addr =
      worldStateGetAccount host (worldStateRoot host ws).2 addr := by
    intro addr haddr
    rw [getAccount_root hinj h hcurrent haddr, getAccount_root hinj h' hcurrent' haddr,
      hviews addr haddr]
    cases hview : view host ws addr with
    | none => rfl
    | some acc =>
      have hthere : view host ws addr ≠ none := by simp [hview]
      rw [storageRootOf_congr h.storage h'.storage (hwords addr haddr hthere)]
  have hrooted := (worldStateRoot_effect hinj h).1.accounts
  have hrooted' := (worldStateRoot_effect hinj h').1.accounts
  have haccounts : accountAt host (worldStateRoot host ws').2 =
      accountAt host (worldStateRoot host ws).2 := by
    funext key
    by_cases hkey : ∃ addr ∈ addrs, key = addressToKey host addr
    · obtain ⟨addr, haddr, rfl⟩ := hkey
      rw [← worldStateGetAccount_eq, ← worldStateGetAccount_eq, hget addr haddr]
    · rw [Option.eq_none_iff_forall_ne_some.mpr fun acc hacc => hkey (hrooted.keys key acc hacc),
        Option.eq_none_iff_forall_ne_some.mpr fun acc hacc => hkey (hrooted'.keys key acc hacc)]
  have hholds := holds_accounts hrooted'.wellFormed
  rw [haccounts] at hholds
  rw [worldStateRoot_hash h.accounts.wellFormed, worldStateRoot_hash h'.accounts.wellFormed]
  exact hholds.rootHash_eq entryFits_account (holds_accounts hrooted.wellFormed)

end Steps

/-- After the root has been computed, the stored roots are those of the slots in use, and the
root is the one of the calls without those that computed it before. -/
structure FromScratch (host : Host) (before : List WorldOp) (addrs : Set Address)
    (slots : List Word) : Prop where
  stored : ∀ addr ∈ addrs, ∀ acc,
    worldStateGetAccount host (runOps host worldStateCreate (before ++ [.stateRoot])) addr =
      some acc →
    acc.storageRoot =
      scratchRoot host (runOps host worldStateCreate (before ++ [.stateRoot])) slots addr
  replayed : (worldStateRoot host (runOps host worldStateCreate before)).1 =
    (worldStateRoot host (runOps host worldStateCreate (writesOf before))).1

/-- If every call is founded, each root in a sequence of calls is the one from scratch. -/
theorem roots_from_scratch (host : Host) [OnArena host] [Roomy host] (addrs : Set Address)
    (slots : List Word) (hinj : Set.InjOn (addressToKey host) addrs)
    (hslots : Set.InjOn (slotToKey host) {slot | slot ∈ slots})
    (ops : List WorldOp) (huses : ∀ op ∈ ops, op.Uses addrs {slot | slot ∈ slots})
    (hfounded : EachCall (fun before op => Founded host
      (runOps host worldStateCreate before) {slot | slot ∈ slots} op) ops)
    (before after : List WorldOp) (hops : ops = before ++ .stateRoot :: after) :
    FromScratch host before addrs slots := by
  have hcurrent := current_run hinj huses hfounded (fun _ op _ _ => marked_of_roomy _ _ op)
    before _ hops
  rw [hops, List.forall_mem_append] at huses
  have hsound := sound_runOps hinj (sound_create _ addrs _) huses.1
  constructor
  · intro addr haddr acc hacc
    have hrooted := (worldStateRoot_effect hinj hsound).1.storage
    rw [runOps_concat] at hacc ⊢
    rw [applyOp, getAccount_root hinj hsound hcurrent haddr] at hacc
    obtain ⟨old, -, rfl⟩ := Option.map_eq_some_iff.mp hacc
    rw [applyOp, ← storageRootOf_scratch hrooted]
    exact (storageRootOf_congr hsound.storage hrooted
      ((worldStateRoot_effect hinj hsound).2.1.words addr)).symm
  · have hwrites : ∀ op ∈ writesOf before, op.Uses addrs {slot | slot ∈ slots} :=
      fun op hop => huses.1 op (List.mem_of_mem_filter hop)
    have hnone : .stateRoot ∉ writesOf before := by simp [writesOf]
    refine worldStateRoot_congr hinj (sound_runOps hinj (sound_create _ addrs _) hwrites)
      hsound (current_writes hinj hwrites hnone) hcurrent ?_ ?_
    · intro addr haddr
      rw [view_runOps hinj huses.1 haddr, view_runOps hinj hwrites haddr, viewRun, viewRun,
        foldl_writesOf fun _ => rfl]
    · intro addr _ _ slot hslot
      have hcreated := sound_create host addrs {slot | slot ∈ slots}
      rw [getStorage_runOps hinj hslots hcreated huses.1 (allStored_of_roomy _ _) addr hslot,
        getStorage_runOps hinj hslots hcreated hwrites (allStored_of_roomy _ _) addr hslot,
        foldl_writesOf fun _ => rfl]

def oneSlot : List WorldOp :=
  [.setBalance (lowAddress 1) (uint256FromU64 5),
    .setStorage (lowAddress 1) uint256Zero (uint256FromU64 7)]

/-- The slot is written again after a root. -/
def rewrittenSlot : List WorldOp :=
  oneSlot ++ [.stateRoot, .setStorage (lowAddress 1) uint256Zero (uint256FromU64 9)]

theorem roots_from_scratch_rewrittenSlot :
    FromScratch paddedHost rewrittenSlot {lowAddress 1} [uint256Zero] := by
  refine roots_from_scratch paddedHost {lowAddress 1} [uint256Zero] (Set.injOn_singleton _ _)
    (by simp) (rewrittenSlot ++ [.stateRoot]) ?_ ?_ rewrittenSlot [] rfl
  · simp [rewrittenSlot, oneSlot, WorldOp.Uses]
  · simp only [rewrittenSlot, oneSlot, List.cons_append, List.nil_append, eachCall_cons,
      eachCall_nil, and_true]
    refine ⟨fun _ _ _ _ _ _ => Or.inr fun _ _ => rfl, ?_, ?_, ?_, ?_⟩ <;>
      (intro addr acc code hchange; cases hchange)

def revived : List WorldOp :=
  oneSlot ++ [.setBalance (lowAddress 1) uint256Zero, .stateRoot,
    .setBalance (lowAddress 1) (uint256FromU64 5)]

theorem revived_account_loses_storage :
    ¬FromScratch paddedHost revived {lowAddress 1} [uint256Zero] := by
  intro h
  have hacc : worldStateGetAccount paddedHost
      (runOps paddedHost worldStateCreate (revived ++ [.stateRoot])) (lowAddress 1) =
      some { accountEmpty with balance := uint256FromU64 5 } := by decide +kernel
  have hroot : mptEmptyRoot ≠ scratchRoot paddedHost
      (runOps paddedHost worldStateCreate (revived ++ [.stateRoot])) [uint256Zero]
      (lowAddress 1) := by decide +kernel
  exact hroot (h.stored (lowAddress 1) rfl _ hacc)

end Div0.RootHistory
