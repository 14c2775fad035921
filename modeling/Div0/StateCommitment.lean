import Div0.RootHistory
import Div0.StorageRoots

/-!
What a state root stands for. Two sequences of calls lead to the same root exactly when the
accounts and their slots read the same afterwards, whatever was written on the way, unless two
of the strings that are hashed for the roots collide.
-/

namespace Div0.StateCommitment

open BigEndian Containers RlpFormat TrieRefinement Node Mpt Uint256 Accounts WorldState WorldLedger
open WorldStores WorldCalls AccountViews CallTraces RootHistory KeyedTries TrieBinding StorageRoots
open StorageHistory GasConservation

section Definitions

variable (host : Host) (ws ws' : World)

/-- No two strings that are hashed for the roots of the two tries collide. -/
abbrev NoCollision (mpt mpt' : Backend) : Prop :=
  ¬Collision host.keccak256 ([0x80] :: (hashedEncodings host mpt ++ hashedEncodings host mpt'))

def storageOf (addr : Address) : Backend := (ws.storageTries.lookup addr).getD Backend.init

/-- The same accounts up to the stored roots, with the same slots. -/
def ReadsSame (addrs : Set Address) (slots : Set Word) : Prop :=
  ∀ addr ∈ addrs, view host ws' addr = view host ws addr ∧ (view host ws addr ≠ none →
    ∀ slot ∈ slots, wsGetStorage host ws' addr slot = wsGetStorage host ws addr slot)

/-- A state after founded calls, none of which writes to the storage trie of an address that the
set of the addresses with changed storage refuses. -/
def Reached (addrs : Set Address) (slots : Set Word) : Prop :=
  ∃ ops, ws = runOps host worldStateCreate ops ∧ (∀ op ∈ ops, op.Uses addrs slots) ∧
    EachCall (fun before op => Founded host (runOps host worldStateCreate before) slots op) ops ∧
    EachCall (fun before op => Marked host (runOps host worldStateCreate before) op) ops

end Definitions

theorem slotBytes_injective : Function.Injective slotBytes := fun v w h =>
  Subtype.ext (by rw [← fromBytesBe_slotBytes v, h, fromBytesBe_slotBytes])

theorem present_injective : Function.Injective present := by
  intro a b h
  by_cases ha : a = uint256Zero
  · by_contra hne
    rw [ha, present_zero, present_of_ne fun hb => hne (ha.trans hb.symm)] at h
    cases h
  · rw [present_of_ne ha] at h
    exact (present_eq_some.mp h.symm).symm

section Roots

variable {host : Host} [OnArena host] {ws ws' : World} {addrs : Set Address}
  {slots : Set Word}

theorem Reached.sound (hinj : Set.InjOn (addressToKey host) addrs)
    (h : Reached host ws addrs slots) : Sound host ws addrs slots ∧ Current host ws addrs := by
  obtain ⟨ops, rfl, huses, hfounded, hmarked⟩ := h
  exact ⟨sound_runOps hinj (sound_create host addrs slots) huses,
    (current_run hinj huses hfounded hmarked).last⟩

variable (hempty : host.keccak256 [0x80] = mptEmptyRoot)
include hempty

theorem entries_eq {V : Type} {encode : V → Bytes} {f g : Hash → Option V} {mpt mpt' : Backend}
    (h : Holds host encode mpt f) (h' : Holds host encode mpt' g)
    (hfit : ∀ v, EntryFits (· ≤ 65536) 64 (encode v)) (hne : ∀ v, encode v ≠ [])
    (hencode : Function.Injective encode) (hno : NoCollision host mpt mpt')
    (hroot : (mptRootHash host mpt).1 = (mptRootHash host mpt').1) : f = g := by
  funext key
  exact Option.map_injective hencode
    ((h.binding hfit h' hfit hempty hne hne hroot).resolve_right hno key)

/-- The account behind the root determines the account, and by its storage root the slots. -/
theorem worldStateRoot_eq_iff (hinj : Set.InjOn (addressToKey host) addrs)
    (h : Reached host ws addrs slots) (h' : Reached host ws' addrs slots)
    (hstate : NoCollision host (worldStateRoot host ws').2.stateTrie
      (worldStateRoot host ws).2.stateTrie)
    (hstorage : ∀ addr ∈ addrs, NoCollision host (storageOf ws' addr) (storageOf ws addr)) :
    (worldStateRoot host ws').1 = (worldStateRoot host ws).1 ↔
      ReadsSame host ws ws' addrs slots := by
  obtain ⟨hsound, hcurrent⟩ := h.sound hinj
  obtain ⟨hsound', hcurrent'⟩ := h'.sound hinj
  constructor
  · intro hroot addr haddr
    rw [worldStateRoot_hash hsound.accounts.wellFormed,
      worldStateRoot_hash hsound'.accounts.wellFormed] at hroot
    have hsame := congrFun (entries_eq hempty
      (holds_accounts (worldStateRoot_effect hinj hsound').1.accounts.wellFormed)
      (holds_accounts (worldStateRoot_effect hinj hsound).1.accounts.wellFormed)
      entryFits_account (fun _ => encodeList_ne_nil _) accountBytes_injective hstate hroot)
      (addressToKey host addr)
    rw [← worldStateGetAccount_eq, ← worldStateGetAccount_eq,
      getAccount_root hinj hsound hcurrent haddr,
      getAccount_root hinj hsound' hcurrent' haddr] at hsame
    have hview : view host ws' addr = view host ws addr := by
      have hdropped := congrArg (Option.map dropRoot) hsame
      simp only [view, Option.map_map] at hdropped
      exact hdropped
    refine ⟨hview, fun hthere slot _ => ?_⟩
    obtain ⟨acc, hacc⟩ := Option.ne_none_iff_exists'.mp hthere
    rw [hview, hacc] at hsame
    have hroots := congrArg Account.storageRoot (Option.some.inj hsame)
    dsimp only at hroots
    rw [storageRootOf_eq, storageRootOf_eq] at hroots
    have hwords := entries_eq hempty (hsound'.storage.holds_getD addr)
      (hsound.storage.holds_getD addr) entryFits_slot slotBytes_ne_nil slotBytes_injective
      (hstorage addr haddr) hroots
    exact present_injective (congrFun hwords (slotToKey host slot))
  · intro hsame
    exact worldStateRoot_congr hinj hsound hsound' hcurrent hcurrent'
      (fun addr haddr => (hsame addr haddr).1) fun addr haddr => (hsame addr haddr).2

end Roots

def rewritten (values : List Word) : World :=
  runOps markedHost worldStateCreate (.setBalance (lowAddress 1) (uint256FromU64 5) ::
    values.map (.setStorage (lowAddress 1) uint256Zero))

theorem dirty_writes {host : Host} {ws : World} {addr : Address}
    (h : addr ∈ ws.dirtyStorage ∨ host.tables addressEntry ws.dirtyStorage.length = true)
    (values : List Word) :
    addr ∈ (runOps host ws (values.map (.setStorage addr uint256Zero))).dirtyStorage ∨
      host.tables addressEntry (runOps host ws
        (values.map (.setStorage addr uint256Zero))).dirtyStorage.length = true := by
  induction values generalizing ws with
  | nil => exact h
  | cons value rest ih =>
    refine ih (Or.inl ?_)
    rw [applyOp, (setStorage_fields host ws addr uint256Zero value).2.2, mem_insertSet]
    exact h.elim Or.inr fun hroom => Or.inl ⟨rfl, hroom⟩

theorem reached_rewritten (values : List Word) :
    Reached markedHost (rewritten values) {lowAddress 1} {uint256Zero} := by
  refine ⟨_, rfl, by simp [WorldOp.Uses], eachCall_cons.mpr ⟨?_, ?_⟩,
    eachCall_cons.mpr ⟨trivial, ?_⟩⟩
  · exact fun _ _ _ _ _ _ => Or.inr fun _ _ => rfl
  · intro before op after hops addr acc code hchange
    have hop : op ∈ values.map (.setStorage (lowAddress 1) uint256Zero) := by simp [hops]
    obtain ⟨value, -, rfl⟩ := List.mem_map.mp hop
    cases hchange
  · intro before op after hops
    obtain ⟨done, todo, -, hdone, htodo⟩ := List.map_eq_append_iff.mp hops
    obtain ⟨value, rest, -, hvalue, -⟩ := List.map_eq_cons_iff.mp htodo
    rw [← hdone, ← hvalue]
    exact fun _ => dirty_writes (Or.inr rfl) done

theorem worldStateRoot_eq_iff_rewritten :
    ReadsSame markedHost (rewritten [uint256FromU64 7])
      (rewritten [uint256FromU64 9, uint256FromU64 7]) {lowAddress 1} {uint256Zero} := by
  refine (worldStateRoot_eq_iff rfl (Set.injOn_singleton _ _) (reached_rewritten _)
    (reached_rewritten _) ?_ ?_).mp ?_
  · decide +kernel
  · rintro _ rfl
    decide +kernel
  · decide +kernel

end Div0.StateCommitment
