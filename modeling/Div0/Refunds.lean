import Div0.StorageHistory

/-!
The refund counter of a transaction. SSTORE adds a refund that may be negative. A slot
whose original value is not zero and that is zero now holds a credit of 4800; every refund
is at least the change of the credit of the slot it is given for, so the counter never falls
below the credits of all slots together and no refund has to be cut off. As SSTORE is the
only way to write, a slot changes only where a frame of its address stores.
-/

namespace Div0.Refunds

open Effects EvmContext Node Uint256 WorldState WorldStores WorldCalls StorageHistory Frame Opcodes
open StateOps CallOps Interpreter OpPrograms OpEffects CallEffects RunEffects GasConservation

variable {host : Host}

def stored (ws : World) : (AList fun _ : Address => Mpt.Backend) × (AList fun _ : SlotKey => Word) :=
  (ws.storageTries, ws.originalStorage)

/-- No slot has changed and no refund has been given. -/
structure SameSlots (s s' : Active) : Prop where
  slots : s'.evm.state.map stored = s.evm.state.map stored
  refund : s'.evm.gasRefund = s.evm.gasRefund

instance : IsPreorder Active SameSlots where
  refl _ := ⟨rfl, rfl⟩
  trans _ _ _ h h' := ⟨h'.slots.trans h.slots, h'.refund.trans h.refund⟩

variable {s s' : Active}

section Programs

set_option synthInstance.maxSize 1024

theorem Quiet.sameSlots (h : Quiet s s') : SameSlots s s' where
  slots := by
    have hcool := congrArg (fun evm => evm.state.map stored) h.evm
    simp only [coolEvm, Option.map_map] at hcool
    exact hcool
  refund := (congrArg Evm.gasRefund h.evm :)

instance (priority := low) keeps_sameSlots {α : Type} (m : Op α) [h : Keeps Quiet m] :
    Keeps SameSlots m :=
  ⟨fun s => Quiet.sameSlots (h.keeps s)⟩

instance (priority := low) every_sameSlots {α : Type} (m : Op α) [h : Every (Kept Quiet) m] :
    Every (Kept SameSlots) m :=
  ⟨inferInstance⟩

instance : Stacks (Kept SameSlots) :=
  stacks_mono (R := Forward) fun h => Quiet.sameSlots h.toQuiet

instance (logs : List EvmLog) (capacity : ℕ) : Every (Kept SameSlots) (setLogs logs capacity) :=
  ⟨keeps_modify fun _ => ⟨rfl, rfl⟩⟩

instance (child : CallFrame) (r : CallRegions) : Every (Kept SameSlots) (switchTo child r) :=
  ⟨keeps_modify fun _ => ⟨rfl, rfl⟩⟩

theorem stored_transferValue (sender target : Address) (value : Word) (ws : World) :
    stored (transferValue host sender target value ws) = stored ws := by
  have hadd : ∀ ws, stored (wsAddBalance host ws target value).2 = stored ws := by
    intro ws
    unfold wsAddBalance
    dsimp only
    split
    · rfl
    · exact Prod.ext (setAccount_fields ..).1 (setAccount_originalStorage ..)
  have hsub : ∀ ws, stored (wsSubBalance host ws sender value).2 = stored ws := by
    intro ws
    unfold wsSubBalance
    split
    · rfl
    · split
      · rfl
      · exact Prod.ext (setAccount_fields ..).1 (setAccount_originalStorage ..)
  unfold transferValue
  split
  · rfl
  · exact (hadd _).trans (hsub ws)

theorem keeps_updateState_stored {f : World → World} (hf : ∀ ws, stored (f ws) = stored ws) :
    Keeps SameSlots (updateState f) := by
  apply keeps_modify
  intro s
  refine ⟨?_, rfl⟩
  rw [Option.map_map]
  exact congrArg (fun g => s.evm.state.map g) (funext hf)

instance (transfers : Bool) (setup : CallSetup) :
    Every (Kept SameSlots) (sendValue host transfers setup) := by
  unfold sendValue
  have hupdate : ∀ sender : Address, Every (Kept SameSlots) (updateState
      (if transfers then transferValue host sender setup.target setup.value else id)) := by
    intro sender
    refine ⟨keeps_updateState_stored fun ws => ?_⟩
    cases transfers with
    | false => rfl
    | true => exact stored_transferValue ..
  infer_instance

variable [OnArena host]

/-- Only SSTORE writes slots and gives refunds. -/
theorem handler_sameSlots {cost : Opcode → UInt64} {schedule : GasSchedule} {opcode : Opcode}
    (hstore : opcode ≠ .sstore) : Keeps SameSlots (handler host cost schedule opcode) := by
  by_cases hother : isCallOp opcode = false ∧ isWriteOp opcode = false
  · have hquiet : Keeps Quiet (handler host cost schedule opcode) :=
      handler_quiet hother.1 hother.2
    infer_instance
  · cases opcode
    case sstore => exact absurd rfl hstore
    case log n => simp only [handler]; infer_instance
    case call | callcode | delegatecall | staticcall =>
      simp only [handler]
      infer_instance
    all_goals exact absurd ⟨rfl, rfl⟩ hother

end Programs

variable {ws ws' : World}

section Sstore

set_option synthInstance.maxSize 1024

def sstoreRefund (host : Host) (s : Active) : ℤ :=
  match s.evm.state, s.frame.stack.items with
  | some ws, slot :: value :: _ =>
    sstoreRefundShanghai (wsGetStorage host ws s.frame.address slot)
      (wsGetOriginalStorage host ws s.frame.address slot) value
  | _, _ => 0

/-- An SSTORE that succeeds. -/
structure Stores (host : Host) (s s' : Active) (ws : World) (slot value : Word) : Prop where
  state : s.evm.state = some ws
  operands : ∃ rest, s.frame.stack.items = slot :: value :: rest
  written : s'.evm.state.map stored = some (stored (wsSetStorage host ws s.frame.address slot value))
  refund : s'.evm.gasRefund = addRefund s.evm.gasRefund (sstoreRefund host s)

theorem gasSchedule_sstoreRefund (fork : Fork) :
    (gasSchedule fork).sstoreRefund = sstoreRefundShanghai := by
  cases fork <;> rfl

/-- Warm slots do not matter for what is written. -/
theorem stored_setStorage_congr (h : stored ws' = stored ws) (addr : Address) (slot value : Word) :
    stored (wsSetStorage host ws' addr slot value) =
      stored (wsSetStorage host ws addr slot value) := by
  obtain ⟨htries, horiginal⟩ := Prod.ext_iff.mp h
  rcases ws with ⟨trie, tries, code, warm, warmSlots, original, dirty, accounts, slots, counter⟩
  rcases ws' with ⟨trie', tries', code', warm', warmSlots', original', dirty', accounts', slots',
    counter'⟩
  dsimp only [stored] at htries horiginal
  subst htries horiginal
  unfold stored wsSetStorage writeThrough trackSlot recordOriginal wsGetStorage
    worldStateGetStorageTrie
  by_cases hmem : (⟨addr, slot⟩ : SlotKey) ∈ original'
  · simp only [if_pos hmem]
    cases tries'.lookup addr <;> dsimp only <;> split <;> rfl
  · simp only [if_neg hmem]
    cases tries'.lookup addr <;> dsimp only <;> split <;> rfl

instance (schedule : GasSchedule) : KeepsUnless SameSlots () (opSstore host schedule) := by
  have hfinal : ∀ refund f, KeepsUnless SameSlots ()
      (setGasRefund refund >>= fun _ => updateState f) :=
    fun _ _ => keepsUnless_of_returns fun _ => ⟨_, rfl⟩
  have hwrite : ∀ isCold address slot current original newValue, KeepsUnless SameSlots ()
      (writeStorage host schedule isCold address slot current original newValue) := by
    intro isCold address slot current original newValue
    unfold writeStorage
    infer_instance
  unfold opSstore
  dsimp only
  infer_instance

/-- The end of an SSTORE, from a state in which the slots are as at its start. -/
theorem writeStorage_ok {s s₀ s' : Active} {schedule : GasSchedule} {isCold : Bool}
    {address : Address} {slot current original value : Word} {u : Unit}
    (hws : s₀.evm.state = some ws) (hsame : SameSlots s₀ s)
    (h : writeStorage host schedule isCold address slot current original value s = .ok u s') :
    s'.evm.state.map stored = some (stored (wsSetStorage host ws address slot value)) ∧
      s'.evm.gasRefund =
        addRefund s₀.evm.gasRefund (schedule.sstoreRefund current original value) := by
  unfold writeStorage at h
  obtain ⟨_, _, ⟨⟩, h⟩ := bind_ok h
  obtain ⟨_, s₂, henough, h⟩ := bind_ok h
  obtain ⟨-, rfl⟩ := require_inv henough
  obtain ⟨_, s₃, hcharge, h⟩ := bind_ok h
  obtain ⟨-, rfl⟩ := charge_inv hcharge
  obtain ⟨_, _, ⟨⟩, h⟩ := bind_ok h
  obtain ⟨_, _, ⟨⟩, h⟩ := bind_ok h
  cases h
  have hslots := hsame.slots
  rw [hws, Option.map_some, Option.map_eq_some_iff] at hslots
  obtain ⟨ws', hws', hstored⟩ := hslots
  dsimp only
  rw [hws', Option.map_some, Option.map_some, stored_setStorage_congr hstored]
  exact ⟨rfl, congrArg (addRefund · _) hsame.refund⟩

theorem opSstore_ok {schedule : GasSchedule} {u : Unit}
    (hschedule : schedule.sstoreRefund = sstoreRefundShanghai)
    (h : opSstore host schedule s = .ok u s') :
    ∃ ws slot value, Stores host s s' ws slot value := by
  unfold opSstore at h
  obtain ⟨ws, hws, h⟩ := requireState_ok h
  obtain ⟨_, _, ⟨⟩, h⟩ := bind_ok h
  obtain ⟨_, s₃, hstatic, h⟩ := bind_ok h
  obtain ⟨-, rfl⟩ := require_inv hstatic
  obtain ⟨-, h⟩ := hasItems_ok h
  obtain ⟨slot, s₅, hslot, h⟩ := bind_ok h
  obtain ⟨value, s₆, hvalue, h⟩ := bind_ok h
  obtain ⟨_, _, ⟨⟩, h⟩ := bind_ok h
  obtain ⟨_, s₈, hwarm, h⟩ := bind_ok h
  have hpopped : Quiet s s₆ := trans_of Quiet (Keeps.ok inferInstance hslot)
    (Keeps.ok inferInstance hvalue)
  have hwarmed : Quiet s₆ s₈ := Keeps.ok inferInstance hwarm
  have haddress : s₆.frame.address = s.frame.address :=
    (congrArg CallFrame.address hpopped.frame :)
  have hitems := (pop_inv hslot).trans (congrArg _ (pop_inv hvalue))
  obtain ⟨hwritten, hrefund⟩ :=
    writeStorage_ok hws (Quiet.sameSlots (trans_of Quiet hpopped hwarmed)) h
  rw [haddress] at hwritten hrefund
  refine ⟨ws, slot, value, hws, ⟨_, hitems⟩, hwritten, ?_⟩
  rw [hrefund, hschedule, sstoreRefund, hws, hitems]

def storesNext (host : Host) (s : Active) : Bool :=
  match nextOpcode s.frame, dispatch host s with
  | some .sstore, .ok _ _ => true
  | _, _ => false

/-- The next instruction of a frame either leaves the slots alone or is such an SSTORE. -/
theorem dispatch_slots (host : Host) [OnArena host] (s : Active) :
    (storesNext host s = false ∧ SameSlots s (after (dispatch host) s)) ∨
      (storesNext host s = true ∧ ∃ s' ws slot value, dispatch host s = .ok none s' ∧
        Stores host s s' ws slot value) := by
  have hdispatch := dispatch_eq host s
  have hafter := after_dispatch host s
  cases hnext : nextOpcode s.frame with
  | none =>
    rw [hnext] at hafter
    refine Or.inl ⟨by rw [storesNext, hnext], ?_⟩
    rw [hafter]
    exact refl_of SameSlots s
  | some opcode =>
    rw [hnext] at hdispatch hafter
    dsimp only at hdispatch hafter
    -- moving on to the next byte of the code changes no slot
    have hpc : ∀ s', SameSlots (fetched s) s' →
        SameSlots s s' := fun s' h => ⟨h.slots, h.refund⟩
    by_cases hstore : opcode = .sstore
    · subst hstore
      rcases hrun : opSstore host (gasSchedule s.evm.fork)
        (fetched s) with ⟨u, s'⟩ | ⟨e, s'⟩
      · have hok : dispatch host s = .ok none s' := by
          rw [hdispatch]
          simp only [handler, next]
          rw [bind_of_ok hrun]
          rfl
        obtain ⟨ws, slot, value, hstores⟩ := opSstore_ok (gasSchedule_sstoreRefund _) hrun
        refine Or.inr ⟨by rw [storesNext, hnext, hok], s', ws, slot, value, hok, ?_⟩
        exact ⟨hstores.state, hstores.operands, hstores.written, hstores.refund⟩
      · have herror : dispatch host s = .error e s' := by
          rw [hdispatch]
          simp only [handler, next]
          rw [bind_apply, hrun]
        refine Or.inl ⟨by rw [storesNext, hnext, herror], ?_⟩
        rw [after_of_error herror]
        exact hpc s' (KeepsUnless.error (v := ()) inferInstance hrun)
    · refine Or.inl ⟨?_, ?_⟩
      · unfold storesNext
        rw [hnext]
        cases opcode
        case sstore => exact absurd rfl hstore
        all_goals rfl
      · rw [hafter]
        exact hpc _ ((handler_sameSlots hstore).keeps _)

end Sstore

/-- What the counter holds for a slot: a refund that setting the slot again takes back. -/
def credit (original current : Word) : ℤ :=
  if uint256IsZero original = false ∧ uint256IsZero current = true then 4800 else 0

section Credits

variable {slots : Set Word} {total : ℤ}

theorem credit_nonneg (original current : Word) : 0 ≤ credit original current := by
  unfold credit
  split <;> omega

/-- A slot that has not been written has no credit. -/
theorem credit_self (value : Word) : credit value value = 0 := by
  unfold credit
  cases uint256IsZero value <;> rfl

theorem credit_zero (current : Word) : credit uint256Zero current = 0 := rfl

/-- A refund is at least the change of the credit: what is given for restoring the original
value comes on top. -/
theorem credit_le_refund (original current new : Word) :
    credit original new - credit original current ≤
      sstoreRefundShanghai current original new := by
  by_cases hsame : uint256Eq current new = true
  · obtain rfl := (Uint256.eq_iff current new).mp hsame
    rw [sub_self, sstoreRefundShanghai, if_pos hsame]
  · rw [sstoreRefundShanghai, if_neg hsame]
    dsimp only
    generalize hrestored : (if uint256Eq original new then
        if uint256IsZero original then ((gasSstoreSet - gasWarmStorageRead).toNat : ℤ)
        else (gasSstoreReset - gasWarmStorageRead).toNat
      else 0) = restored
    have hnonneg : 0 ≤ restored := by
      rw [← hrestored]
      split
      · split <;> exact Int.natCast_nonneg _
      · exact le_refl _
    have hclear : (gasSstoreClearRefund.toNat : ℤ) = 4800 := by decide
    rw [hclear]
    unfold credit
    have hboth : ¬(uint256IsZero current = true ∧ uint256IsZero new = true) := by
      rintro ⟨hcurrent, hnew⟩
      rw [isZero_eq_true] at hcurrent hnew
      exact hsame ((Uint256.eq_iff current new).mpr (hcurrent.trans hnew.symm))
    cases uint256IsZero original <;> cases hcurrent : uint256IsZero current <;>
      cases hnew : uint256IsZero new <;> simp_all

theorem toNat_addRefund {counter : UInt64} {refund : ℤ} (hnonneg : 0 ≤ counter.toNat + refund)
    (hlt : (counter.toNat : ℤ) + refund < 2 ^ 64) :
    ((addRefund counter refund).toNat : ℤ) = counter.toNat + refund := by
  have hcounter := counter.toNat_lt
  unfold addRefund
  split
  · next hpos =>
    rw [UInt64.toNat_add, UInt64.toNat_ofNat', Nat.mod_eq_of_lt (a := refund.toNat) (by omega),
      Nat.mod_eq_of_lt (by omega)]
    omega
  · next hneg =>
    have hsub : (UInt64.ofNat (-refund).toNat).toNat = (-refund).toNat := by
      rw [UInt64.toNat_ofNat', Nat.mod_eq_of_lt (by omega)]
    have hle : UInt64.ofNat (-refund).toNat ≤ counter := by
      rw [UInt64.le_iff_toNat_le, hsub]
      omega
    dsimp only
    rw [if_pos hle, UInt64.toNat_sub_of_le _ _ hle, hsub]
    omega

/-- The credit of a slot by the original value that the state reports for it. -/
def creditAt (host : Host) (ws : World) (p : Address × Word) : ℤ :=
  credit (wsGetOriginalStorage host ws p.1 p.2) (wsGetStorage host ws p.1 p.2)

/-- The slots of an address without a storage trie have the original value zero. -/
def ZeroOriginals (host : Host) (ws : World) : Prop :=
  ∀ addr slot, ws.storageTries.lookup addr = none →
    wsGetOriginalStorage host ws addr slot = uint256Zero

/-- The counter has its exact value, which covers the credits of any slots. -/
structure Credited (host : Host) (slots : Set Word) (total : ℤ) (evm : Evm) : Prop where
  world : ∃ ws, evm.state = some ws ∧ StorageIn host ws Set.univ slots ∧
    ZeroOriginals host ws ∧
    ∀ taken : Finset (Address × Word), (∀ p ∈ taken, p.2 ∈ slots) →
      ∑ p ∈ taken, creditAt host ws p ≤ total
  counter : (evm.gasRefund.toNat : ℤ) = total

theorem getStorage_stored (h : stored ws' = stored ws) (addr : Address) (slot : Word) :
    wsGetStorage host ws' addr slot = wsGetStorage host ws addr slot :=
  slotAt_congr (congrArg (fun stores => stores.1.lookup addr) h) _

theorem getOriginalStorage_stored (h : stored ws' = stored ws) (addr : Address) (slot : Word) :
    wsGetOriginalStorage host ws' addr slot = wsGetOriginalStorage host ws addr slot := by
  have horiginal : ws'.originalStorage = ws.originalStorage := congrArg Prod.snd h
  rw [wsGetOriginalStorage, horiginal, getStorage_stored h, wsGetOriginalStorage]

theorem creditAt_stored (h : stored ws' = stored ws) : creditAt host ws' = creditAt host ws := by
  funext p
  rw [creditAt, getOriginalStorage_stored h, getStorage_stored h, creditAt]

theorem ZeroOriginals.congr (h : ZeroOriginals host ws) (hstored : stored ws' = stored ws) :
    ZeroOriginals host ws' := by
  intro addr slot hnone
  rw [getOriginalStorage_stored hstored]
  rw [show ws'.storageTries = ws.storageTries from congrArg Prod.fst hstored] at hnone
  exact h addr slot hnone

theorem Credited.congr {evm evm' : Evm} (h : Credited host slots total evm)
    (hslots : evm'.state.map stored = evm.state.map stored)
    (hrefund : evm'.gasRefund = evm.gasRefund) : Credited host slots total evm' := by
  obtain ⟨ws, hws, hstorage, hzero, hcredits⟩ := h.world
  rw [hws, Option.map_some, Option.map_eq_some_iff] at hslots
  obtain ⟨ws', hws', hstored⟩ := hslots
  refine ⟨⟨ws', hws', hstorage.congr (congrArg Prod.fst hstored), hzero.congr hstored, ?_⟩, ?_⟩
  · rw [creditAt_stored hstored]
    exact hcredits
  · rw [hrefund, h.counter]

theorem ZeroOriginals.written (h : ZeroOriginals host ws) (addr : Address) (slot value : Word) :
    ZeroOriginals host (wsSetStorage host ws addr slot value) := by
  intro probe slot' hnone
  have hcurrent : wsGetStorage host (wsSetStorage host ws addr slot value) probe slot' =
      uint256Zero := slotAt_of_none hnone _
  rw [setStorage_lookup] at hnone
  split at hnone
  · cases hnone
  · have hold := h probe slot' hnone
    rw [wsGetOriginalStorage, setStorage_originalStorage, hcurrent]
    by_cases hprobe : (probe = addr ∧ slot' = slot) ∧
        Containers.HasRoom (host.tables originalEntry) ws.originalStorage ⟨addr, slot⟩
    · rw [if_pos hprobe, ← hprobe.1.1, ← hprobe.1.2]
      exact hold
    · rw [if_neg hprobe]
      rw [wsGetOriginalStorage] at hold
      cases hlookup : ws.originalStorage.lookup ⟨probe, slot'⟩ with
      | none => rfl
      | some original => rwa [hlookup] at hold

variable [OnArena host] (hinj : Set.InjOn (slotToKey host) slots)
  (hstorage : StorageIn host ws Set.univ slots) (addr : Address) {slot : Word}
  (hslot : slot ∈ slots) (value : Word)
include hinj hstorage hslot

theorem creditAt_other {p : Address × Word} (hp : p.2 ∈ slots) (hne : p ≠ (addr, slot)) :
    creditAt host (wsSetStorage host ws addr slot value) p = creditAt host ws p := by
  have hother : ¬(p.1 = addr ∧ p.2 = slot) := fun h => hne (Prod.ext h.1 h.2)
  have hcurrent := getStorage_written hinj hstorage (Set.mem_univ addr) hslot value p.1 hp
  rw [if_neg fun h => hother h.1] at hcurrent
  rw [creditAt, wsGetOriginalStorage, setStorage_originalStorage, if_neg fun h => hother h.1,
    hcurrent, creditAt, wsGetOriginalStorage]

/-- The credit of the slot that is written grows by no more than the refund, also where the
tables refuse the record of the original value or the storage trie. -/
theorem creditAt_written (hzero : ZeroOriginals host ws) :
    creditAt host (wsSetStorage host ws addr slot value) (addr, slot) ≤
      creditAt host ws (addr, slot) + sstoreRefundShanghai (wsGetStorage host ws addr slot)
        (wsGetOriginalStorage host ws addr slot) value := by
  have hchange := credit_le_refund (wsGetOriginalStorage host ws addr slot)
    (wsGetStorage host ws addr slot) value
  rw [creditAt, wsGetOriginalStorage, setStorage_originalStorage, creditAt]
  by_cases hrecord : Containers.HasRoom (host.tables originalEntry) ws.originalStorage ⟨addr, slot⟩
  · rw [if_pos ⟨⟨rfl, rfl⟩, hrecord⟩,
      getStorage_written hinj hstorage (Set.mem_univ _) hslot value addr hslot]
    dsimp only
    split
    · omega
    · next hlost =>
      -- the write is lost, and there was nothing before
      have hnone : ws.storageTries.lookup addr = none :=
        AList.lookup_eq_none.mpr fun hmem => hlost ⟨⟨rfl, rfl⟩, Or.inl hmem⟩
      rw [hzero addr slot hnone] at hchange ⊢
      simp only [credit_zero] at hchange ⊢
      omega
  · -- without a record the current value is taken for the original one
    have hnone : ws.originalStorage.lookup ⟨addr, slot⟩ = none :=
      AList.lookup_eq_none.mpr fun hmem => hrecord (Or.inl hmem)
    have hnonneg := credit_nonneg (wsGetOriginalStorage host ws addr slot) value
    rw [if_neg fun h => hrecord h.2, hnone]
    dsimp only
    rw [credit_self]
    omega

/-- The credits after a write: the one of the slot that is written grows by no more than the
refund. -/
theorem sum_credits_le (hzero : ZeroOriginals host ws)
    (hcredits : ∀ taken : Finset (Address × Word), (∀ p ∈ taken, p.2 ∈ slots) →
      ∑ p ∈ taken, creditAt host ws p ≤ total)
    (taken : Finset (Address × Word)) (htaken : ∀ p ∈ taken, p.2 ∈ slots) :
    ∑ p ∈ taken, creditAt host (wsSetStorage host ws addr slot value) p ≤
      total + sstoreRefundShanghai (wsGetStorage host ws addr slot)
        (wsGetOriginalStorage host ws addr slot) value := by
  -- the slot that is written is counted in any case
  have hall : ∀ p ∈ insert (addr, slot) taken, p.2 ∈ slots := by
    intro p hp
    rcases Finset.mem_insert.mp hp with rfl | hp
    · exact hslot
    · exact htaken p hp
  calc ∑ p ∈ taken, creditAt host (wsSetStorage host ws addr slot value) p
      ≤ ∑ p ∈ insert (addr, slot) taken,
          creditAt host (wsSetStorage host ws addr slot value) p :=
        Finset.sum_le_sum_of_subset_of_nonneg (Finset.subset_insert _ _)
          fun _ _ _ => credit_nonneg _ _
    _ ≤ ∑ p ∈ insert (addr, slot) taken, (creditAt host ws p +
          if p = (addr, slot) then sstoreRefundShanghai (wsGetStorage host ws addr slot)
            (wsGetOriginalStorage host ws addr slot) value else 0) := by
        refine Finset.sum_le_sum fun p hp => ?_
        split
        · next heq =>
          rw [heq]
          exact creditAt_written hinj hstorage addr hslot value hzero
        · next hne =>
          rw [creditAt_other hinj hstorage addr hslot value (hall p hp) hne, add_zero]
    _ ≤ _ := by
        rw [Finset.sum_add_distrib, Finset.sum_ite_eq' (insert (addr, slot) taken) (addr, slot),
          if_pos (Finset.mem_insert_self _ _)]
        exact add_le_add_left (hcredits _ hall) _

omit hstorage hslot in
/-- An SSTORE does not take more than the counter holds. -/
theorem Credited.stores {slot value : Word} (h : Credited host slots total s.evm)
    (hstores : Stores host s s' ws slot value) (hslot : slot ∈ slots) :
    0 ≤ total + sstoreRefund host s ∧ (total + sstoreRefund host s < 2 ^ 64 →
      Credited host slots (total + sstoreRefund host s) s'.evm) := by
  obtain ⟨ws', hws', hstorage, hzero, hcredits⟩ := h.world
  obtain rfl : ws = ws' := Option.some.inj (hstores.state.symm.trans hws')
  obtain ⟨rest, hitems⟩ := hstores.operands
  have hrefund : sstoreRefund host s =
      sstoreRefundShanghai (wsGetStorage host ws s.frame.address slot)
        (wsGetOriginalStorage host ws s.frame.address slot) value := by
    rw [sstoreRefund, hstores.state, hitems]
  have hsum := sum_credits_le hinj hstorage s.frame.address hslot value hzero hcredits
  rw [← hrefund] at hsum
  have hnonneg : 0 ≤ total + sstoreRefund host s := by
    have hnone := hsum ∅ fun p hp => absurd hp (Finset.notMem_empty p)
    rwa [Finset.sum_empty] at hnone
  refine ⟨hnonneg, fun hlt => ?_⟩
  have hwritten := hstores.written
  rw [Option.map_eq_some_iff] at hwritten
  obtain ⟨ws'', hws'', hstored⟩ := hwritten
  have hkept := (setStorage_effect hstorage (Set.mem_univ s.frame.address) hslot value).1
  refine ⟨⟨ws'', hws'', hkept.congr (congrArg Prod.fst hstored),
    (hzero.written _ slot value).congr hstored, ?_⟩, ?_⟩
  · rw [creditAt_stored hstored]
    exact hsum
  · rw [← h.counter] at hnonneg hlt ⊢
    rw [hstores.refund]
    exact toNat_addRefund hnonneg hlt

end Credits

/-- The refund of the next step; zero where it is no SSTORE. -/
def stepRefund (host : Host) (m : Machine) : ℤ :=
  if storesNext host m.active then sstoreRefund host m.active else 0

/-- The next step cuts off a refund: it would take more than the counter holds. -/
def ClampsToZero (host : Host) (m : Machine) : Prop :=
  stepRefund host m < 0 ∧ m.active.evm.gasRefund < UInt64.ofNat (-stepRefund host m).toNat

/-- A run from `m₀` with the exact sum of the refunds on the way. -/
inductive Refunded (host : Host) (m₀ : Machine) : ℤ → Machine → Prop
  | start : Refunded host m₀ 0 m₀
  | step {total : ℤ} {m m' : Machine} (hrun : Refunded host m₀ total m)
      (hstep : step host m = .running m') : Refunded host m₀ (total + stepRefund host m) m'

section Runs

variable {m m' : Machine}

/-- Entering and leaving frames concerns neither slots nor refunds. -/
theorem step_evm (h : step host m = .running m') :
    m'.active.evm.state = (after (dispatch host) m.active).evm.state ∧
      m'.active.evm.gasRefund = (after (dispatch host) m.active).evm.gasRefund := by
  cases moves_of_step h with
  | goesOn hdispatch =>
    rw [after_of_ok hdispatch]
    exact ⟨rfl, rfl⟩
  | enters hdispatch hroom hpending =>
    rw [after_of_ok hdispatch]
    exact ⟨rfl, rfl⟩
  | delivers hlast hcall hs hdepth hparents hcopied hdelivered =>
    rw [← hs, hcopied.rest]
    exact ⟨rfl, rfl⟩

/-- The slots of the SSTOREs of a run, as the operands on the stack say. -/
def StoresIn (host : Host) (slots : Set Word) (m : Machine) : Prop :=
  storesNext host m.active = true → ∀ slot ∈ m.active.frame.stack.items.head?, slot ∈ slots

variable [OnArena host] {slots : Set Word} {total : ℤ} (hinj : Set.InjOn (slotToKey host) slots)
  (h : Credited host slots total m.active.evm) (hused : StoresIn host slots m)
include hinj h hused

/-- The refund of a step does not take more than the counter holds. -/
theorem stepRefund_ge : 0 ≤ total + stepRefund host m := by
  rcases dispatch_slots host m.active with ⟨hnone, -⟩ | ⟨hnext, s', ws, slot, value, -, hs⟩
  · rw [stepRefund, if_neg (by rw [hnone]; exact Bool.false_ne_true), add_zero, ← h.counter]
    exact Int.natCast_nonneg _
  · obtain ⟨rest, hitems⟩ := hs.operands
    rw [stepRefund, if_pos hnext]
    exact (h.stores hinj hs (hused hnext slot (by rw [hitems]; rfl))).1

theorem not_clampsToZero : ¬ClampsToZero host m := by
  rintro ⟨hneg, hlt⟩
  have hnonneg := stepRefund_ge hinj h hused
  have hcounter := m.active.evm.gasRefund.toNat_lt
  rw [← h.counter] at hnonneg
  rw [UInt64.lt_iff_toNat_lt, UInt64.toNat_ofNat', Nat.mod_eq_of_lt (by omega)] at hlt
  omega

theorem credited_step (hstep : step host m = .running m')
    (hbound : total + stepRefund host m < 2 ^ 64) :
    Credited host slots (total + stepRefund host m) m'.active.evm := by
  obtain ⟨hstate, hrefund⟩ := step_evm hstep
  rcases dispatch_slots host m.active with
    ⟨hnone, hsame⟩ | ⟨hnext, s', ws, slot, value, hdispatch, hs⟩
  · rw [stepRefund, if_neg (by rw [hnone]; exact Bool.false_ne_true), add_zero]
    exact h.congr ((congrArg (Option.map stored) hstate).trans hsame.slots)
      (hrefund.trans hsame.refund)
  · rw [after_of_ok hdispatch] at hstate hrefund
    obtain ⟨rest, hitems⟩ := hs.operands
    rw [stepRefund, if_pos hnext] at hbound ⊢
    have hnew := (h.stores hinj hs (hused hnext slot (by rw [hitems]; rfl))).2 hbound
    exact hnew.congr (congrArg (Option.map stored) hstate) hrefund

omit h hused in
/-- The counter is exact in every state of a run. -/
theorem credited_run {m₀ : Machine} (hstart : Credited host slots 0 m₀.active.evm)
    (hstores : ∀ total m, Refunded host m₀ total m → StoresIn host slots m)
    (hbound : ∀ total m, Refunded host m₀ total m → total < 2 ^ 64)
    (hrun : Refunded host m₀ total m) : Credited host slots total m.active.evm := by
  induction hrun with
  | start => exact hstart
  | step hrun hstep ih =>
    exact credited_step hinj ih (hstores _ _ hrun) hstep (hbound _ _ (hrun.step hstep))

end Runs

section Transaction

/-- The machine at the start of a transaction on the state `ws`: the EVM has been reset. -/
def transactionStart (evm : Evm) (ws : World) (env : ExecutionEnv) : Machine :=
  start { evmReset evm with state := some ws } env

variable {addrs : Set Address} {slots : Set Word}

/-- Before the first write of a transaction no original value is recorded, and no slot has
credit. -/
theorem credited_start (hsound : StorageIn host ws addrs slots) (hnone : ws.originalStorage = ∅)
    (evm : Evm) (env : ExecutionEnv) :
    Credited host slots 0 (transactionStart evm ws env).active.evm := by
  have horiginal : ∀ addr slot,
      wsGetOriginalStorage host ws addr slot = wsGetStorage host ws addr slot := by
    intro addr slot
    rw [wsGetOriginalStorage, hnone, AList.lookup_empty]
  refine ⟨⟨ws, rfl, ⟨hsound.holds, hsound.keys, fun _ _ _ => Set.mem_univ _⟩, ?_, ?_⟩, rfl⟩
  · intro addr slot hlookup
    rw [horiginal]
    exact slotAt_of_none hlookup _
  · intro taken _
    simp only [creditAt, horiginal, credit_self, Finset.sum_const_zero, le_refl]

/-- Calls that write no storage record no original value. -/
theorem originalStorage_runOps (hnone : ws.originalStorage = ∅) {ops : List WorldOp}
    (hops : ∀ op ∈ ops, ∀ addr slot value, op ≠ .setStorage addr slot value) :
    (runOps host ws ops).originalStorage = ∅ := by
  induction ops generalizing ws with
  | nil => exact hnone
  | cons op ops ih =>
    obtain ⟨hop, hrest⟩ := List.forall_mem_cons.mp hops
    refine ih ?_ hrest
    by_cases hbegin : op = .beginTransaction
    · rw [hbegin]
      rfl
    · rw [applyOp_originalStorage host ws hbegin hop, hnone]

/-- In a transaction, however the SSTOREs of its frames follow each other, no refund is cut
off, the counter is the exact sum of the refunds, and it is at least 4800 for every slot
whose original value is not zero and whose current value is zero. -/
theorem refund_counter_exact (host : Host) [OnArena host] (addrs : Set Address)
    (slots : Set Word) (hinj : Set.InjOn (addressToKey host) addrs)
    (hslots : Set.InjOn (slotToKey host) slots) (before opened : List WorldOp)
    (huses : ∀ op ∈ before ++ .beginTransaction :: opened, op.Uses addrs slots)
    (hopened : ∀ op ∈ opened, ∀ addr slot value, op ≠ .setStorage addr slot value)
    (evm : Evm) (env : ExecutionEnv) (m₀ : Machine)
    (hstart : m₀ = transactionStart evm (runOps host worldStateCreate
      (before ++ .beginTransaction :: opened)) env)
    (hused : ∀ total m, Refunded host m₀ total m → StoresIn host slots m)
    (hbound : ∀ total m, Refunded host m₀ total m → total < 2 ^ 64)
    (total : ℤ) (m : Machine) (hrun : Refunded host m₀ total m) :
    ¬ClampsToZero host m ∧ (m.active.evm.gasRefund.toNat : ℤ) = total ∧
    ∃ ws, m.active.evm.state = some ws ∧ ∀ cleared : Finset (Address × Word),
      (∀ p ∈ cleared, p.2 ∈ slots ∧
        wsGetOriginalStorage host ws p.1 p.2 ≠ uint256Zero ∧
        wsGetStorage host ws p.1 p.2 = uint256Zero) →
      4800 * cleared.card ≤ m.active.evm.gasRefund.toNat := by
  have hsound := sound_runOps hinj (sound_create host addrs slots) huses
  have hnone : (runOps host worldStateCreate
      (before ++ .beginTransaction :: opened)).originalStorage = ∅ := by
    rw [runOps_append]
    have hbegun : (wsBeginTransaction (runOps host worldStateCreate before)).originalStorage = ∅ :=
      rfl
    exact originalStorage_runOps hbegun hopened
  have hcredited := credited_start hsound.storage hnone evm env
  rw [← hstart] at hcredited
  have hinvariant := credited_run hslots hcredited hused hbound hrun
  refine ⟨not_clampsToZero hslots hinvariant (hused _ _ hrun), hinvariant.counter, ?_⟩
  obtain ⟨ws, hws, -, -, hcredits⟩ := hinvariant.world
  refine ⟨ws, hws, fun cleared hcleared => ?_⟩
  have hsum := hcredits cleared fun p hp => (hcleared p hp).1
  have hfull : ∀ p ∈ cleared, creditAt host ws p = 4800 := by
    intro p hp
    obtain ⟨-, hnonzero, hzero⟩ := hcleared p hp
    exact if_pos ⟨Bool.eq_false_iff.mpr fun h => hnonzero (isZero_eq_true.mp h),
      isZero_eq_true.mpr hzero⟩
  rw [Finset.sum_congr rfl hfull, Finset.sum_const, nsmul_eq_mul, ← hinvariant.counter] at hsum
  omega

def refundsOf (host : Host) (m₀ : Machine) : ℕ → ℤ
  | 0 => 0
  | n + 1 => refundsOf host m₀ n + stepRefund host (advance (step host) n m₀)

theorem refunded_advance {m₀ : Machine} {n : ℕ}
    (h : ∀ k < n, (step host (advance (step host) k m₀)).isRunning = true) :
    Refunded host m₀ (refundsOf host m₀ n) (advance (step host) n m₀) := by
  induction n with
  | zero => exact .start
  | succ n ih =>
    exact .step (ih fun k hk => h k (Nat.lt_succ_of_lt hk)) (step_advance (h n (Nat.lt_succ_self n)))

/-- Where a run stops after `n` steps, these steps are all of it. -/
theorem refunded_cases {m₀ m : Machine} {n : ℕ} {total : ℤ}
    (hstop : (step host (advance (step host) n m₀)).isRunning = false)
    (hrun : Refunded host m₀ total m) :
    ∃ k ≤ n, m = advance (step host) k m₀ ∧ total = refundsOf host m₀ k := by
  induction hrun with
  | start => exact ⟨0, Nat.zero_le n, rfl, rfl⟩
  | step _ hstep ih =>
    obtain ⟨k, hle, rfl, rfl⟩ := ih
    refine ⟨k + 1, ?_, by rw [advance_succ, hstep], rfl⟩
    rcases Nat.lt_or_eq_of_le hle with hlt | rfl
    · exact hlt
    · rw [hstep] at hstop
      cases hstop

def fullSlot : List WorldOp :=
  [.setStorage (lowAddress 2) uint256Zero (uint256FromU64 5)]

def clearingStart : Machine :=
  transactionStart (evmInit .cancun)
    (runOps paddedHost worldStateCreate (fullSlot ++ .beginTransaction :: []))
    (running 100000 [0x5f, 0x5f, 0x55])

/-- At its end the counter is 4800, for one slot that has been cleared. -/
theorem refund_counter_exact_clearing :
    Refunded paddedHost clearingStart 4800
        (stepped 3 clearingStart) ∧
    ((stepped 3 clearingStart).active.evm.gasRefund.toNat : ℤ) = 4800 := by
  have hsteps : (step paddedHost (stepped 3
        clearingStart)).isRunning = false ∧
      (∀ k < 3, (step paddedHost (stepped k
        clearingStart)).isRunning = true) ∧
      refundsOf paddedHost clearingStart 3 = 4800 ∧
      (∀ k ≤ 3, (stepped k
        clearingStart).active.frame.stack.items.head?.all (· = uint256Zero) = true) ∧
      ∀ k ≤ 3, refundsOf paddedHost clearingStart k < 2 ^ 64 := by decide +kernel
  obtain ⟨hstop, hruns, htotal, hheads, hsums⟩ := hsteps
  have hrun : Refunded paddedHost clearingStart (refundsOf paddedHost clearingStart 3)
      (stepped 3 clearingStart) := refunded_advance hruns
  rw [htotal] at hrun
  have hexact := refund_counter_exact paddedHost {lowAddress 2} {uint256Zero}
    (Set.injOn_singleton _ _) (Set.injOn_singleton _ _) fullSlot []
    (by simp [fullSlot, WorldOp.Uses]) (by simp) _ _ clearingStart rfl ?_ ?_ _ _ hrun
  · exact ⟨hrun, hexact.2.1⟩
  · intro total m hrun _ slot hslot
    obtain ⟨k, hk, rfl, -⟩ := refunded_cases hstop hrun
    have hhead := hheads k hk
    rw [Option.mem_def.mp hslot] at hhead
    exact of_decide_eq_true hhead
  · intro total m hrun
    obtain ⟨k, hk, -, rfl⟩ := refunded_cases hstop hrun
    exact hsums k hk

end Transaction

section Isolation

variable [OnArena host] {addr : Address} {slot : Word}

/-- A step keeps the slots of every other address than that of its frame. -/
theorem step_slots {m m' : Machine} {ws' : World} (h : step host m = .running m')
    (hws' : m'.active.evm.state = some ws') :
    ∃ ws, m.active.evm.state = some ws ∧
      (wsGetStorage host ws' addr slot = wsGetStorage host ws addr slot ∨
        storesNext host m.active = true ∧ m.active.frame.address = addr) := by
  rw [(step_evm h).1] at hws'
  rcases dispatch_slots host m.active with ⟨-, hsame⟩ | ⟨hnext, s', ws, slot', value, hok, hstores⟩
  · have hslots := hsame.slots
    rw [hws'] at hslots
    obtain ⟨ws, hws, hstored⟩ := Option.map_eq_some_iff.mp hslots.symm
    exact ⟨ws, hws, Or.inl (getStorage_stored hstored.symm addr slot)⟩
  · refine ⟨ws, hstores.state, or_iff_not_imp_right.mpr fun hother => ?_⟩
    have hwritten := hstores.written
    rw [after_of_ok hok] at hws'
    rw [hws'] at hwritten
    rw [getStorage_stored (Option.some.inj hwritten)]
    refine slotAt_congr ?_ _
    rw [setStorage_lookup, if_neg fun hthere => hother ⟨hnext, hthere.1.symm⟩]

/-- A slot changes over a run only if a frame at its address executes an SSTORE in it. -/
theorem slot_changed_by_owner {m₀ m : Machine} {ws₀ ws : World} (hrun : Reaches (step host) m₀ m)
    (hws₀ : m₀.active.evm.state = some ws₀) (hws : m.active.evm.state = some ws)
    (hne : wsGetStorage host ws addr slot ≠ wsGetStorage host ws₀ addr slot) :
    ∃ m₁ m₂, Reaches (step host) m₀ m₁ ∧ step host m₁ = .running m₂ ∧ Reaches (step host) m₂ m ∧
      storesNext host m₁.active = true ∧ m₁.active.frame.address = addr := by
  induction hrun generalizing ws with
  | refl =>
    rw [hws₀, Option.some.injEq] at hws
    exact absurd (by rw [hws]) hne
  | tail hbefore hlast ih =>
    obtain ⟨ws₁, hws₁, hkept | hstores⟩ := step_slots hlast hws
    · rw [hkept] at hne
      obtain ⟨m₁, m₂, hto, hstep, hfrom, hstores⟩ := ih hws₁ hne
      exact ⟨m₁, m₂, hto, hstep, hfrom.tail hlast, hstores⟩
    · exact ⟨_, _, hbefore, hlast, .refl, hstores⟩

/-- The third dispatch is the SSTORE that clears the slot. -/
theorem slot_changed_by_owner_clearing :
    ∃ m₁ m₂, Reaches (step paddedHost) clearingStart m₁ ∧
      step paddedHost m₁ = .running m₂ ∧
      Reaches (step paddedHost) m₂
        (stepped 3 clearingStart) ∧
      storesNext paddedHost m₁.active = true ∧
      m₁.active.frame.address = lowAddress 2 :=
  @slot_changed_by_owner paddedHost _ (lowAddress 2) uint256Zero _ _ _ _
    (reaches_advance _ 3 clearingStart) rfl rfl (by decide +kernel)

end Isolation

end Div0.Refunds
