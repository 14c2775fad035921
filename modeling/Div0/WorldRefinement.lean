import Div0.AccountMaps
import Div0.AccountViews

/-!
The world state against a map of accounts in which an account that becomes empty goes
together with its storage. Nonces, balances and existence follow the map whatever is
called. The storage tries are only dropped by `ws_delete_account`, so the slots follow it
as long as no account is emptied, or written while it is not there, with a slot in use.
-/

namespace Div0.WorldRefinement

open BigEndian Node Uint256 Accounts WorldState WorldLedger WorldStores WorldCalls StorageHistory
open CodeHistory AccountViews AccountMaps CallTraces GasConservation

abbrev Record := Entry Word UInt8

abbrev Map := AccountMap Address Word UInt8

/-- What a call writes to the map. Sums stay below `2 ^ 256`, and a nonce is not raised above
`2 ^ 64 - 2`. -/
def write (m : Map) : WorldOp → Option (Address × Record)
  | .createContract addr =>
    if (m.entries addr).isSome then none else some (addr, { Entry.zero with nonce := 1 })
  | .deleteAccount addr => some (addr, Entry.zero)
  | .setBalance addr balance => some (addr, { m.entry addr with balance := balance.toNat })
  | .addBalance addr amount =>
    if (m.entry addr).balance + amount.toNat < 2 ^ 256 then
      some (addr, { m.entry addr with balance := (m.entry addr).balance + amount.toNat })
    else none
  | .subBalance addr amount =>
    if (m.entries addr).isSome ∧ amount.toNat ≤ (m.entry addr).balance then
      some (addr, { m.entry addr with balance := (m.entry addr).balance - amount.toNat })
    else none
  | .setNonce addr nonce => some (addr, { m.entry addr with nonce := nonce.toNat })
  | .incrementNonce addr =>
    if (m.entry addr).nonce + 2 < 2 ^ 64 then
      some (addr, { m.entry addr with nonce := (m.entry addr).nonce + 1 })
    else none
  | .setCode addr code => some (addr, { m.entry addr with code := code })
  | .setStorage addr slot value => some (addr, { m.entry addr with
      slots := Function.update (m.entry addr).slots slot value.toNat })
  | .warmAddress _ | .warmSlot _ _ | .beginTransaction | .snapshot | .revertToSnapshot _
  | .commitSnapshot _ | .stateRoot => none

def step (m : Map) (op : WorldOp) : Map := (write m op).elim m fun w => m.put w.1 w.2

def mapRun (ops : List WorldOp) : Map := ops.foldl step AccountMap.empty

/-- The call does not write an empty account that has a slot in use. -/
def Lossless (m : Map) (op : WorldOp) : Prop := ∀ w, write m op = some w → w.2.Lossless

/-- What can be observed of some addresses and slots is what the map has. -/
structure Observed (host : Host) (ws : World) (m : Map) (addrs : Set Address) (slots : Set Word) :
    Prop where
  balance : ∀ addr ∈ addrs, (wsGetBalance host ws addr).toNat = (m.entry addr).balance
  nonce : ∀ addr ∈ addrs, (wsGetNonce host ws addr).toNat = (m.entry addr).nonce
  existence : ∀ addr ∈ addrs, wsAccountExists host ws addr = (m.entries addr).isSome
  emptiness : ∀ addr ∈ addrs, wsAccountIsEmpty host ws addr = true ↔ (m.entry addr).Empty
  storage : ∀ addr ∈ addrs, ∀ slot ∈ slots,
    (wsGetStorage host ws addr slot).toNat = (m.entry addr).slots slot

/-- A call changes the account it is about and the slot it writes, and nothing else. -/
structure Local (host : Host) (ws : World) (op : WorldOp) (addrs : Set Address)
    (slots : Set Word) : Prop where
  accounts : ∀ probe ∈ addrs, target op ≠ some probe → op ≠ .deleteAccount probe →
    view host (applyOp host ws op) probe = view host ws probe
  storage : ∀ probe, ∀ slot ∈ slots, (∀ value, op ≠ .setStorage probe slot value) →
    op ≠ .deleteAccount probe →
    wsGetStorage host (applyOp host ws op) probe slot = wsGetStorage host ws probe slot

def FailsCleanly (host : Host) (ws : World) : Prop :=
  ∀ addr amount,
    ((wsAddBalance host ws addr amount).1 = false → (wsAddBalance host ws addr amount).2 = ws) ∧
    ((wsSubBalance host ws addr amount).1 = false → (wsSubBalance host ws addr amount).2 = ws)

/-- A sequence of calls on a new world state behaves as it does on the map. -/
structure Refines (host : Host) (ops : List WorldOp) (addrs : Set Address) (slots : Set Word) :
    Prop where
  observed : Throughout
    (fun before => Observed host (runOps host worldStateCreate before) (mapRun before) addrs slots)
    ops
  locality : EachCall
    (fun before op => Local host (runOps host worldStateCreate before) op addrs slots) ops
  failing : Throughout (fun before => FailsCleanly host (runOps host worldStateCreate before)) ops

variable {host : Host} {ws : World} {m : Map} {addrs : Set Address} {slots : Set Word}

theorem failsCleanly (host : Host) (ws : World) : FailsCleanly host ws := by
  intro addr amount
  constructor
  · simp only [wsAddBalance]
    split
    · exact fun _ => rfl
    · rintro ⟨⟩
  · simp only [wsSubBalance]
    cases worldStateGetAccount host ws addr with
    | none => exact fun _ => rfl
    | some acc =>
      dsimp only
      split
      · exact fun _ => rfl
      · rintro ⟨⟩

variable {op : WorldOp}

theorem step_none (h : write m op = none) : step m op = m := by
  rw [step, h, Option.elim_none]

variable {w : Address × Record}

theorem step_some (h : write m op = some w) : step m op = m.put w.1 w.2 := by
  rw [step, h, Option.elim_some]

theorem mapRun_concat (ops : List WorldOp) (op : WorldOp) :
    mapRun (ops ++ [op]) = step (mapRun ops) op := by
  rw [mapRun, List.foldl_append]
  rfl

/-- The storage root apart, a record agrees with an account. The code stands for itself in
the map and by its hash in the account. -/
structure Same (host : Host) (acc : Account) (e : Record) : Prop where
  nonce : acc.nonce.toNat = e.nonce
  balance : acc.balance.toNat = e.balance
  code : acc.codeHash = codeHashOf host e.code
  proper : codeHashOf host e.code = emptyCodeHash → e.code = []

theorem same_zero (host : Host) : Same host accountEmpty Entry.zero := ⟨rfl, rfl, rfl, fun _ => rfl⟩

theorem Same.isEmpty_iff {acc : Account} {e : Record} (h : Same host acc e) :
    accountIsEmpty acc = true ↔ e.Empty := by
  have hcode : acc.codeHash = emptyCodeHash ↔ e.code = [] := by
    rw [h.code]
    refine ⟨h.proper, ?_⟩
    intro hnil
    rw [hnil]
    rfl
  unfold accountIsEmpty Entry.Empty
  rw [← h.nonce, ← h.balance, ← hcode, ← isZero_iff]
  by_cases hnonce : acc.nonce = 0
  · cases hbalance : uint256IsZero acc.balance <;> simp [hnonce]
  · have hpos : acc.nonce.toNat ≠ 0 := fun heq => hnonce (UInt64.toNat_inj.mp heq)
    simp [hnonce, hpos]

/-- An account agrees with the entry of its address. -/
structure Tracks (host : Host) (old : Option Account) (o : Option Record) : Prop where
  isSome : old.isSome = o.isSome
  same : Same host (old.getD accountEmpty) (o.getD Entry.zero)

/-- An account and a record that agree are kept or removed together. -/
theorem Same.tracks {acc : Account} {e : Record} (h : Same host acc e) :
    Tracks host (if accountIsEmpty acc then none else some (dropRoot acc))
      (if e.Empty then none else some e) := by
  by_cases hempty : e.Empty
  · rw [if_pos hempty, if_pos (h.isEmpty_iff.mpr hempty)]
    exact ⟨rfl, same_zero host⟩
  · rw [if_neg hempty, if_neg fun heq => hempty (h.isEmpty_iff.mp heq)]
    exact ⟨rfl, ⟨h.nonce, h.balance, h.code, h.proper⟩⟩

variable {addr : Address}

/-- Writing slots makes no difference to whether the account is there. -/
theorem Tracks.withSlots {old : Option Account} (h : Tracks host old (m.entries addr))
    (words : Word → ℕ) :
    Tracks host old (if ({ m.entry addr with slots := words } : Record).Empty then none
      else some { m.entry addr with slots := words }) := by
  have hsame : Same host (old.getD accountEmpty) (m.entry addr) := h.same
  split
  · next hempty =>
    rw [← (m.entry_empty_iff addr).mp hempty]
    exact h
  · next hempty =>
    refine ⟨h.isSome.trans ?_, ⟨hsame.nonce, hsame.balance, hsame.code, hsame.proper⟩⟩
    exact Option.isSome_iff_ne_none.mpr fun hnone => hempty ((m.entry_empty_iff addr).mpr hnone)

/-- A code that is not empty does not hash to the constant for the empty one. -/
def Proper (host : Host) : WorldOp → Prop
  | .setCode _ code => code ≠ [] → host.keccak256 code ≠ emptyCodeHash
  | _ => True

theorem Proper.codeHashOf {code : Bytes} (h : Proper host (.setCode addr code))
    (hhash : codeHashOf host code = emptyCodeHash) : code = [] := by
  by_contra hne
  have hlen : code.length ≠ 0 := fun hzero => hne (List.eq_nil_of_length_eq_zero hzero)
  rw [CodeHistory.codeHashOf, if_neg hlen] at hhash
  exact h hne hhash

theorem addBalance_fits (balance amount : Word) :
    uint256Lt (uint256Add balance amount) balance = true ↔
      ¬ balance.toNat + amount.toNat < 2 ^ 256 := by
  have hbalance := balance.toNat_lt
  have hamount := amount.toNat_lt
  rw [lt_iff, toNat_add]
  omega

theorem incrementNonce_fits (nonce : UInt64) :
    nonce ≥ 0xffffffffffffffff - 1 ↔ ¬ nonce.toNat + 2 < 2 ^ 64 := by
  rw [ge_iff_le, UInt64.le_iff_toNat_le]
  have hlimit : ((0xffffffffffffffff : UInt64) - 1).toNat = 2 ^ 64 - 2 := rfl
  omega

/-- A call hands over an account exactly when it writes to the map, and the two agree. -/
theorem written_write (htarget : target op = some addr) (hproper : Proper host op)
    {old : Option Account} (h : Tracks host old (m.entries addr)) :
    Option.Rel (fun acc w => w.1 = addr ∧ Same host acc w.2) (written host old op)
      (write m op) := by
  have hsame : Same host (old.getD accountEmpty) (m.entry addr) := h.same
  cases op with
  | createContract a =>
    cases htarget
    simp only [written, write, h.isSome]
    split
    · exact .none
    · exact .some ⟨rfl, ⟨rfl, rfl, rfl, fun _ => rfl⟩⟩
  | setBalance a balance =>
    cases htarget
    exact .some ⟨rfl, { hsame with balance := rfl }⟩
  | addBalance a amount =>
    cases htarget
    simp only [written, write, addBalance_fits, hsame.balance]
    split
    · exact .none
    · next hfits =>
      rw [not_not] at hfits
      rw [if_pos hfits]
      refine .some ⟨rfl, { hsame with balance := ?_ }⟩
      rw [toNat_add, hsame.balance, Nat.mod_eq_of_lt hfits]
  | subBalance a amount =>
    cases htarget
    cases old with
    | none =>
      rw [written, Option.bind_none, write, ← h.isSome, if_neg (by rintro ⟨⟨⟩, -⟩)]
      exact .none
    | some acc =>
      have hbalance : acc.balance.toNat = (m.entry addr).balance := hsame.balance
      have hsome : (m.entries addr).isSome = true := h.isSome.symm
      simp only [written, write, Option.bind_some, lt_iff, hbalance, hsome, true_and]
      by_cases hfits : amount.toNat ≤ (m.entry addr).balance
      · rw [if_pos hfits, if_neg (Nat.not_lt.mpr hfits)]
        refine .some ⟨rfl, { hsame with balance := ?_ }⟩
        rw [toNat_sub_of_le (hbalance ▸ hfits), hbalance]
      · rw [if_neg hfits, if_pos (Nat.not_le.mp hfits)]
        exact .none
  | setNonce a nonce =>
    cases htarget
    exact .some ⟨rfl, { hsame with nonce := rfl }⟩
  | incrementNonce a =>
    cases htarget
    simp only [written, write, incrementNonce_fits, hsame.nonce]
    split
    · exact .none
    · next hfits =>
      rw [not_not] at hfits
      rw [if_pos hfits]
      refine .some ⟨rfl, { hsame with nonce := ?_ }⟩
      rw [UInt64.toNat_add, hsame.nonce, UInt64.toNat_one, Nat.mod_eq_of_lt (by omega)]
  | setCode a code =>
    cases htarget
    exact .some ⟨rfl, { hsame with code := rfl, proper := hproper.codeHashOf }⟩
  | _ => cases htarget

/-- A call hands over an account, deletes one, writes a slot, or writes nothing. -/
theorem op_kinds (op : WorldOp) :
    (∃ addr, target op = some addr) ∨ (∃ addr, op = .deleteAccount addr) ∨
      (∃ addr slot value, op = .setStorage addr slot value) ∨
      (∀ m, write m op = none) ∧
        ∀ host accounts, viewStep host accounts op = accounts := by
  cases op with
  | deleteAccount addr => exact Or.inr (Or.inl ⟨addr, rfl⟩)
  | setStorage addr slot value => exact Or.inr (Or.inr (Or.inl ⟨addr, slot, value, rfl⟩))
  | warmAddress addr => exact Or.inr (Or.inr (Or.inr ⟨fun _ => rfl, fun _ _ => rfl⟩))
  | warmSlot addr slot => exact Or.inr (Or.inr (Or.inr ⟨fun _ => rfl, fun _ _ => rfl⟩))
  | beginTransaction => exact Or.inr (Or.inr (Or.inr ⟨fun _ => rfl, fun _ _ => rfl⟩))
  | snapshot => exact Or.inr (Or.inr (Or.inr ⟨fun _ => rfl, fun _ _ => rfl⟩))
  | revertToSnapshot id => exact Or.inr (Or.inr (Or.inr ⟨fun _ => rfl, fun _ _ => rfl⟩))
  | commitSnapshot id => exact Or.inr (Or.inr (Or.inr ⟨fun _ => rfl, fun _ _ => rfl⟩))
  | stateRoot => exact Or.inr (Or.inr (Or.inr ⟨fun _ => rfl, fun _ _ => rfl⟩))
  | _ addr => exact Or.inl ⟨addr, rfl⟩

/-- What a call on an account writes has the slots that are there. -/
theorem write_slots (htarget : target op = some addr) (hwrite : write m op = some w) :
    w.1 = addr ∧ w.2.slots = (m.entry addr).slots := by
  cases op with
  | createContract a =>
    cases htarget
    rw [write] at hwrite
    split at hwrite
    · cases hwrite
    · next hnone =>
      cases hwrite
      rw [AccountMap.entry, Option.not_isSome_iff_eq_none.mp hnone]
      exact ⟨rfl, rfl⟩
  | addBalance a amount =>
    cases htarget
    rw [write] at hwrite
    split at hwrite
    · cases hwrite
      exact ⟨rfl, rfl⟩
    · cases hwrite
  | subBalance a amount =>
    cases htarget
    rw [write] at hwrite
    split at hwrite
    · cases hwrite
      exact ⟨rfl, rfl⟩
    · cases hwrite
  | incrementNonce a =>
    cases htarget
    rw [write] at hwrite
    split at hwrite
    · cases hwrite
      exact ⟨rfl, rfl⟩
    · cases hwrite
  | setBalance a balance =>
    cases htarget
    cases hwrite
    exact ⟨rfl, rfl⟩
  | setNonce a nonce =>
    cases htarget
    cases hwrite
    exact ⟨rfl, rfl⟩
  | setCode a code =>
    cases htarget
    cases hwrite
    exact ⟨rfl, rfl⟩
  | _ => cases htarget

theorem target_uses (htarget : target op = some addr) (huses : op.Uses addrs slots) :
    addr ∈ addrs := by
  cases op <;> cases htarget <;> exact huses

variable {probe : Address}

/-- The accounts follow the map through a call. -/
theorem tracks_step {accounts : Address → Option Account}
    (h : ∀ addr ∈ addrs, Tracks host (accounts addr) (m.entries addr))
    (huses : op.Uses addrs slots) (hproper : Proper host op) (hprobe : probe ∈ addrs) :
    Tracks host (viewStep host accounts op probe) ((step m op).entries probe) := by
  rcases op_kinds op with
    ⟨addr, htarget⟩ | ⟨addr, rfl⟩ | ⟨addr, slot, value, rfl⟩ | ⟨hnone, hview⟩
  · have hrel := written_write htarget hproper (h addr (target_uses htarget huses))
    simp only [viewStep, htarget, step]
    generalize written host (accounts addr) op = handed, write m op = put at hrel ⊢
    cases hrel with
    | none => exact h probe hprobe
    | some hboth =>
      obtain ⟨rfl, hsame⟩ := hboth
      simp only [Option.elim_some, Function.update_apply, AccountMap.entries_put]
      split
      · exact hsame.tracks
      · exact h probe hprobe
  · rw [step, write, Option.elim_some, AccountMap.entries_put]
    simp only [viewStep, target, Function.update_apply]
    split
    · exact ⟨rfl, same_zero host⟩
    · exact h probe hprobe
  · rw [step, write, Option.elim_some, AccountMap.entries_put]
    split
    · next heq =>
      rw [heq]
      exact (h addr huses.1).withSlots _
    · exact h probe hprobe
  · rw [hview, step_none (hnone m)]
    exact h probe hprobe

theorem write_uses (hwrite : write m op = some w) (huses : op.Uses addrs slots) : w.1 ∈ addrs := by
  rcases op_kinds op with
    ⟨addr, htarget⟩ | ⟨addr, rfl⟩ | ⟨addr, slot, value, rfl⟩ | ⟨hnone, -⟩
  · exact (write_slots htarget hwrite).1 ▸ target_uses htarget huses
  · cases hwrite
    exact huses
  · cases hwrite
    exact huses.1
  · rw [hnone m] at hwrite
    cases hwrite

def slotsBy (m : Map) (op : WorldOp) (probe : Address) : Word → ℕ :=
  match write m op with
  | some w => if probe = w.1 then w.2.slots else (m.entry probe).slots
  | none => (m.entry probe).slots

theorem slotsBy_target (htarget : target op = some addr) (probe : Address) :
    slotsBy m op probe = (m.entry probe).slots := by
  unfold slotsBy
  cases hwrite : write m op with
  | none => rfl
  | some w =>
    obtain ⟨haddr, hslots⟩ := write_slots htarget hwrite
    dsimp only
    split
    · next heq => rw [hslots, heq, haddr]
    · rfl

/-- Removing an empty account is where the map differs from these. -/
theorem slots_step (hwrite : write m op = some w) (probe : Address) (slot : Word) :
    ((step m op).entry probe).slots slot =
      if probe = w.1 ∧ w.2.Empty then 0 else slotsBy m op probe slot := by
  rw [step_some hwrite, slotsBy, hwrite]
  by_cases hprobe : probe = w.1
  · rw [hprobe, AccountMap.slots_put_self]
    simp only [true_and, if_true]
  · rw [AccountMap.entry_put_ne _ _ hprobe, if_neg fun h => hprobe h.1]
    simp only [hprobe, if_false]

def Within (m : Map) (slots : Set Word) : Prop :=
  ∀ addr slot, slot ∉ slots → (m.entry addr).slots slot = 0

theorem slotsBy_within (h : Within m slots) (huses : op.Uses addrs slots) (addr : Address)
    {slot : Word} (hslot : slot ∉ slots) : slotsBy m op addr slot = 0 := by
  rcases op_kinds op with ⟨a, htarget⟩ | ⟨a, rfl⟩ | ⟨a, s, value, rfl⟩ | ⟨hnone, -⟩
  · rw [slotsBy_target htarget, h addr slot hslot]
  · simp only [slotsBy, write]
    split
    · rfl
    · exact h addr slot hslot
  · simp only [slotsBy, write]
    split
    · rw [Function.update_of_ne (by rintro rfl; exact hslot huses.2), h a slot hslot]
    · exact h addr slot hslot
  · rw [slotsBy, hnone m]
    exact h addr slot hslot

theorem within_step (h : Within m slots) (huses : op.Uses addrs slots) :
    Within (step m op) slots := by
  intro addr slot hslot
  cases hwrite : write m op with
  | none => rw [step_none hwrite, h addr slot hslot]
  | some w => rw [slots_step hwrite, slotsBy_within h huses addr hslot, ite_self]

/-- The slots of the map are these exactly when the call loses none. -/
theorem slots_step_iff (h : Within m slots) (huses : op.Uses addrs slots) :
    (∀ addr ∈ addrs, ∀ slot ∈ slots,
      slotsBy m op addr slot = ((step m op).entry addr).slots slot) ↔ Lossless m op := by
  cases hwrite : write m op with
  | none =>
    refine iff_of_true ?_ ?_
    · intro addr _ slot _
      rw [step_none hwrite, slotsBy, hwrite]
    · intro w hw
      rw [hwrite] at hw
      cases hw
  | some w =>
    have hself : ∀ slot, slotsBy m op w.1 slot = w.2.slots slot := by
      intro slot
      simp only [slotsBy, hwrite, if_true]
    constructor
    · intro hsame w' hw' hempty slot
      obtain rfl : w = w' := Option.some.inj (hwrite.symm.trans hw')
      by_cases hslot : slot ∈ slots
      · have hlost := hsame w.1 (write_uses hwrite huses) slot hslot
        rw [slots_step hwrite, if_pos ⟨rfl, hempty⟩, hself] at hlost
        exact hlost
      · rw [← hself, slotsBy_within h huses w.1 hslot]
    · intro hkeeps addr _ slot _
      rw [slots_step hwrite]
      split
      · next hgone => rw [hgone.1, hself, hkeeps w hwrite hgone.2 slot]
      · rfl

/-- A slot that follows the map before a call holds what the call leaves it with. -/
theorem storedBy_slotsBy {slot old : Word} (h : old.toNat = (m.entry probe).slots slot) :
    (storedBy probe slot old op).toNat = slotsBy m op probe slot := by
  rcases op_kinds op with ⟨a, htarget⟩ | ⟨a, rfl⟩ | ⟨a, s, value, rfl⟩ | ⟨hnone, -⟩
  · rw [slotsBy_target htarget, ← h]
    cases op <;> cases htarget <;> rfl
  · simp only [storedBy, slotsBy, write]
    split
    · rfl
    · exact h
  · simp only [storedBy, writtenBy, slotsBy, write]
    by_cases hprobe : probe = a
    · subst hprobe
      simp only [true_and, if_true, Function.update_apply, ← h]
      split <;> rfl
    · simp only [hprobe, false_and, if_false, h]
  · have hkept : storedBy probe slot old op = old := by
      cases op with
      | deleteAccount a => exact absurd (hnone m) (Option.some_ne_none _)
      | setStorage a s value => exact absurd (hnone m) (Option.some_ne_none _)
      | _ => rfl
    rw [hkept, slotsBy, hnone m, h]

variable {ops : List WorldOp}

section Runs

variable [OnArena host] (hinj : Set.InjOn (addressToKey host) addrs)
include hinj

/-- A call changes nothing but what it is about. -/
theorem call_local [Roomy host] (hslots : Set.InjOn (slotToKey host) slots)
    (h : Sound host ws addrs slots) (huses : op.Uses addrs slots) :
    Local host ws op addrs slots where
  accounts probe hprobe htarget hdelete := by
    rw [view_applyOp hinj h huses hprobe]
    rcases op_kinds op with ⟨a, hop⟩ | ⟨a, rfl⟩ | ⟨a, s, value, rfl⟩ | ⟨-, hview⟩
    · have hne : probe ≠ a := by
        rintro rfl
        exact htarget hop
      simp only [viewStep, hop]
      cases written host (view host ws a) op with
      | none => rfl
      | some acc => exact Function.update_of_ne hne _ _
    · exact Function.update_of_ne (by rintro rfl; exact hdelete rfl) _ _
    · rfl
    · rw [hview]
  storage probe slot hslot hwrite hdelete := by
    rw [getStorage_applyOp hslots hinj h huses (op.stored_of_roomy host ws) probe hslot]
    cases op with
    | deleteAccount addr => exact if_neg (by rintro rfl; exact hdelete rfl)
    | setStorage addr s value => exact if_neg (by rintro ⟨rfl, rfl⟩; exact hwrite value rfl)
    | _ => rfl

/-- The accounts of a run follow the map. -/
theorem tracks_run (huses : ∀ op ∈ ops, op.Uses addrs slots)
    (hproper : ∀ op ∈ ops, Proper host op) (hprobe : probe ∈ addrs) :
    Tracks host (view host (runOps host worldStateCreate ops) probe)
      ((mapRun ops).entries probe) := by
  induction ops using List.reverseRecOn generalizing probe with
  | nil => exact ⟨rfl, same_zero host⟩
  | append_singleton ops op ih =>
    rw [List.forall_mem_append] at huses hproper
    have hop := huses.2 op List.mem_cons_self
    have hsound := sound_runOps hinj (sound_create host addrs slots) huses.1
    rw [runOps_concat, view_applyOp hinj hsound hop hprobe, mapRun_concat]
    exact tracks_step (fun addr haddr => ih huses.1 hproper.1 haddr) hop
      (hproper.2 op List.mem_cons_self) hprobe

/-- What is observed of the accounts follows from that. -/
theorem observed_iff (huses : ∀ op ∈ ops, op.Uses addrs slots)
    (hproper : ∀ op ∈ ops, Proper host op) :
    Observed host (runOps host worldStateCreate ops) (mapRun ops) addrs slots ↔
      ∀ addr ∈ addrs, ∀ slot ∈ slots,
        (wsGetStorage host (runOps host worldStateCreate ops) addr slot).toNat =
          ((mapRun ops).entry addr).slots slot := by
  have hsound := sound_runOps hinj (sound_create host addrs slots) huses
  have htracks := fun probe (hprobe : probe ∈ addrs) => tracks_run hinj huses hproper hprobe
  generalize runOps host worldStateCreate ops = ws at *
  generalize mapRun ops = m at *
  refine ⟨Observed.storage, fun hstorage => ?_⟩
  have haccount : ∀ addr ∈ addrs, Same host (accountOrEmpty host ws addr) (m.entry addr) := by
    intro addr haddr
    have hsame := (htracks addr haddr).same
    unfold view at hsame
    rw [accountOrEmpty]
    cases hget : worldStateGetAccount host ws addr with
    | none =>
      rw [hget] at hsame
      exact hsame
    | some acc =>
      rw [hget] at hsame
      exact ⟨hsame.nonce, hsame.balance, hsame.code, hsame.proper⟩
  refine ⟨?_, ?_, ?_, ?_, hstorage⟩
  · intro addr haddr
    rw [← (haccount addr haddr).balance, wsGetBalance, accountOrEmpty]
    cases worldStateGetAccount host ws addr <;> rfl
  · intro addr haddr
    rw [← (haccount addr haddr).nonce, wsGetNonce, accountOrEmpty]
    cases worldStateGetAccount host ws addr <;> rfl
  · intro addr haddr
    rw [wsAccountExists_eq hsound.accounts.wellFormed, ← worldStateGetAccount_eq,
      ← (htracks addr haddr).isSome, view, Option.isSome_map]
  · intro addr haddr
    rw [← (haccount addr haddr).isEmpty_iff, wsAccountIsEmpty, accountOrEmpty]
    cases worldStateGetAccount host ws addr <;> rfl

end Runs

theorem within_run (huses : ∀ op ∈ ops, op.Uses addrs slots) : Within (mapRun ops) slots := by
  induction ops using List.reverseRecOn with
  | nil => exact fun _ _ _ => rfl
  | append_singleton ops op ih =>
    rw [List.forall_mem_append] at huses
    rw [mapRun_concat]
    exact within_step (ih huses.1) (huses.2 op List.mem_cons_self)

/-- Calls on a new world state behave as on the map exactly when none of them writes an
empty account that has a slot in use. -/
theorem worldState_refines_iff (host : Host) [OnArena host] [Roomy host] (addrs : Set Address)
    (slots : Set Word) (hinj : Set.InjOn (addressToKey host) addrs)
    (hslots : Set.InjOn (slotToKey host) slots) (ops : List WorldOp)
    (huses : ∀ op ∈ ops, op.Uses addrs slots) (hproper : ∀ op ∈ ops, Proper host op) :
    Refines host ops addrs slots ↔
      EachCall (fun before op => Lossless (mapRun before) op) ops := by
  have hsound : ∀ before after, ops = before ++ after →
      Sound host (runOps host worldStateCreate before) addrs slots := by
    rintro before after rfl
    rw [List.forall_mem_append] at huses
    exact sound_runOps hinj (sound_create _ addrs slots) huses.1
  have hobserved : Throughout (fun before => Observed host
      (runOps host worldStateCreate before) (mapRun before) addrs slots) ops ↔
      EachCall (fun before op => Lossless (mapRun before) op) ops := by
    refine throughout_iff ?_ ?_
    · exact (observed_iff hinj (List.forall_mem_nil _) (List.forall_mem_nil _)).mpr
        fun _ _ _ _ => rfl
    · rintro before op after rfl hgood
      rw [List.append_cons, List.forall_mem_append] at huses hproper
      have hop := huses.1 op (List.mem_append_right _ List.mem_cons_self)
      have hbefore := hsound before _ rfl
      rw [observed_iff hinj huses.1 hproper.1, runOps_concat, mapRun_concat,
        ← slots_step_iff (within_run (List.forall_mem_append.mp huses.1).1) hop]
      refine forall₄_congr fun addr haddr slot hslot => ?_
      rw [getStorage_applyOp hslots hinj hbefore hop (op.stored_of_roomy _ _) addr hslot,
        storedBy_slotsBy (hgood.storage addr haddr slot hslot)]
  refine ⟨fun h => hobserved.mp h.observed, fun h => ⟨hobserved.mpr h, ?_, ?_⟩⟩
  · rintro before op after rfl
    have hop := huses op (List.mem_append_right _ List.mem_cons_self)
    exact call_local hinj hslots (hsound before _ rfl) hop
  · exact fun before after _ => failsCleanly _ _

def withSlot (rest : List WorldOp) : List WorldOp :=
  .setBalance (lowAddress 1) (uint256FromU64 5) ::
    .setStorage (lowAddress 1) uint256Zero (uint256FromU64 7) :: rest

theorem worldState_refines_iff_withSlot :
    Refines paddedHost (withSlot [.stateRoot]) {lowAddress 1} {uint256Zero} := by
  refine (worldState_refines_iff paddedHost {lowAddress 1} {uint256Zero} (Set.injOn_singleton _ _)
    (Set.injOn_singleton _ _) (withSlot [.stateRoot]) ?_ ?_).mpr ?_
  · simp [withSlot, WorldOp.Uses]
  · simp [withSlot, Proper]
  · simp only [withSlot, eachCall_cons, eachCall_nil, and_true]
    refine ⟨?_, ?_, ?_⟩
    · intro w hwrite hempty
      cases hwrite
      exact absurd hempty.2.1 (by decide)
    · intro w hwrite hempty
      cases hwrite
      exact absurd hempty.2.1 (by decide)
    · intro w hwrite
      cases hwrite

/-- Spending the whole balance removes the account, but not its storage. -/
theorem emptied_account_keeps_storage :
    wsGetStorage paddedHost (runOps paddedHost worldStateCreate
        (withSlot [.setBalance (lowAddress 1) uint256Zero])) (lowAddress 1) uint256Zero =
      uint256FromU64 7 ∧
    ((mapRun (withSlot [.setBalance (lowAddress 1) uint256Zero])).entry (lowAddress 1)).slots
      uint256Zero = 0 := by
  have huses : ∀ op ∈ withSlot [.setBalance (lowAddress 1) uint256Zero],
      op.Uses {lowAddress 1} {uint256Zero} := by
    simp [withSlot, WorldOp.Uses]
  refine ⟨?_, by decide⟩
  rw [getStorage_runOps (Set.injOn_singleton _ _) (Set.injOn_singleton _ _)
    (sound_create _ {lowAddress 1} {uint256Zero}) huses (allStored_of_roomy _ _)
    (lowAddress 1) rfl]
  decide

end Div0.WorldRefinement
