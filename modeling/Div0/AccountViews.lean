import Div0.CodeHistory

/-!
The accounts of a world state without their storage roots, and the slots. A call that
writes an account computes it from the one that is there, and looks at neither the storage
nor the storage root of any account. So both are functions of the calls made, and computing
the state root in between makes no difference to them.
-/

namespace Div0.AccountViews

open BigEndian Node Uint256 Accounts WorldState WorldLedger WorldStores WorldCalls StorageHistory
open CodeHistory

variable {host : Host} {ws : World} {addrs : Set Address} {slots : Set Word}

def dropRoot (acc : Account) : Account := { acc with storageRoot := mptEmptyRoot }

@[simp] theorem accountIsEmpty_dropRoot (acc : Account) :
    accountIsEmpty (dropRoot acc) = accountIsEmpty acc := rfl

theorem dropRoot_refresh (addr : Address) (acc : Account) :
    dropRoot (refresh host ws addr acc) = dropRoot acc := by
  unfold refresh
  cases rootAt host ws addr <;> rfl

section Steps

variable (host : Host)

def view (ws : World) (addr : Address) : Option Account :=
  (worldStateGetAccount host ws addr).map dropRoot

def target : WorldOp → Option Address
  | .createContract addr | .setBalance addr _ | .addBalance addr _ | .subBalance addr _
  | .setNonce addr _ | .incrementNonce addr | .setCode addr _ => some addr
  | _ => none

def written (old : Option Account) : WorldOp → Option Account
  | .createContract _ => if old.isSome then none else some { accountEmpty with nonce := 1 }
  | .setBalance _ balance => some { old.getD accountEmpty with balance := balance }
  | .addBalance _ amount =>
    let acc := old.getD accountEmpty
    if uint256Lt (uint256Add acc.balance amount) acc.balance then none
    else some { acc with balance := uint256Add acc.balance amount }
  | .subBalance _ amount => old.bind fun acc =>
    if uint256Lt acc.balance amount then none
    else some { acc with balance := uint256Sub acc.balance amount }
  | .setNonce _ nonce => some { old.getD accountEmpty with nonce := nonce }
  | .incrementNonce _ =>
    let acc := old.getD accountEmpty
    if acc.nonce ≥ 0xffffffffffffffff - 1 then none else some { acc with nonce := acc.nonce + 1 }
  | .setCode _ code => some { old.getD accountEmpty with codeHash := codeHashOf host code }
  | _ => none

def newCode : WorldOp → Option Bytes
  | .setCode _ code => some code
  | _ => none

def viewStep (accounts : Address → Option Account) (op : WorldOp) : Address → Option Account :=
  match target op with
  | some addr => (written host (accounts addr) op).elim accounts fun acc =>
      Function.update accounts addr (if accountIsEmpty acc then none else some (dropRoot acc))
  | none =>
    match op with
    | .deleteAccount addr => Function.update accounts addr none
    | _ => accounts

def viewRun (ops : List WorldOp) : Address → Option Account :=
  ops.foldl (viewStep host) fun _ => none

end Steps

theorem elim_ite {α β : Type} {c : Prop} [Decidable c] (x : β) (f : α → β) (a : α) :
    (if c then none else some a).elim x f = if c then x else f a := by
  split <;> rfl

theorem map_ite {α β : Type} {c : Prop} [Decidable c] (f : α → β) (a : α) :
    (if c then none else some a).map f = if c then none else some (f a) := by
  split <;> rfl

variable {op : WorldOp}

/-- What a call writes is computed from the account that is there. -/
theorem changeOf_target [OnArena host] (h : AccountsIn host ws addrs)
    {addr : Address} (htarget : target op = some addr) :
    changeOf host ws op = (written host (worldStateGetAccount host ws addr) op).elim .nothing
      fun acc => .account addr acc (newCode op) := by
  cases op with
  | createContract a =>
    cases htarget
    rw [changeOf, wsAccountExists_eq h.wellFormed, ← worldStateGetAccount_eq, written, elim_ite]
    rfl
  | addBalance a amount =>
    cases htarget
    simp only [changeOf, written, accountOrEmpty, elim_ite]
    rfl
  | subBalance a amount =>
    cases htarget
    simp only [changeOf, written]
    cases worldStateGetAccount host ws addr with
    | none => rfl
    | some acc =>
      simp only [Option.bind_some, elim_ite]
      rfl
  | incrementNonce a =>
    cases htarget
    simp only [changeOf, written, accountOrEmpty, elim_ite]
    rfl
  | setBalance a balance =>
    cases htarget
    rfl
  | setNonce a nonce =>
    cases htarget
    rfl
  | setCode a code =>
    cases htarget
    rfl
  | _ => cases htarget

/-- The storage root of the account that is there is copied, never looked at. -/
theorem written_dropRoot (host : Host) (old : Option Account) (op : WorldOp) :
    (written host (old.map dropRoot) op).map dropRoot = (written host old op).map dropRoot := by
  cases op with
  | addBalance a amount =>
    cases old with
    | none => rfl
    | some acc =>
      simp only [written, Option.map_some, Option.getD_some]
      rw [map_ite, map_ite]
      rfl
  | subBalance a amount =>
    cases old with
    | none => rfl
    | some acc =>
      simp only [written, Option.map_some, Option.bind_some]
      rw [map_ite, map_ite]
      rfl
  | incrementNonce a =>
    cases old with
    | none => rfl
    | some acc =>
      simp only [written, Option.map_some, Option.getD_some]
      rw [map_ite, map_ite]
      rfl
  | _ => cases old <;> rfl

variable {probe : Address}

/-- The view of some addresses after a call on one of them depends on their view before. -/
theorem viewStep_congr {accounts accounts' : Address → Option Account}
    (huses : op.Uses addrs slots) (h : ∀ addr ∈ addrs, accounts addr = accounts' addr)
    (hprobe : probe ∈ addrs) :
    viewStep host accounts op probe = viewStep host accounts' op probe := by
  unfold viewStep
  cases htarget : target op with
  | some addr =>
    have haddr : addr ∈ addrs := by
      cases op <;> cases htarget <;> exact huses
    dsimp only
    rw [h addr haddr]
    cases written host (accounts' addr) op with
    | none => exact h probe hprobe
    | some acc => simp only [Option.elim_some, Function.update_apply, h probe hprobe]
  | none =>
    cases op with
    | deleteAccount addr => simp only [Function.update_apply, h probe hprobe]
    | _ => exact h probe hprobe

section Runs

variable [OnArena host] (hinj : Set.InjOn (addressToKey host) addrs)
include hinj

/-- A call changes the view as the step says. -/
theorem view_applyOp (h : Sound host ws addrs slots) (huses : op.Uses addrs slots)
    (hprobe : probe ∈ addrs) :
    view host (applyOp host ws op) probe = viewStep host (view host ws) op probe := by
  rw [view, (applyOp_applied hinj h huses).accounts probe hprobe]
  cases htarget : target op with
  | some addr =>
    have hdrop := written_dropRoot host (worldStateGetAccount host ws addr) op
    rw [changeOf_target h.accounts htarget]
    simp only [viewStep, htarget]
    cases hwritten : written host (worldStateGetAccount host ws addr) op with
    | none =>
      rw [hwritten, Option.map_none, Option.map_eq_none_iff] at hdrop
      rw [view, hdrop]
      rfl
    | some acc =>
      rw [hwritten, Option.map_some, Option.map_eq_some_iff] at hdrop
      obtain ⟨acc', hacc', hsame⟩ := hdrop
      have hempty : accountIsEmpty acc' = accountIsEmpty acc := by
        rw [← accountIsEmpty_dropRoot, hsame, accountIsEmpty_dropRoot]
      rw [view, hacc']
      simp only [Option.elim_some, accountAfter, Function.update_apply, hempty, hsame]
      split
      · split <;> rfl
      · rfl
  | none =>
    cases op with
    | deleteAccount addr =>
      simp only [changeOf, accountAfter, viewStep, htarget, Function.update_apply]
      split <;> rfl
    | stateRoot =>
      simp only [changeOf, accountAfter, viewStep, htarget, view]
      split
      · rw [Option.map_map]
        congr 1
        funext acc
        exact dropRoot_refresh probe acc
      · rfl
    | setStorage addr slot value => rfl
    | warmAddress addr => rfl
    | warmSlot addr slot => rfl
    | beginTransaction => rfl
    | snapshot => rfl
    | revertToSnapshot id => rfl
    | commitSnapshot id => rfl
    | _ => cases htarget

theorem view_runOps {ops : List WorldOp} (huses : ∀ op ∈ ops, op.Uses addrs slots)
    (hprobe : probe ∈ addrs) :
    view host (runOps host worldStateCreate ops) probe = viewRun host ops probe := by
  induction ops using List.reverseRecOn generalizing probe with
  | nil => rfl
  | append_singleton ops op ih =>
    rw [List.forall_mem_append] at huses
    have hop := huses.2 op List.mem_cons_self
    have hsound := sound_runOps hinj (sound_create host addrs slots) huses.1
    rw [runOps_concat, view_applyOp hinj hsound hop hprobe, viewRun, List.foldl_append]
    exact viewStep_congr hop (fun addr haddr => ih huses.1 haddr) hprobe

end Runs

end Div0.AccountViews
