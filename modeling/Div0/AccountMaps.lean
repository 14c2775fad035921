import Mathlib.Data.Nat.Notation
import Mathlib.Logic.Function.Basic

/-!
Maps of accounts that keep no empty one. An entry has a nonce, a balance, a code and slots;
it is empty when the first three are, whatever the slots hold. Putting an empty entry
removes the account, and its slots with it.
-/

namespace Div0.AccountMaps

variable {A S B : Type*}

structure Entry (S B : Type*) where
  nonce : ℕ
  balance : ℕ
  code : List B
  slots : S → ℕ

namespace Entry

def zero : Entry S B := ⟨0, 0, [], fun _ => 0⟩

def Empty (e : Entry S B) : Prop := e.nonce = 0 ∧ e.balance = 0 ∧ e.code = []

instance (e : Entry S B) : Decidable e.Empty :=
  inferInstanceAs (Decidable (e.nonce = 0 ∧ e.balance = 0 ∧ e.code = []))

/-- No slot is lost when the entry is removed for being empty. -/
def Lossless (e : Entry S B) : Prop := e.Empty → ∀ slot, e.slots slot = 0

end Entry

/-- A map from addresses to entries that are not empty. -/
structure AccountMap (A S B : Type*) where
  entries : A → Option (Entry S B)
  nonempty : ∀ addr e, entries addr = some e → ¬ e.Empty

namespace AccountMap

def empty : AccountMap A S B := ⟨fun _ => none, by rintro addr e ⟨⟩⟩

def entry (m : AccountMap A S B) (addr : A) : Entry S B := (m.entries addr).getD Entry.zero

/-- An account reads as empty exactly when it is not there. -/
theorem entry_empty_iff (m : AccountMap A S B) (addr : A) :
    (m.entry addr).Empty ↔ m.entries addr = none := by
  unfold entry
  cases hentry : m.entries addr with
  | none => exact iff_of_true ⟨rfl, rfl, rfl⟩ rfl
  | some e => exact iff_of_false (m.nonempty addr e hentry) (Option.some_ne_none e)

variable [DecidableEq A]

/-- Write an entry; an empty one goes, with its slots. -/
def put (m : AccountMap A S B) (addr : A) (e : Entry S B) : AccountMap A S B where
  entries := Function.update m.entries addr (if e.Empty then none else some e)
  nonempty := by
    intro probe old hold
    rw [Function.update_apply] at hold
    split at hold
    · split at hold
      · cases hold
      · next hfull =>
        cases hold
        exact hfull
    · exact m.nonempty probe old hold

theorem entries_put (m : AccountMap A S B) (addr : A) (e : Entry S B) (probe : A) :
    (m.put addr e).entries probe =
      if probe = addr then if e.Empty then none else some e else m.entries probe :=
  Function.update_apply ..

theorem entry_put_ne (m : AccountMap A S B) {addr probe : A} (e : Entry S B) (h : probe ≠ addr) :
    (m.put addr e).entry probe = m.entry probe := by
  rw [entry, entries_put, if_neg h, entry]

theorem slots_put_self (m : AccountMap A S B) (addr : A) (e : Entry S B) (slot : S) :
    ((m.put addr e).entry addr).slots slot = if e.Empty then 0 else e.slots slot := by
  rw [entry, entries_put, if_pos rfl]
  split <;> rfl

end AccountMap

end Div0.AccountMaps
