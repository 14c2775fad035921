import Mathlib.Algebra.BigOperators.Fin
import Mathlib.Algebra.Order.BigOperators.Group.Finset

/-!
A ledger over a finite set of accounts: what each of them holds and how many
transactions it has sent. Debits and credits change the total by their amount. A deposit
is a credit that is refused when the balance would reach a bound, a withdrawal is a debit
that is refused when the balance is too small; moving an amount between two accounts,
which may be the same one, by a withdrawal and a deposit keeps a total below the bound.
-/

namespace Div0.Ledgers

@[ext] structure Ledger (κ : Type) where
  balance : κ → ℕ
  nonce : κ → ℕ

namespace Ledger

variable {bound : ℕ}

section Total

variable {κ : Type} [Fintype κ]

def total (l : Ledger κ) : ℕ := ∑ k, l.balance k

theorem balance_le_total (l : Ledger κ) (k : κ) : l.balance k ≤ l.total :=
  Finset.single_le_sum (f := l.balance) (fun _ _ => Nat.zero_le _) (Finset.mem_univ k)

/-- Only balances have moved: the nonces are the same, and so is a total below `bound`. -/
structure Rearranged (bound : ℕ) (l l' : Ledger κ) : Prop where
  total : l.total < bound → l'.total = l.total
  nonce : l'.nonce = l.nonce

theorem Rearranged.refl (bound : ℕ) (l : Ledger κ) : Rearranged bound l l := ⟨fun _ => rfl, rfl⟩

theorem Rearranged.trans {l l' l'' : Ledger κ} (h : Rearranged bound l l')
    (h' : Rearranged bound l' l'') : Rearranged bound l l'' where
  total hlt := by
    have hfirst := h.total hlt
    rw [h'.total (hfirst ▸ hlt), hfirst]
  nonce := h'.nonce.trans h.nonce

/-- Balances have moved, and accounts that had sent nothing may have got a nonce. -/
structure Continues (bound : ℕ) (l l' : Ledger κ) : Prop where
  total : l.total < bound → l'.total = l.total
  nonce_le : ∀ k, l.nonce k ≤ l'.nonce k
  nonce_eq : ∀ k, 0 < l.nonce k → l'.nonce k = l.nonce k

theorem Rearranged.continues {l l' : Ledger κ} (h : Rearranged bound l l') : Continues bound l l' :=
  ⟨h.total, fun k => by rw [h.nonce], fun k _ => by rw [h.nonce]⟩

theorem Continues.trans {l l' l'' : Ledger κ} (h : Continues bound l l')
    (h' : Continues bound l' l'') : Continues bound l l'' where
  total hlt := by
    have hfirst := h.total hlt
    rw [h'.total (hfirst ▸ hlt), hfirst]
  nonce_le k := le_trans (h.nonce_le k) (h'.nonce_le k)
  nonce_eq k hpos := by
    have hfirst := h.nonce_eq k hpos
    rw [h'.nonce_eq k (hfirst ▸ hpos), hfirst]

end Total

variable {κ : Type} [DecidableEq κ] (bound : ℕ) (l : Ledger κ) (k : κ) (amount nonce : ℕ)

def credit : Ledger κ :=
  { l with balance := Function.update l.balance k (l.balance k + amount) }

def debit : Ledger κ :=
  { l with balance := Function.update l.balance k (l.balance k - amount) }

def sign : Ledger κ :=
  { l with nonce := Function.update l.nonce k nonce }

def deposit : Ledger κ :=
  if l.balance k + amount < bound then l.credit k amount else l

def withdraw : Ledger κ :=
  if amount ≤ l.balance k then l.debit k amount else l

@[simp] theorem credit_nonce : (l.credit k amount).nonce = l.nonce := rfl

@[simp] theorem debit_nonce : (l.debit k amount).nonce = l.nonce := rfl

@[simp] theorem deposit_nonce : (l.deposit bound k amount).nonce = l.nonce := by
  unfold deposit
  split <;> rfl

@[simp] theorem withdraw_nonce : (l.withdraw k amount).nonce = l.nonce := by
  unfold withdraw
  split <;> rfl

@[simp] theorem sign_balance : (l.sign k nonce).balance = l.balance := rfl

@[simp] theorem debit_zero : l.debit k 0 = l := by
  rw [debit, Nat.sub_zero, Function.update_eq_self]

@[simp] theorem deposit_zero : l.deposit bound k 0 = l := by
  rw [deposit, credit, Nat.add_zero, Function.update_eq_self]
  split <;> rfl

theorem sign_self : l.sign k (l.nonce k) = l := by
  rw [sign, Function.update_eq_self]

theorem sign_nonce_self : (l.sign k nonce).nonce k = nonce :=
  Function.update_self ..

theorem debit_balance_self : (l.debit k amount).balance k = l.balance k - amount :=
  Function.update_self ..

variable {bound} {l}

theorem sign_nonce_ne {i k : κ} {nonce : ℕ} (h : i ≠ k) : (l.sign k nonce).nonce i = l.nonce i :=
  Function.update_of_ne h ..

variable {amount : ℕ}

theorem deposit_balance_ne {i k : κ} (h : i ≠ k) :
    (l.deposit bound k amount).balance i = l.balance i := by
  unfold deposit
  split
  · exact Function.update_of_ne h ..
  · rfl

/-- An amount that comes back to the account it was taken from. -/
theorem deposit_debit {k : κ} (hle : amount ≤ l.balance k) (hlt : l.balance k < bound) :
    (l.debit k amount).deposit bound k amount = l := by
  have hsum : l.balance k - amount + amount = l.balance k := Nat.sub_add_cancel hle
  rw [deposit, debit_balance_self, hsum, if_pos hlt]
  unfold credit debit
  simp only [Function.update_self, hsum, Function.update_idem, Function.update_eq_self]

variable [Fintype κ]

theorem sum_update (f : κ → ℕ) (k : κ) (v : ℕ) :
    ∑ i, Function.update f k v i + f k = ∑ i, f i + v := by
  rw [Finset.sum_update_of_mem (Finset.mem_univ k), ← Finset.sum_sdiff (Finset.subset_univ {k}),
    Finset.sum_singleton]
  omega

theorem total_credit (l : Ledger κ) (k : κ) (amount : ℕ) :
    (l.credit k amount).total = l.total + amount := by
  have hsum := sum_update l.balance k (l.balance k + amount)
  simp only [total, credit]
  omega

theorem total_debit (l : Ledger κ) {k : κ} (h : amount ≤ l.balance k) :
    (l.debit k amount).total + amount = l.total := by
  have hsum := sum_update l.balance k (l.balance k - amount)
  simp only [total, debit]
  omega

@[simp] theorem total_sign (l : Ledger κ) (k : κ) (nonce : ℕ) : (l.sign k nonce).total = l.total :=
  rfl

theorem total_withdraw {k : κ} (h : amount ≤ l.balance k) :
    (l.withdraw k amount).total + amount = l.total := by
  rw [withdraw, if_pos h, total_debit l h]

/-- A deposit is not refused while the new total stays below the bound. -/
theorem total_deposit (k : κ) (h : l.total + amount < bound) :
    (l.deposit bound k amount).total = l.total + amount := by
  have hle := balance_le_total l k
  have hfits : l.balance k + amount < bound := by omega
  rw [deposit, if_pos hfits, total_credit]

/-- A nonce for an account that may have had none. -/
theorem continues_sign {k : κ} {nonce : ℕ} (hle : l.nonce k ≤ nonce)
    (heq : 0 < l.nonce k → nonce = l.nonce k) : Continues bound l (l.sign k nonce) where
  total _ := total_sign l k nonce
  nonce_le i := by
    by_cases hi : i = k
    · subst hi
      rw [sign_nonce_self]
      exact hle
    · rw [sign_nonce_ne hi]
  nonce_eq i hpos := by
    by_cases hi : i = k
    · subst hi
      rw [sign_nonce_self]
      exact heq hpos
    · rw [sign_nonce_ne hi]

/-- The amount that leaves `source` arrives at `target`. -/
theorem rearranged_transfer {source : κ} (target : κ) (h : amount ≤ l.balance source) :
    Rearranged bound l ((l.withdraw source amount).deposit bound target amount) where
  total hlt := by
    have hleft := total_withdraw h
    rw [total_deposit target (by omega), hleft]
  nonce := by rw [deposit_nonce, withdraw_nonce]

end Ledger

end Div0.Ledgers
