import Div0.WorldState

/-!
The erasure of the slots of one address from the set of all slots. A round walks the set in
the order of its table and erases at most 64 slots; the erasures may move the others, so
every round has an order of its own. Each round erases what it collects and nothing else,
and a round that goes on has collected 64 slots.
-/

namespace Div0.SlotErasure

open Uint256 WorldState

/-- The orders in which the rounds walk the set. -/
structure WalkOrder where
  order : ℕ → List SlotKey → List SlotKey
  perm : ∀ round slots, (order round slots).Perm slots

def listOrder : WalkOrder := ⟨fun _ slots => slots, fun _ _ => List.Perm.refl _⟩

/-- The rounds of `erase_slots_for_address` from round `round` on; `none` if `fuel` of them
do not reach the end. -/
def eraseRoundsIn (walk : WalkOrder) (addr : Address) : ℕ → ℕ → List SlotKey →
    Option (List SlotKey)
  | 0, _, _ => none
  | fuel + 1, round, slots =>
    let result := eraseRound (walk.order round slots) addr
    if result.2 then eraseRoundsIn walk addr fuel (round + 1) result.1 else some result.1

def others (slots : List SlotKey) (addr : Address) : List SlotKey :=
  slots.filter fun key => decide (key.addr ≠ addr)

def collected (slots : List SlotKey) (addr : Address) : List SlotKey :=
  (slots.filter fun key => decide (key.addr = addr)).take 64

section Round

variable {slots : List SlotKey} {addr : Address}

/-- A round splits the set into the slots it collects and the slots it leaves. -/
theorem eraseRound_perm : (collected slots addr ++ (eraseRound slots addr).1).Perm slots := by
  have hsub : (collected slots addr).Sublist slots :=
    (List.take_sublist _ _).trans List.filter_sublist
  have hleft : (eraseRound slots addr).1 = slots.diff (collected slots addr) :=
    (List.diff_eq_foldl _ _).symm
  rw [hleft]
  exact List.subperm_append_diff_self_of_count_le fun key _ => hsub.count_le key

/-- No slot of another address is erased. -/
theorem others_eraseRound : (others (eraseRound slots addr).1 addr).Perm (others slots addr) := by
  have hown : others (collected slots addr) addr = [] := by
    rw [others, List.filter_eq_nil_iff]
    intro key hkey
    have haddr := of_decide_eq_true (List.mem_filter.mp (List.mem_of_mem_take hkey)).2
    rw [decide_eq_true_iff]
    exact not_not_intro haddr
  have hfilter : (others (collected slots addr ++ (eraseRound slots addr).1) addr).Perm
      (others slots addr) := eraseRound_perm.filter _
  rwa [others, List.filter_append, ← others, hown] at hfilter

/-- The last round collects all that is left of the address. -/
theorem eraseRound_last (h : (eraseRound slots addr).2 = false) :
    (eraseRound slots addr).1.Perm (others slots addr) := by
  have hall : collected slots addr = slots.filter fun key => decide (key.addr = addr) :=
    List.take_of_length_le (not_lt.mp (of_decide_eq_false h))
  have hsplit := List.filter_append_perm (fun key : SlotKey => decide (key.addr = addr)) slots
  simp only [← decide_not] at hsplit
  rw [← hall] at hsplit
  exact (List.perm_append_left_iff _).mp (eraseRound_perm.trans hsplit.symm)

/-- A round that goes on has made the set smaller. -/
theorem eraseRound_smaller (h : (eraseRound slots addr).2 = true) :
    (eraseRound slots addr).1.length < slots.length := by
  have hfull : (collected slots addr).length = 64 := by
    rw [collected, List.length_take, Nat.min_eq_left (of_decide_eq_true h).le]
  have hlen := (@eraseRound_perm slots addr).length_eq
  rw [List.length_append] at hlen
  omega

end Round

/-- The rounds end in every order of the walks. -/
theorem eraseRoundsIn_ends (walk : WalkOrder) (addr : Address) {slots : List SlotKey} {n : ℕ}
    (hn : slots.length < n) (round : ℕ) :
    ∃ final, final.Perm (others slots addr) ∧
      ∀ fuel, slots.length < fuel → eraseRoundsIn walk addr fuel round slots = some final := by
  induction n generalizing slots round with
  | zero => exact absurd hn (Nat.not_lt_zero _)
  | succ n ih =>
    have hperm := walk.perm round slots
    have hothers : (others (walk.order round slots) addr).Perm (others slots addr) :=
      hperm.filter _
    cases hmore : (eraseRound (walk.order round slots) addr).2 with
    | false =>
      refine ⟨_, (eraseRound_last hmore).trans hothers, fun fuel hfuel => ?_⟩
      obtain ⟨fuel, rfl⟩ := Nat.exists_eq_add_one_of_ne_zero (Nat.ne_zero_of_lt hfuel)
      simp only [eraseRoundsIn, hmore, Bool.false_eq_true, if_false]
    | true =>
      have hlen := eraseRound_smaller hmore
      rw [hperm.length_eq] at hlen
      obtain ⟨final, hfinal, hrun⟩ := ih (lt_of_lt_of_le hlen (Nat.lt_succ_iff.mp hn)) (round + 1)
      refine ⟨final, (hfinal.trans others_eraseRound).trans hothers, fun fuel hfuel => ?_⟩
      obtain ⟨fuel, rfl⟩ := Nat.exists_eq_add_one_of_ne_zero (Nat.ne_zero_of_lt hfuel)
      simp only [eraseRoundsIn, hmore, if_true]
      exact hrun fuel (by omega)

/-- The model of the world state walks the set in the order of its list. -/
theorem eraseRounds_eq {addr : Address} {fuel round : ℕ} {slots final : List SlotKey}
    (h : eraseRoundsIn listOrder addr fuel round slots = some final) :
    eraseRounds fuel slots addr = final := by
  induction fuel generalizing round slots with
  | zero => exact absurd h (by rintro ⟨⟩)
  | succ fuel ih =>
    have hround : eraseRound (listOrder.order round slots) addr = eraseRound slots addr := rfl
    simp only [eraseRoundsIn, hround] at h
    rw [eraseRounds]
    rcases hresult : eraseRound slots addr with ⟨rest, _ | _⟩
    · rw [hresult] at h
      exact Option.some.inj h
    · rw [hresult] at h
      exact ih h

theorem eraseSlotsForAddress_perm (slots : List SlotKey) (addr : Address) :
    (eraseSlotsForAddress slots addr).Perm (others slots addr) := by
  obtain ⟨final, hfinal, hrun⟩ := eraseRoundsIn_ends listOrder addr (Nat.lt_succ_self _) 0
  rw [eraseSlotsForAddress, eraseRounds_eq (hrun _ (Nat.lt_succ_self _))]
  exact hfinal

/-- `erase_slots_for_address` ends in every order of its walks, and leaves exactly the slots
of the other addresses. -/
theorem eraseSlots_exact (walk : WalkOrder) (slots : List SlotKey) (addr : Address) :
    ∃ final, final.Perm (others slots addr) ∧
      ∀ extra, eraseRoundsIn walk addr (slots.length + 1 + extra) 0 slots = some final := by
  obtain ⟨final, hfinal, hrun⟩ := eraseRoundsIn_ends walk addr (Nat.lt_succ_self slots.length) 0
  exact ⟨final, hfinal, fun extra => hrun _ (by omega)⟩

end Div0.SlotErasure
