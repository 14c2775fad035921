import Mathlib.Data.List.AList
import Mathlib.Data.List.Induction

/-!
Sets, maps and vectors that grow in blocks of an allocator. From the number of entries it has
and their size a container takes one more entry or refuses it; a refused entry leaves the
container as it is, and whoever inserts is not told. How a container grows is a parameter, with
the law that its entries lie in one block.
-/

namespace Div0.Containers

/-- Whether a container with `n` entries of `size` bytes takes one more. -/
abbrev Growth := (size n : ℕ) → Bool

namespace Growth

def ample : Growth := fun _ _ => true

/-- The entries of a container lie in one block. -/
def InBlock (growth : Growth) (block : ℕ) : Prop :=
  ∀ size n, growth size n = true → (n + 1) * size ≤ block

/-- Containers that refuse an entry only where it does not fit the block. -/
def packed (block : ℕ) : Growth := fun size n => decide ((n + 1) * size ≤ block)

theorem packed_inBlock (block : ℕ) : (packed block).InBlock block :=
  fun _ _ h => of_decide_eq_true h

end Growth

variable {α β : Type} (room : ℕ → Bool)

section Sets

variable [DecidableEq α]

def insertSet (set : List α) (a : α) : List α := bif room set.length then set.insert a else set

variable {room}

theorem mem_insertSet {set : List α} {a b : α} :
    b ∈ insertSet room set a ↔ b = a ∧ room set.length = true ∨ b ∈ set := by
  unfold insertSet
  cases room set.length <;> simp

theorem nodup_insertSet {set : List α} (h : set.Nodup) (a : α) :
    (insertSet room set a).Nodup := by
  unfold insertSet
  cases room set.length with
  | false => exact h
  | true => exact h.insert

variable (room) in
def insertAll (items : List α) : List α := items.foldl (insertSet room) []

theorem insertAll_concat (items : List α) (a : α) :
    insertAll room (items ++ [a]) = insertSet room (insertAll room items) a :=
  List.foldl_append

theorem nodup_insertAll (items : List α) : (insertAll room items).Nodup := by
  induction items using List.reverseRecOn with
  | nil => exact List.nodup_nil
  | append_singleton items a ih =>
    rw [insertAll_concat]
    exact nodup_insertSet ih a

theorem insertAll_length_le {bound : ℕ} (hroom : ∀ n, room n = true → n + 1 ≤ bound)
    (items : List α) : (insertAll room items).length ≤ bound := by
  induction items using List.reverseRecOn with
  | nil => exact Nat.zero_le _
  | append_singleton items a ih =>
    rw [insertAll_concat, insertSet]
    cases hsize : room (insertAll room items).length with
    | false => exact ih
    | true =>
      rw [cond_true, List.length_insert]
      have hlast := hroom _ hsize
      split <;> omega

/-- A set that has refused an item refuses every later one. -/
theorem room_insertAll_of_refused {items : List α} {a : α} (ha : a ∈ items)
    (hrefused : a ∉ insertAll room items) : room (insertAll room items).length = false := by
  induction items using List.reverseRecOn with
  | nil => cases ha
  | append_singleton items b ih =>
    rw [insertAll_concat, mem_insertSet, not_or] at hrefused
    cases hroom : room (insertAll room items).length with
    | false => rwa [insertAll_concat, insertSet, hroom, cond_false]
    | true =>
      have hne : a ≠ b := fun heq => hrefused.1 ⟨heq, hroom⟩
      rw [List.mem_append, List.mem_singleton, or_iff_left hne] at ha
      rw [ih ha hrefused.2] at hroom
      cases hroom

end Sets

section Maps

variable [DecidableEq α]

/-- An entry that is there stays as it is. -/
def insertNew (map : AList fun _ : α => β) (key : α) (value : β) : AList fun _ : α => β :=
  if key ∈ map then map else bif room map.entries.length then map.insert key value else map

/-- The map has the key, or takes it. -/
def HasRoom (map : AList fun _ : α => β) (key : α) : Prop :=
  key ∈ map ∨ room map.entries.length = true

instance (map : AList fun _ : α => β) (key : α) : Decidable (HasRoom room map key) :=
  inferInstanceAs (Decidable (_ ∨ _))

variable {room}

theorem lookup_insertNew (map : AList fun _ : α => β) (key probe : α) (value : β) :
    (insertNew room map key value).lookup probe =
      if probe = key ∧ HasRoom room map key then some ((map.lookup key).getD value)
      else map.lookup probe := by
  unfold insertNew
  by_cases hmem : key ∈ map
  · obtain ⟨old, hold⟩ := Option.isSome_iff_exists.mp (AList.lookup_isSome.mpr hmem)
    rw [if_pos hmem, hold, Option.getD_some]
    split
    · next hprobe => rw [hprobe.1, hold]
    · rfl
  · rw [if_neg hmem, AList.lookup_eq_none.mpr hmem, Option.getD_none]
    cases hroom : room map.entries.length with
    | false => simp [HasRoom, hmem, hroom]
    | true =>
      by_cases hprobe : probe = key
      · subst hprobe
        simp [HasRoom, hroom]
      · simp [hprobe, AList.lookup_insert_ne]

theorem insertNew_length_le {bound : ℕ} (hroom : ∀ n, room n = true → n + 1 ≤ bound)
    {map : AList fun _ : α => β} (h : map.entries.length ≤ bound) (key : α) (value : β) :
    (insertNew room map key value).entries.length ≤ bound := by
  unfold insertNew
  split
  · exact h
  · next hmem =>
    cases hsize : room map.entries.length with
    | false => exact h
    | true =>
      rw [cond_true, AList.entries_insert_of_notMem hmem, List.length_cons]
      exact hroom _ hsize

theorem mem_insertNew {map : AList fun _ : α => β} {key : α} {value : β} :
    key ∈ insertNew room map key value ↔ HasRoom room map key := by
  rw [← AList.lookup_isSome, lookup_insertNew]
  by_cases hroom : HasRoom room map key
  · simp [hroom]
  · have hmem : key ∉ map := fun hmem => hroom (Or.inl hmem)
    simp [hroom, AList.lookup_eq_none.mpr hmem]

end Maps

section Vectors

def push (vec : List α) (a : α) : List α := bif room vec.length then vec ++ [a] else vec

def pushAll (items : List α) : List α := items.foldl (push room) []

/-- A vector takes `n` entries, one after the other. -/
def Taken (n : ℕ) : Prop := ∀ m < n, room m = true

variable {room}

theorem pushAll_concat (items : List α) (a : α) :
    pushAll room (items ++ [a]) = push room (pushAll room items) a :=
  List.foldl_append

theorem pushAll_sublist (items : List α) : (pushAll room items).Sublist items := by
  induction items using List.reverseRecOn with
  | nil => exact List.Sublist.refl []
  | append_singleton items a ih =>
    rw [pushAll_concat, push]
    cases room (pushAll room items).length with
    | false => exact ih.trans (List.sublist_append_left items [a])
    | true => exact ih.append (List.Sublist.refl [a])

theorem pushAll_of_taken {items : List α} (h : Taken room items.length) :
    pushAll room items = items := by
  induction items using List.reverseRecOn with
  | nil => rfl
  | append_singleton items a ih =>
    rw [List.length_append, List.length_singleton] at h
    rw [pushAll_concat, ih fun m hm => h m (by omega), push, h items.length (by omega), cond_true]

/-- What a vector holds, it has taken. -/
theorem taken_pushAll (items : List α) : Taken room (pushAll room items).length := by
  induction items using List.reverseRecOn with
  | nil => exact fun m hm => absurd hm (Nat.not_lt_zero m)
  | append_singleton items a ih =>
    rw [pushAll_concat, push]
    cases hroom : room (pushAll room items).length with
    | false => exact ih
    | true =>
      intro m hm
      rw [cond_true, List.length_append, List.length_singleton] at hm
      rcases Nat.lt_succ_iff_lt_or_eq.mp hm with hlt | rfl
      · exact ih m hlt
      · exact hroom

end Vectors

end Div0.Containers
