import Div0.PatriciaTree

/-!
Deletion in path-compressed trees. Deleting a key can leave a branch with a single
place taken; `collapse` then joins the letter with the path below it, and `merge`
joins an extension with the node that took the place of its branch.
-/

namespace Div0.PatriciaTree

variable {k : ℕ} {β : Type}

namespace Tree

def merge (path : List (Fin k)) : Tree k β → Tree k β
  | nil => nil
  | leaf p value => leaf (path ++ p) value
  | extension p child => extension (path ++ p) child
  | branch children value => extension path (branch children value)

def letters (children : Fin k → Tree k β) : List (Fin k) :=
  (List.finRange k).filter fun a => !(children a).isNil

def collapse (children : Fin k → Tree k β) (value : Option β) : Tree k β :=
  match letters children, value with
  | [], none => nil
  | [], some v => leaf [] v
  | [a], none => merge [a] (children a)
  | _, _ => branch children value

def erase : Tree k β → List (Fin k) → Tree k β
  | nil, _ => nil
  | leaf path value, key => if key = path then nil else leaf path value
  | extension path child, key =>
    let n := divergence path key
    if n = path.length then merge path (child.erase (key.drop n)) else extension path child
  | branch children _, [] => collapse children none
  | branch children value, a :: rest =>
    collapse (Function.update children a ((children a).erase rest)) value

variable {children : Fin k → Tree k β}

theorem mem_letters {a : Fin k} : a ∈ letters children ↔ children a ≠ nil := by
  simp [letters, isNil_eq_false]

theorem letters_nodup (children : Fin k → Tree k β) : (letters children).Nodup :=
  (List.nodup_finRange k).filter _

theorem letters_eq_nil (h : letters children = []) (a : Fin k) : children a = nil := by
  by_contra hne
  have := mem_letters.mpr hne
  rw [h] at this
  exact List.not_mem_nil this

theorem letters_eq_singleton {a : Fin k} (h : letters children = [a]) :
    children a ≠ nil ∧ ∀ b, b ≠ a → children b = nil := by
  refine ⟨mem_letters.mp (by rw [h]; exact List.mem_singleton_self a), ?_⟩
  intro b hb
  by_contra hne
  have := mem_letters.mpr hne
  rw [h, List.mem_singleton] at this
  exact hb this

theorem Occupied.of_letters_nil {value : Option β} {x : Option (Fin k)}
    (h : Occupied children value x) (hl : letters children = []) : x = none := by
  cases x with
  | none => rfl
  | some a => exact absurd (letters_eq_nil hl a) h

theorem Occupied.of_letters_singleton {x : Option (Fin k)} (h : Occupied children none x)
    {a : Fin k} (hl : letters children = [a]) : x = some a := by
  cases x with
  | none => exact absurd rfl h
  | some b =>
    by_contra hb
    exact h ((letters_eq_singleton hl).2 b (by simpa using hb))

/-- What is left of a branch, case by case. -/
theorem collapse_cases (children : Fin k → Tree k β) (value : Option β) :
    (letters children = [] ∧ value = none ∧ collapse children value = nil) ∨
    (∃ v, letters children = [] ∧ value = some v ∧ collapse children value = leaf [] v) ∨
    (∃ a, letters children = [a] ∧ value = none ∧
      collapse children value = merge [a] (children a)) ∨
    ((∃ x y, x ≠ y ∧ Occupied children value x ∧ Occupied children value y) ∧
      collapse children value = branch children value) := by
  unfold collapse
  cases hl : letters children with
  | nil =>
    cases value with
    | none => exact Or.inl ⟨rfl, rfl, rfl⟩
    | some v => exact Or.inr (Or.inl ⟨v, rfl, rfl, rfl⟩)
  | cons a rest =>
    have ha : children a ≠ nil := mem_letters.mp (by rw [hl]; exact List.mem_cons_self)
    cases rest with
    | nil =>
      cases value with
      | none => exact Or.inr (Or.inr (Or.inl ⟨a, rfl, rfl, rfl⟩))
      | some v =>
        exact Or.inr (Or.inr (Or.inr ⟨⟨some a, none, by simp, ha, by simp [Occupied]⟩, rfl⟩))
    | cons b rest =>
      have hb : children b ≠ nil := mem_letters.mp (by rw [hl]; simp)
      have hab : a ≠ b := by
        have hnodup := letters_nodup children
        rw [hl] at hnodup
        exact fun h => (List.nodup_cons.mp hnodup).1 (h ▸ List.mem_cons_self)
      exact Or.inr (Or.inr (Or.inr ⟨⟨some a, some b, by simpa using hab, ha, hb⟩, rfl⟩))

theorem lookup_merge (path : List (Fin k)) (t : Tree k β) (key : List (Fin k)) :
    (merge path t).lookup key = (extension path t).lookup key := by
  cases t with
  | nil =>
    by_cases hk : ∃ rest, key = path ++ rest
    · obtain ⟨rest, rfl⟩ := hk
      exact (lookup_extension path nil rest).symm
    · exact (lookup_extension_of_ne fun rest h => hk ⟨rest, h⟩).symm
  | leaf p value => exact lookup_leaf_append path p value key
  | extension p child => exact lookup_extension_append path p child key
  | branch children value => rfl

theorem lookup_collapse (children : Fin k → Tree k β) (value : Option β) (key : List (Fin k)) :
    (collapse children value).lookup key = (branch children value).lookup key := by
  rcases collapse_cases children value with ⟨hl, rfl, hc⟩ | ⟨v, hl, rfl, hc⟩ | ⟨a, hl, rfl, hc⟩ |
    ⟨-, hc⟩
  · rw [hc]
    cases key with
    | nil => rfl
    | cons b rest => rw [lookup_branch_cons, letters_eq_nil hl b]; rfl
  · rw [hc]
    cases key with
    | nil => rfl
    | cons b rest => rw [lookup_branch_cons, letters_eq_nil hl b]; rfl
  · rw [hc, lookup_merge]
    cases key with
    | nil => exact lookup_extension_of_ne (by simp)
    | cons b rest =>
      by_cases hb : b = a
      · subst hb
        exact lookup_extension [b] (children b) rest
      · rw [lookup_branch_cons, (letters_eq_singleton hl).2 b hb, lookup_nil]
        exact lookup_extension_of_ne fun tail h => hb (List.cons.inj h).1
  · rw [hc]

/-- Deletion removes one key from the map. -/
theorem lookup_erase (t : Tree k β) (key probe : List (Fin k)) :
    (t.erase key).lookup probe = if probe = key then none else t.lookup probe := by
  induction t generalizing key probe with
  | nil => simp [erase]
  | leaf path value =>
    rw [erase]
    split
    · next h =>
      subst h
      rw [lookup_leaf, lookup_nil]
      split <;> rfl
    · next h =>
      rw [lookup_leaf]
      split
      · next hp =>
        subst hp
        rw [if_neg (fun hpk => h hpk.symm)]
      · split <;> rfl
  | extension path child ih =>
    by_cases hfull : divergence path key = path.length
    · obtain ⟨rest, rfl⟩ := exists_of_divergence hfull
      simp only [erase, hfull, if_true, List.drop_left, lookup_merge]
      exact lookup_extension_update (fun probe => ih rest probe) path probe
    · simp only [erase, if_neg hfull]
      split
      · next hprobe =>
        subst hprobe
        exact lookup_extension_of_ne fun rest h => hfull (by rw [h, divergence_append])
      · rfl
  | branch children value ih =>
    cases key with
    | nil =>
      rw [erase, lookup_collapse]
      cases probe <;> rfl
    | cons a rest =>
      rw [erase, lookup_collapse]
      exact lookup_branch_update (fun probe => ih a rest probe) value probe

variable {t : Tree k β}

theorem merge_canonical {path : List (Fin k)} (hpath : path ≠ []) (ht : t.Canonical) :
    (merge path t).Canonical := by
  cases t with
  | nil => trivial
  | leaf p value => trivial
  | extension p child => exact ⟨by simp [hpath], ht.2⟩
  | branch children value => exact ⟨hpath, trivial, ht⟩

theorem collapse_canonical (h : ∀ a, (children a).Canonical) (value : Option β) :
    (collapse children value).Canonical := by
  rcases collapse_cases children value with ⟨-, -, hc⟩ | ⟨v, -, -, hc⟩ | ⟨a, -, -, hc⟩ |
    ⟨hfork, hc⟩
  · rw [hc]; trivial
  · rw [hc]; trivial
  · rw [hc]; exact merge_canonical (by simp) (h a)
  · rw [hc]; exact ⟨hfork, h⟩

theorem erase_canonical (ht : t.Canonical) (key : List (Fin k)) : (t.erase key).Canonical := by
  induction t generalizing key with
  | nil => trivial
  | leaf path value =>
    rw [erase]
    split <;> trivial
  | extension path child ih =>
    obtain ⟨hpath, hbranch, hchild⟩ := ht
    simp only [erase]
    split
    · exact merge_canonical hpath (ih hchild _)
    · exact ⟨hpath, hbranch, hchild⟩
  | branch children value ih =>
    obtain ⟨-, hchildren⟩ := ht
    cases key with
    | nil => exact collapse_canonical hchildren none
    | cons a rest => exact collapse_canonical (update_canonical hchildren (ih a (hchildren a) rest)) _

variable {value : Option β}

/-- With two places taken a branch stays as it is. -/
theorem collapse_of_fork
    (h : ∃ x y, x ≠ y ∧ Occupied children value x ∧ Occupied children value y) :
    collapse children value = branch children value := by
  obtain ⟨x, y, hxy, hx, hy⟩ := h
  rcases collapse_cases children value with ⟨hl, rfl, -⟩ | ⟨v, hl, -, -⟩ | ⟨a, hl, rfl, -⟩ | ⟨-, hc⟩
  · exact absurd ((hx.of_letters_nil hl).trans (hy.of_letters_nil hl).symm) hxy
  · exact absurd ((hx.of_letters_nil hl).trans (hy.of_letters_nil hl).symm) hxy
  · exact absurd ((hx.of_letters_singleton hl).trans (hy.of_letters_singleton hl).symm) hxy
  · exact hc

/-- Deleting an absent key changes nothing. -/
theorem erase_of_lookup_none (ht : t.Canonical) {key : List (Fin k)} (h : t.lookup key = none) :
    t.erase key = t := by
  induction t generalizing key with
  | nil => rfl
  | leaf path value =>
    rw [lookup_leaf] at h
    split at h
    · cases h
    · next hne => rw [erase, if_neg hne]
  | extension path child ih =>
    obtain ⟨-, hbranch, hchild⟩ := ht
    simp only [erase]
    split
    · next hfull =>
      rw [lookup, stripPath, if_pos hfull, Option.bind_some] at h
      rw [ih hchild h]
      cases child with
      | branch children value => rfl
      | nil => exact hbranch.elim
      | leaf p value => exact hbranch.elim
      | extension p c => exact hbranch.elim
    · rfl
  | branch children value ih =>
    cases key with
    | nil =>
      have hvalue : value = none := h
      rw [erase, ← hvalue, collapse_of_fork ht.1]
    | cons a rest =>
      rw [erase, ih a (ht.2 a) h, Function.update_eq_self, collapse_of_fork ht.1]

/-- A canonical tree that is present holds a key. -/
theorem exists_lookup (ht : t.Canonical) (hne : t ≠ nil) :
    ∃ key value, t.lookup key = some value := by
  induction t with
  | nil => exact absurd rfl hne
  | leaf path value => exact ⟨path, value, by rw [lookup_leaf, if_pos rfl]⟩
  | extension path child ih =>
    obtain ⟨-, hbranch, hchild⟩ := ht
    obtain ⟨key, value, h⟩ := ih hchild (by rintro rfl; exact hbranch)
    exact ⟨path ++ key, value, by rw [lookup_extension, h]⟩
  | branch children value ih =>
    obtain ⟨⟨x, y, -, hx, -⟩, hchildren⟩ := ht
    cases x with
    | none =>
      obtain ⟨v, hv⟩ := Option.ne_none_iff_exists'.mp hx
      exact ⟨[], v, hv⟩
    | some a =>
      obtain ⟨key, v, h⟩ := ih a (hchildren a) hx
      exact ⟨a :: key, v, h⟩

/-- The key of an occupied place of a canonical branch. -/
private theorem exists_lookup_at {children : Fin k → Tree k β} {value : Option β}
    (hchildren : ∀ a, (children a).Canonical) {x : Option (Fin k)}
    (hx : Occupied children value x) :
    ∃ key v, key.head? = x ∧ (branch children value).lookup key = some v := by
  cases x with
  | none =>
    obtain ⟨v, hv⟩ := Option.ne_none_iff_exists'.mp hx
    exact ⟨[], v, rfl, hv⟩
  | some a =>
    obtain ⟨key, v, h⟩ := exists_lookup (hchildren a) hx
    exact ⟨a :: key, v, rfl, h⟩

/-- A canonical branch holds two keys that differ in the first letter. -/
theorem branch_two_keys (h : (branch children value).Canonical) :
    ∃ key key' v v', key.head? ≠ key'.head? ∧ (branch children value).lookup key = some v ∧
      (branch children value).lookup key' = some v' := by
  obtain ⟨⟨x, y, hxy, hx, hy⟩, hchildren⟩ := h
  obtain ⟨key, v, hkey, hv⟩ := exists_lookup_at hchildren hx
  obtain ⟨key', v', hkey', hv'⟩ := exists_lookup_at hchildren hy
  exact ⟨key, key', v, v', by rw [hkey, hkey']; exact hxy, hv, hv'⟩

/-- Deleting one key leaves something of a branch. -/
theorem erase_branch_ne_nil (h : (branch children value).Canonical) (key : List (Fin k)) :
    (branch children value).erase key ≠ nil := by
  intro hnil
  obtain ⟨a, b, v, w, hne, ha, hb⟩ := branch_two_keys h
  have hall : ∀ probe, probe ≠ key → (branch children value).lookup probe = none := by
    intro probe hprobe
    have := lookup_erase (branch children value) key probe
    rwa [hnil, lookup_nil, if_neg hprobe, eq_comm] at this
  have hak : a = key := by
    by_contra hak
    rw [hall a hak] at ha
    cases ha
  have hbk : b = key := by
    by_contra hbk
    rw [hall b hbk] at hb
    cases hb
  exact hne (by rw [hak, hbk])

def Covers (path : List (Fin k)) (t : Tree k β) : Prop :=
  ∀ key value, t.lookup key = some value → ∃ rest, key = path ++ rest

def Parts (path : List (Fin k)) (t : Tree k β) : Prop :=
  ∃ key key' v v', key.head? ≠ key'.head? ∧ t.lookup (path ++ key) = some v ∧
    t.lookup (path ++ key') = some v'

variable {t u : Tree k β}

theorem Covers.congr {p : List (Fin k)} (h : ∀ key, t.lookup key = u.lookup key) (hc : Covers p t) :
    Covers p u :=
  fun key value hkey => hc key value (by rw [h, hkey])

theorem Parts.congr {p : List (Fin k)} (h : ∀ key, t.lookup key = u.lookup key) (hp : Parts p t) :
    Parts p u := by
  obtain ⟨key, key', v, v', hne, hv, hv'⟩ := hp
  exact ⟨key, key', v, v', hne, by rw [← h, hv], by rw [← h, hv']⟩

theorem covers_extension (path : List (Fin k)) (child : Tree k β) :
    Covers path (extension path child) := by
  intro key value h
  obtain ⟨rest, hrest, -⟩ := exists_of_lookup_extension h
  exact ⟨rest, hrest⟩

theorem parts_branch (h : (branch children value).Canonical) : Parts [] (branch children value) :=
  branch_two_keys h

theorem parts_extension {path : List (Fin k)} {child : Tree k β}
    (h : (extension path child).Canonical) : Parts path (extension path child) := by
  obtain ⟨-, hbranch, hchild⟩ := h
  cases child with
  | branch children value =>
    obtain ⟨key, key', v, v', hne, hv, hv'⟩ := branch_two_keys hchild
    exact ⟨key, key', v, v', hne, by rw [lookup_extension, hv], by rw [lookup_extension, hv']⟩
  | nil => exact hbranch.elim
  | leaf p v => exact hbranch.elim
  | extension p c => exact hbranch.elim

theorem not_parts_leaf (p path : List (Fin k)) (value : β) : ¬Parts p (leaf path value) := by
  rintro ⟨key, key', v, v', hne, hv, hv'⟩
  have hpath : ∀ key v, (leaf path value).lookup key = some v → key = path := by
    intro key v h
    rw [lookup_leaf] at h
    split at h
    · assumption
    · cases h
  have heq := (hpath _ _ hv).trans (hpath _ _ hv').symm
  exact hne (by rw [List.append_cancel_left heq])

/-- What all keys share ends where two of them part. -/
theorem Covers.isPrefix {p q : List (Fin k)} (hc : Covers p t) (hp : Parts q t) : p <+: q := by
  obtain ⟨key, key', v, v', hne, hv, hv'⟩ := hp
  obtain ⟨rest, hrest⟩ := hc _ _ hv
  obtain ⟨rest', hrest'⟩ := hc _ _ hv'
  rcases List.append_eq_append_iff.mp hrest with ⟨a, rfl, hkey⟩ | ⟨a, rfl, -⟩
  · cases a with
    | nil => simp
    | cons x a =>
      rw [List.append_assoc] at hrest'
      have hkey' := List.append_cancel_left hrest'
      exact absurd (by rw [hkey, hkey']; rfl) hne
  · exact List.prefix_append p a

/-- A canonical tree is determined by its lookups. -/
theorem Canonical.eq_of_lookup (ht : t.Canonical) (hu : u.Canonical)
    (h : ∀ key, t.lookup key = u.lookup key) : t = u := by
  induction t generalizing u with
  | nil =>
    by_contra hne
    obtain ⟨key, value, hkey⟩ := exists_lookup hu (Ne.symm hne)
    rw [← h, lookup_nil] at hkey
    cases hkey
  | leaf path value =>
    have hself := h path
    rw [lookup_leaf, if_pos rfl] at hself
    cases u with
    | nil => cases hself
    | leaf p v =>
      rw [lookup_leaf] at hself
      split at hself
      · next heq => cases hself; rw [heq]
      · cases hself
    | extension p c =>
      exact absurd ((parts_extension hu).congr fun key => (h key).symm) (not_parts_leaf _ _ _)
    | branch c v =>
      exact absurd ((parts_branch hu).congr fun key => (h key).symm) (not_parts_leaf _ _ _)
  | extension path child ih =>
    cases u with
    | nil =>
      obtain ⟨key, value, hkey⟩ := exists_lookup ht (by simp)
      rw [h, lookup_nil] at hkey
      cases hkey
    | leaf p v => exact absurd ((parts_extension ht).congr h) (not_parts_leaf _ _ _)
    | extension p c =>
      have hle := ((covers_extension path child).congr h).isPrefix (parts_extension hu)
      have hge := (covers_extension p c).isPrefix ((parts_extension ht).congr h)
      obtain rfl := hle.eq_of_length (Nat.le_antisymm hle.length_le hge.length_le)
      have hchild : ∀ key, child.lookup key = c.lookup key := by
        intro key
        rw [← lookup_extension path child, h, lookup_extension]
      rw [ih ht.2.2 hu.2.2 hchild]
    | branch c v =>
      have hle := ((covers_extension path child).congr h).isPrefix (parts_branch hu)
      exact absurd (List.prefix_nil.mp hle) ht.1
  | branch children value ih =>
    cases u with
    | nil =>
      obtain ⟨key, v, hkey⟩ := exists_lookup ht (by simp)
      rw [h, lookup_nil] at hkey
      cases hkey
    | leaf p v => exact absurd ((parts_branch ht).congr h) (not_parts_leaf _ _ _)
    | extension p c =>
      have hle := (covers_extension p c).isPrefix ((parts_branch ht).congr h)
      exact absurd (List.prefix_nil.mp hle) hu.1
    | branch c v =>
      have hvalue : value = v := h []
      have hchildren : children = c :=
        funext fun a => ih a (ht.2 a) (hu.2 a) fun key => h (a :: key)
      rw [hvalue, hchildren]

end Tree

end Div0.PatriciaTree
