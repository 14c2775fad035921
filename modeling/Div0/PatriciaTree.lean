import Mathlib.Data.List.FinRange

/-!
Path-compressed search trees over a finite alphabet. A leaf holds the rest of its
key, an extension a shared part of several keys, a branch one subtree a letter and
the value of the key that ends there. Insertion and deletion are finite-map updates
on `lookup`, they keep the tree canonical, and a canonical tree is determined by
its `lookup`.
-/

namespace Div0.PatriciaTree

variable {k : ℕ} {β : Type}

def divergence {α : Type} [DecidableEq α] : List α → List α → ℕ
  | p :: path, q :: key => if p = q then divergence path key + 1 else 0
  | _, _ => 0

/-- Where two words part: a common part and two rests that differ in the first letter. -/
theorem divergence_spec {α : Type} [DecidableEq α] (path key : List α) :
    ∃ common p q, path = common ++ p ∧ key = common ++ q ∧
      divergence path key = common.length ∧
      ∀ a p' b q', p = a :: p' → q = b :: q' → a ≠ b := by
  induction path generalizing key with
  | nil => exact ⟨[], [], key, rfl, rfl, by cases key <;> rfl, by rintro a p' b q' h; cases h⟩
  | cons a path ih =>
    cases key with
    | nil => exact ⟨[], a :: path, [], rfl, rfl, rfl, by rintro a p' b q' - h; cases h⟩
    | cons b key =>
      by_cases hab : a = b
      · obtain ⟨common, p, q, hp, hq, hlen, hne⟩ := ih key
        refine ⟨a :: common, p, q, by rw [hp]; rfl, by rw [hq, hab]; rfl, ?_, hne⟩
        rw [divergence, if_pos hab, hlen, List.length_cons]
      · refine ⟨[], a :: path, b :: key, rfl, rfl, by rw [divergence, if_neg hab]; rfl, ?_⟩
        intro a' p' b' q' hp hq
        cases hp
        cases hq
        exact hab

theorem divergence_append {α : Type} [DecidableEq α] (path rest : List α) :
    divergence path (path ++ rest) = path.length := by
  induction path with
  | nil => cases rest <;> rfl
  | cons a path ih => rw [List.cons_append, divergence, if_pos rfl, ih, List.length_cons]

theorem exists_of_divergence {α : Type} [DecidableEq α] {path key : List α}
    (h : divergence path key = path.length) : ∃ rest, key = path ++ rest := by
  obtain ⟨common, p, q, hp, hq, hlen, -⟩ := divergence_spec path key
  have hnil : p = [] := by
    have := congrArg List.length hp
    rw [List.length_append] at this
    exact List.length_eq_zero_iff.mp (by omega)
  exact ⟨q, by rw [hq, hp, hnil, List.append_nil]⟩

def stripPath {α : Type} [DecidableEq α] (path key : List α) : Option (List α) :=
  if divergence path key = path.length then some (key.drop (divergence path key)) else none

theorem stripPath_append {α : Type} [DecidableEq α] (path rest : List α) :
    stripPath path (path ++ rest) = some rest := by
  rw [stripPath, divergence_append, if_pos rfl, List.drop_left]

theorem stripPath_eq_some {α : Type} [DecidableEq α] {path key rest : List α} :
    stripPath path key = some rest ↔ key = path ++ rest := by
  constructor
  · intro h
    by_cases hfull : divergence path key = path.length
    · obtain ⟨rest', rfl⟩ := exists_of_divergence hfull
      rw [stripPath_append, Option.some.injEq] at h
      rw [h]
    · rw [stripPath, if_neg hfull] at h
      cases h
  · rintro rfl
    exact stripPath_append path rest

/-- A tree; `nil` stands for an absent subtree. -/
inductive Tree (k : ℕ) (β : Type) where
  | nil
  | leaf (path : List (Fin k)) (value : β)
  | extension (path : List (Fin k)) (child : Tree k β)
  | branch (children : Fin k → Tree k β) (value : Option β)

variable {t : Tree k β}

namespace Tree

def isNil : Tree k β → Bool
  | nil => true
  | _ => false

@[simp] theorem isNil_iff : t.isNil = true ↔ t = nil := by
  cases t <;> simp [isNil]

theorem isNil_eq_false : t.isNil = false ↔ t ≠ nil := by
  cases t <;> simp [isNil]

def IsBranch : Tree k β → Prop
  | branch _ _ => True
  | _ => False

def lookup : Tree k β → List (Fin k) → Option β
  | nil, _ => none
  | leaf path value, key => if key = path then some value else none
  | extension path child, key => (stripPath path key).bind child.lookup
  | branch _ value, [] => value
  | branch children _, a :: rest => (children a).lookup rest

@[simp] theorem lookup_nil (key : List (Fin k)) : (nil : Tree k β).lookup key = none := rfl

theorem lookup_leaf (path key : List (Fin k)) (value : β) :
    (leaf path value).lookup key = if key = path then some value else none := rfl

@[simp] theorem lookup_extension (path : List (Fin k)) (child : Tree k β) (rest : List (Fin k)) :
    (extension path child).lookup (path ++ rest) = child.lookup rest := by
  rw [lookup, stripPath_append, Option.bind_some]

theorem exists_of_lookup_extension {path key : List (Fin k)} {child : Tree k β} {value : β}
    (h : (extension path child).lookup key = some value) :
    ∃ rest, key = path ++ rest ∧ child.lookup rest = some value := by
  obtain ⟨rest, hs, hrest⟩ := Option.bind_eq_some_iff.mp h
  exact ⟨rest, stripPath_eq_some.mp hs, hrest⟩

theorem lookup_extension_of_ne {path key : List (Fin k)} {child : Tree k β}
    (h : ∀ rest, key ≠ path ++ rest) : (extension path child).lookup key = none := by
  refine Option.eq_none_iff_forall_ne_some.mpr fun value hvalue => ?_
  obtain ⟨rest, hrest, -⟩ := exists_of_lookup_extension hvalue
  exact h rest hrest

@[simp] theorem lookup_branch_nil (children : Fin k → Tree k β) (value : Option β) :
    (branch children value).lookup [] = value := rfl

@[simp] theorem lookup_branch_cons (children : Fin k → Tree k β) (value : Option β) (a : Fin k)
    (rest : List (Fin k)) :
    (branch children value).lookup (a :: rest) = (children a).lookup rest := rfl

def prepend (path : List (Fin k)) (t : Tree k β) : Tree k β :=
  if path = [] then t else extension path t

theorem lookup_prepend (path : List (Fin k)) (t : Tree k β) (key : List (Fin k)) :
    (prepend path t).lookup key = (extension path t).lookup key := by
  unfold prepend
  split
  · next h => rw [h, ← lookup_extension [] t key, List.nil_append]
  · rfl

theorem lookup_leaf_append (path p : List (Fin k)) (value : β) (key : List (Fin k)) :
    (leaf (path ++ p) value).lookup key = (extension path (leaf p value)).lookup key := by
  by_cases hk : ∃ rest, key = path ++ rest
  · obtain ⟨rest, rfl⟩ := hk
    rw [lookup_extension, lookup_leaf, lookup_leaf]
    simp only [List.append_cancel_left_eq]
  · have hne : ∀ rest, key ≠ path ++ rest := fun rest h => hk ⟨rest, h⟩
    rw [lookup_extension_of_ne hne, lookup_leaf, if_neg (hne p)]

theorem lookup_extension_append (path p : List (Fin k)) (child : Tree k β) (key : List (Fin k)) :
    (extension (path ++ p) child).lookup key = (extension path (extension p child)).lookup key := by
  by_cases hk : ∃ rest, key = path ++ rest
  · obtain ⟨rest, rfl⟩ := hk
    rw [lookup_extension]
    by_cases hr : ∃ tail, rest = p ++ tail
    · obtain ⟨tail, rfl⟩ := hr
      rw [← List.append_assoc, lookup_extension, lookup_extension]
    · rw [lookup_extension_of_ne fun tail h => hr ⟨tail, h⟩,
        lookup_extension_of_ne fun tail h => hr ⟨tail, by
          rw [List.append_assoc] at h
          exact List.append_cancel_left h⟩]
  · have hne : ∀ rest, key ≠ path ++ rest := fun rest h => hk ⟨rest, h⟩
    rw [lookup_extension_of_ne hne, lookup_extension_of_ne fun rest h =>
      hne (p ++ rest) (by rw [h, List.append_assoc])]

/-- A subtree that differs at one key, below a path. -/
theorem lookup_extension_update {t u : Tree k β} {q : List (Fin k)} {v : Option β}
    (h : ∀ rest, t.lookup rest = if rest = q then v else u.lookup rest)
    (path probe : List (Fin k)) : (extension path t).lookup probe =
      if probe = path ++ q then v else (extension path u).lookup probe := by
  by_cases hp : ∃ rest, probe = path ++ rest
  · obtain ⟨rest, rfl⟩ := hp
    rw [lookup_extension, lookup_extension, h]
    simp only [List.append_cancel_left_eq]
  · have hne : ∀ rest, probe ≠ path ++ rest := fun rest h => hp ⟨rest, h⟩
    rw [lookup_extension_of_ne hne, lookup_extension_of_ne hne, if_neg (hne q)]

/-- A subtree that differs at one key, under a letter. -/
theorem lookup_branch_update {children : Fin k → Tree k β} {t : Tree k β} {a : Fin k}
    {q : List (Fin k)} {v : Option β}
    (h : ∀ rest, t.lookup rest = if rest = q then v else (children a).lookup rest)
    (value : Option β) (probe : List (Fin k)) :
    (branch (Function.update children a t) value).lookup probe =
      if probe = a :: q then v else (branch children value).lookup probe := by
  cases probe with
  | nil => rfl
  | cons b probe =>
    rw [lookup_branch_cons, lookup_branch_cons]
    by_cases hb : b = a
    · subst hb
      rw [Function.update_self, h]
      simp only [List.cons.injEq, true_and]
    · rw [Function.update_of_ne hb, if_neg (by simp [hb])]

end Tree

open Div0.PatriciaTree.Tree

/-- The contents of a branch under construction. -/
structure Slots (k : ℕ) (β : Type) where
  children : Fin k → Tree k β
  value : Option β

variable {s : Slots k β}

namespace Slots

def empty : Slots k β := ⟨fun _ => nil, none⟩

def tree (s : Slots k β) : Tree k β := branch s.children s.value

def set (s : Slots k β) (a : Fin k) (t : Tree k β) : Slots k β :=
  ⟨Function.update s.children a t, s.value⟩

def put (s : Slots k β) (key : List (Fin k)) (value : β) : Slots k β :=
  match key with
  | [] => ⟨s.children, some value⟩
  | a :: rest => s.set a (leaf rest value)

theorem set_self (s : Slots k β) (a : Fin k) (t : Tree k β) : (s.set a t).children a = t := by
  simp only [set, Function.update_self]

theorem set_of_ne {a b : Fin k} (h : b ≠ a) (s : Slots k β) (t : Tree k β) :
    (s.set a t).children b = s.children b := by
  simp only [set, Function.update_of_ne h]

theorem lookup_tree_cons (s : Slots k β) (a : Fin k) (rest : List (Fin k)) :
    s.tree.lookup (a :: rest) = (s.children a).lookup rest := rfl

def Free (s : Slots k β) : List (Fin k) → Prop
  | [] => True
  | a :: _ => s.children a = nil

theorem lookup_put {key : List (Fin k)} (hfree : s.Free key) (value : β) (probe : List (Fin k)) :
    (s.put key value).tree.lookup probe = if probe = key then some value else s.tree.lookup probe := by
  cases key with
  | nil => cases probe <;> rfl
  | cons a rest =>
    have hold : s.children a = nil := hfree
    exact lookup_branch_update (fun probe => by rw [lookup_leaf, hold, lookup_nil]) s.value probe

def hang (s : Slots k β) (path : List (Fin k)) (t : Tree k β) : Slots k β :=
  match path with
  | [] => s
  | a :: rest => s.set a (prepend rest t)

theorem lookup_empty (probe : List (Fin k)) : (empty : Slots k β).tree.lookup probe = none := by
  cases probe <;> rfl

theorem free_empty (key : List (Fin k)) : (empty : Slots k β).Free key := by
  cases key with
  | nil => trivial
  | cons a rest => rfl

/-- A slot stays free when a subtree is put under another letter. -/
theorem free_set {a : Fin k} {q : List (Fin k)} (hs : s.Free q) (t : Tree k β)
    (h : ∀ b q', q = b :: q' → a ≠ b) : (s.set a t).Free q := by
  cases q with
  | nil => trivial
  | cons b q' => exact (set_of_ne (h b q' rfl).symm s t).trans hs

theorem free_put {p q : List (Fin k)} (value : β)
    (h : ∀ a p' b q', p = a :: p' → q = b :: q' → a ≠ b) :
    ((empty : Slots k β).put p value).Free q := by
  cases p with
  | nil => cases q <;> trivial
  | cons a p' => exact free_set (free_empty q) _ fun b q' hq => h a p' b q' rfl hq

theorem free_hang {p q : List (Fin k)} (t : Tree k β)
    (h : ∀ a p' b q', p = a :: p' → q = b :: q' → a ≠ b) :
    ((empty : Slots k β).hang p t).Free q := by
  cases p with
  | nil => exact free_empty q
  | cons a p' => exact free_set (free_empty q) _ fun b q' hq => h a p' b q' rfl hq

theorem lookup_hang {a : Fin k} {rest : List (Fin k)} (t : Tree k β) (probe : List (Fin k)) :
    ((empty : Slots k β).hang (a :: rest) t).tree.lookup probe =
      (extension (a :: rest) t).lookup probe := by
  cases probe with
  | nil => exact (lookup_extension_of_ne (by simp)).symm
  | cons b probe =>
    rw [lookup_tree_cons, hang]
    by_cases hb : b = a
    · subst hb
      rw [set_self, lookup_prepend]
      exact ((lookup_extension_append [b] rest t _).trans (lookup_extension [b] _ probe)).symm
    · rw [set_of_ne hb, lookup_extension_of_ne fun tail h => hb (List.cons.inj h).1]
      rfl

end Slots

variable {x : Option (Fin k)}

namespace Tree

/-- Insertion: descend along the shared path and fork where the key leaves it. -/
def insert : Tree k β → List (Fin k) → β → Tree k β
  | nil, key, value => leaf key value
  | leaf path old, key, value =>
    let n := divergence path key
    if n = path.length ∧ n = key.length then leaf path value
    else prepend (path.take n) ((Slots.empty.put (path.drop n) old).put (key.drop n) value).tree
  | extension path child, key, value =>
    let n := divergence path key
    if n = path.length then extension path (child.insert (key.drop n) value)
    else prepend (path.take n) ((Slots.empty.hang (path.drop n) child).put (key.drop n) value).tree
  | branch children _, [], value => branch children (some value)
  | branch children old, a :: rest, value =>
    branch (Function.update children a ((children a).insert rest value)) old

/-- Insertion updates the map at one key. -/
theorem lookup_insert (t : Tree k β) (key : List (Fin k)) (value : β) (probe : List (Fin k)) :
    (t.insert key value).lookup probe = if probe = key then some value else t.lookup probe := by
  induction t generalizing key probe with
  | nil => rfl
  | leaf path old =>
    obtain ⟨common, p, q, hp, hq, hlen, hne⟩ := divergence_spec path key
    simp only [insert, hlen]
    by_cases hexact : common.length = path.length ∧ common.length = key.length
    · have hpath : path = common := by
        rw [hp] at hexact ⊢
        rw [List.eq_nil_of_length_eq_zero (by simpa using hexact.1 : p.length = 0),
          List.append_nil]
      have hkey : key = common := by
        rw [hq] at hexact ⊢
        rw [List.eq_nil_of_length_eq_zero (by simpa using hexact.2 : q.length = 0),
          List.append_nil]
      rw [if_pos hexact, lookup_leaf, lookup_leaf, hpath, hkey]
      split <;> rfl
    · rw [if_neg hexact, hp, hq, List.take_left' rfl, List.drop_left' rfl, List.drop_left' rfl,
        lookup_prepend, lookup_leaf_append]
      refine lookup_extension_update (fun rest => ?_) common probe
      rw [Slots.lookup_put (Slots.free_put old hne), Slots.lookup_put (Slots.free_empty p),
        Slots.lookup_empty]
      rfl
  | extension path child ih =>
    by_cases hfull : divergence path key = path.length
    · obtain ⟨rest, rfl⟩ := exists_of_divergence hfull
      simp only [insert, hfull, if_true, List.drop_left]
      exact lookup_extension_update (fun probe => ih rest probe) path probe
    · obtain ⟨common, p, q, hp, hq, hlen, hne⟩ := divergence_spec path key
      obtain ⟨a, p', rfl⟩ : ∃ a p', p = a :: p' := by
        cases p with
        | nil => exact absurd (by rw [hlen, hp, List.append_nil]) hfull
        | cons a p' => exact ⟨a, p', rfl⟩
      simp only [insert]
      rw [if_neg hfull, hlen, hp, hq, List.take_left' rfl, List.drop_left' rfl, List.drop_left' rfl,
        lookup_prepend, lookup_extension_append]
      refine lookup_extension_update (fun rest => ?_) common probe
      rw [Slots.lookup_put (Slots.free_hang child hne), Slots.lookup_hang]
  | branch children old ih =>
    cases key with
    | nil => cases probe <;> rfl
    | cons a rest => exact lookup_branch_update (fun probe => ih a rest probe) old probe

/-- A place of a branch is taken: the letter's subtree, or the branch's own value. -/
def Occupied (children : Fin k → Tree k β) (value : Option β) : Option (Fin k) → Prop
  | none => value ≠ none
  | some a => children a ≠ nil

/-- No extension is empty or stands above another compressed path, and every branch
really forks. -/
def Canonical : Tree k β → Prop
  | nil => True
  | leaf _ _ => True
  | extension path child => path ≠ [] ∧ child.IsBranch ∧ child.Canonical
  | branch children value =>
    (∃ x y, x ≠ y ∧ Occupied children value x ∧ Occupied children value y) ∧
      ∀ a, (children a).Canonical

theorem leaf_canonical (path : List (Fin k)) (value : β) : (leaf path value).Canonical := trivial

theorem insert_ne_nil (t : Tree k β) (key : List (Fin k)) (value : β) : t.insert key value ≠ nil := by
  intro h
  have hself := lookup_insert t key value key
  rw [h, if_pos rfl] at hself
  cases hself

theorem insert_isBranch (h : t.IsBranch) (key : List (Fin k)) (value : β) :
    (t.insert key value).IsBranch := by
  cases t with
  | branch children old => cases key <;> trivial
  | nil => exact h.elim
  | leaf path old => exact h.elim
  | extension path child => exact h.elim

theorem prepend_canonical {path : List (Fin k)} (hb : t.IsBranch) (ht : t.Canonical) :
    (prepend path t).Canonical := by
  unfold prepend
  split
  · exact ht
  · next hp => exact ⟨hp, hb, ht⟩

/-- Updating one occupied or free letter by a subtree keeps the other places. -/
theorem Occupied.update {children : Fin k → Tree k β} {value : Option β}
    (h : Occupied children value x) (a : Fin k) (ht : t ≠ nil) :
    Occupied (Function.update children a t) value x := by
  cases x with
  | none => exact h
  | some b =>
    change Function.update children a t b ≠ nil
    by_cases hb : b = a
    · rw [hb, Function.update_self]
      exact ht
    · rw [Function.update_of_ne hb]
      exact h

theorem update_canonical {children : Fin k → Tree k β} (h : ∀ a, (children a).Canonical)
    {a : Fin k} (ht : t.Canonical) (b : Fin k) : (Function.update children a t b).Canonical := by
  by_cases hb : b = a
  · rw [hb, Function.update_self]
    exact ht
  · rw [Function.update_of_ne hb]
    exact h b

end Tree

namespace Slots

theorem occupied_put (s : Slots k β) (key : List (Fin k)) (value : β) :
    Occupied (s.put key value).children (s.put key value).value key.head? := by
  cases key with
  | nil => simp [put, Occupied]
  | cons a rest =>
    change (s.set a (leaf rest value)).children a ≠ nil
    rw [set_self]
    simp

theorem Occupied.put (h : Occupied s.children s.value x) (key : List (Fin k)) (value : β) :
    Occupied (s.put key value).children (s.put key value).value x := by
  cases key with
  | nil =>
    cases x with
    | none => simp [Slots.put, Tree.Occupied]
    | some b => exact h
  | cons a rest => exact h.update a (by simp)

theorem put_canonical (h : ∀ a, (s.children a).Canonical) (key : List (Fin k)) (value : β)
    (b : Fin k) : ((s.put key value).children b).Canonical := by
  cases key with
  | nil => exact h b
  | cons a rest => exact update_canonical h (t := leaf rest value) trivial b

theorem empty_canonical (a : Fin k) : ((empty : Slots k β).children a).Canonical := trivial

/-- A fork of an occupied place and a key that starts elsewhere is canonical. -/
theorem fork_canonical {key : List (Fin k)} (hs : ∀ a, (s.children a).Canonical)
    (hx : Occupied s.children s.value x) (hne : x ≠ key.head?) (value : β) :
    (s.put key value).tree.Canonical :=
  ⟨⟨x, key.head?, hne, Occupied.put hx key value, occupied_put s key value⟩,
    put_canonical hs key value⟩

end Slots

namespace Tree

private theorem head_ne_head {p q : List (Fin k)}
    (hne : ∀ a p' b q', p = a :: p' → q = b :: q' → a ≠ b) (hboth : ¬(p = [] ∧ q = [])) :
    p.head? ≠ q.head? := by
  cases p with
  | nil =>
    cases q with
    | nil => exact absurd ⟨rfl, rfl⟩ hboth
    | cons b q' => simp
  | cons a p' =>
    cases q with
    | nil => simp
    | cons b q' => simpa using hne a p' b q' rfl rfl

theorem insert_canonical (ht : t.Canonical) (key : List (Fin k)) (value : β) :
    (t.insert key value).Canonical := by
  induction t generalizing key with
  | nil => trivial
  | leaf path old =>
    obtain ⟨common, p, q, hp, hq, hlen, hne⟩ := divergence_spec path key
    simp only [insert, hlen]
    split
    · trivial
    · next hexact =>
      rw [hp, hq, List.take_left' rfl, List.drop_left' rfl, List.drop_left' rfl]
      have hhead : p.head? ≠ q.head? := head_ne_head hne fun hboth =>
        hexact (by rw [hp, hq, hboth.1, hboth.2, List.append_nil]; exact ⟨rfl, rfl⟩)
      exact prepend_canonical trivial (Slots.fork_canonical
        (Slots.put_canonical Slots.empty_canonical p old) (Slots.occupied_put _ p old) hhead value)
  | extension path child ih =>
    obtain ⟨hpath, hbranch, hchild⟩ := ht
    obtain ⟨common, p, q, hp, hq, hlen, hne⟩ := divergence_spec path key
    simp only [insert, hlen]
    split
    · exact ⟨hpath, insert_isBranch hbranch _ _, ih hchild _⟩
    · next hfull =>
      obtain ⟨a, p', rfl⟩ : ∃ a p', p = a :: p' := by
        cases p with
        | nil => exact absurd (by rw [hp, List.append_nil]) hfull
        | cons a p' => exact ⟨a, p', rfl⟩
      rw [hp, hq, List.take_left' rfl, List.drop_left' rfl, List.drop_left' rfl]
      have hhead : some a ≠ q.head? := head_ne_head hne (by simp)
      have hbelow : (prepend p' child).Canonical := prepend_canonical hbranch hchild
      have hnil : prepend p' child ≠ nil := by
        unfold prepend
        split
        · rintro rfl
          exact hbranch
        · simp
      refine prepend_canonical trivial (Slots.fork_canonical (x := some a) ?_ ?_ hhead value)
      · exact update_canonical Slots.empty_canonical hbelow
      · change (Slots.empty.set a (prepend p' child)).children a ≠ nil
        rw [Slots.set_self]
        exact hnil
  | branch children old ih =>
    obtain ⟨⟨x, y, hxy, hx, hy⟩, hchildren⟩ := ht
    cases key with
    | nil =>
      refine ⟨⟨x, y, hxy, ?_, ?_⟩, hchildren⟩
      · cases x <;> first | exact hx | simp [Occupied]
      · cases y <;> first | exact hy | simp [Occupied]
    | cons a rest =>
      exact ⟨⟨x, y, hxy, hx.update a (insert_ne_nil _ _ _), hy.update a (insert_ne_nil _ _ _)⟩,
        update_canonical hchildren (ih a (hchildren a) rest)⟩

end Tree

end Div0.PatriciaTree
