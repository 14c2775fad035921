import Div0.Mpt
import Div0.PatriciaErase

/-!
The trie code computes the path-compressed tree. `toNode` is the node structure
that represents a tree: every reference is recomputed from the subtree it points to
and no hash is cached. As long as the entries of a canonical tree fit the arena,
insertion, deletion and lookup on the node structure are those of the tree, and
the result is again the structure that represents it.
-/

namespace Div0.TrieRefinement

open BigEndian Buffer RlpFormat RlpEncode NibbleFormat Nibbles Node Mpt PatriciaTree Uint256
open PatriciaTree.Tree

abbrev ByteTree := Tree 16 Bytes

/-- The node structure of a tree; a node is its own child's reference recomputed. -/
def toNode (keccak256 : Bytes → Hash) : ByteTree → MptNode
  | nil => .empty none
  | leaf path value => .leaf none path (some value)
  | extension path child => .extension none path (refOf keccak256 (toNode keccak256 child))
  | branch children value =>
    .branch none (fun i => refOf keccak256 (toNode keccak256 (children i))) value

/-- The reference to the node of a tree; null for an absent tree. -/
def toRef (keccak256 : Bytes → Hash) (t : ByteTree) : NodeRef :=
  refOf keccak256 (toNode keccak256 t)

def EntryFits (fits : ℕ → Prop) (n : ℕ) (value : Bytes) : Prop :=
  fits n ∧ fits (rlpMaxHeaderSize + 16 * 33 + framedBound (n / 2 + 1) + framedBound value.length)

def TreeFits (fits : ℕ → Prop) (t : ByteTree) : Prop :=
  ∀ key value, t.lookup key = some value → EntryFits fits key.length value

variable {keccak256 : Bytes → Hash} {alloc : Alloc} {fits : ℕ → Prop}

variable {value : Bytes}

theorem EntryFits.mono (hs : Supply alloc fits) {a b : ℕ} (hab : a ≤ b)
    (h : EntryFits fits b value) : EntryFits fits a value := by
  have hframed := framedBound_mono (show a / 2 + 1 ≤ b / 2 + 1 by omega)
  exact ⟨hs.mono hab h.1, hs.mono (by omega) h.2⟩

theorem TreeFits.leaf (hs : Supply alloc fits) {a b : Nibbles} (hab : a.length ≤ b.length)
    (h : EntryFits fits b.length value) : TreeFits fits (leaf a value) := by
  intro key v hkey
  rw [lookup_leaf] at hkey
  split at hkey
  · next heq =>
    cases hkey
    exact heq ▸ h.mono hs hab
  · cases hkey

theorem TreeFits.leaf_entry {path : Nibbles} (h : TreeFits fits (Tree.leaf path value)) :
    EntryFits fits path.length value :=
  h path value (by rw [lookup_leaf, if_pos rfl])

theorem TreeFits.child (hs : Supply alloc fits) {path : Nibbles} {child : ByteTree}
    (h : TreeFits fits (extension path child)) : TreeFits fits child := by
  intro key value hkey
  refine (h (path ++ key) value (by rw [lookup_extension, hkey])).mono hs ?_
  rw [List.length_append]
  omega

theorem TreeFits.letter (hs : Supply alloc fits) {children : Nibble → ByteTree}
    {value : Option Bytes} (h : TreeFits fits (branch children value)) (i : Nibble) :
    TreeFits fits (children i) := by
  intro key v hkey
  refine (h (i :: key) v hkey).mono hs ?_
  rw [List.length_cons]
  omega

variable {t : ByteTree}

theorem TreeFits.insert (h : TreeFits fits t) {key : Nibbles}
    (hkey : EntryFits fits key.length value) : TreeFits fits (t.insert key value) := by
  intro probe v hprobe
  rw [lookup_insert] at hprobe
  split at hprobe
  · next heq =>
    cases hprobe
    exact heq ▸ hkey
  · exact h probe v hprobe

theorem TreeFits.erase (h : TreeFits fits t) (key : Nibbles) : TreeFits fits (t.erase key) := by
  intro probe v hprobe
  rw [lookup_erase] at hprobe
  split at hprobe
  · cases hprobe
  · exact h probe v hprobe

/-- The path of a canonical extension is part of a stored key. -/
theorem TreeFits.path (hs : Supply alloc fits) {path : Nibbles} {child : ByteTree}
    (ht : (extension path child).Canonical) (h : TreeFits fits (extension path child)) :
    ∃ value, EntryFits fits path.length value := by
  obtain ⟨-, hbranch, hchild⟩ := ht
  obtain ⟨key, value, hkey⟩ := exists_lookup hchild (by rintro rfl; exact hbranch)
  refine ⟨value, (h (path ++ key) value (by rw [lookup_extension, hkey])).mono hs ?_⟩
  rw [List.length_append]
  omega

theorem toRef_isNull (t : ByteTree) : (toRef keccak256 t).isNull = t.isNil := by
  rcases refOf_cases keccak256 (toNode keccak256 t) with ⟨cached, hempty, href⟩ | ⟨-, href⟩ |
    ⟨-, href⟩
  · cases t with
    | nil => rfl
    | leaf path value => cases hempty
    | extension path child => cases hempty
    | branch children value => cases hempty
  · cases t with
    | nil => rfl
    | leaf path value => rw [toRef, href]; rfl
    | extension path child => rw [toRef, href]; rfl
    | branch children value => rw [toRef, href]; rfl
  · cases t with
    | nil => rfl
    | leaf path value => rw [toRef, href]; rfl
    | extension path child => rw [toRef, href]; rfl
    | branch children value => rw [toRef, href]; rfl

/-- The reference to a present tree points to its node. -/
theorem toRef_resolved (h : t ≠ nil) :
    ∃ digest, toRef keccak256 t = .resolved digest (toNode keccak256 t) := by
  rcases refOf_cases keccak256 (toNode keccak256 t) with ⟨cached, hempty, href⟩ | ⟨-, href⟩ |
    ⟨-, href⟩
  · cases t with
    | nil => exact absurd rfl h
    | leaf path value => cases hempty
    | extension path child => cases hempty
    | branch children value => cases hempty
  · exact ⟨_, href⟩
  · exact ⟨_, href⟩

/-- The encoding of a canonical tree's node fits when its entries do. -/
theorem nodeRoom_fits (hs : Supply alloc fits) (ht : t.Canonical) (hne : t ≠ nil)
    (hfit : TreeFits fits t) : fits (nodeRoom (toNode keccak256 t)) := by
  have hhp : ∀ (isLeaf : Bool) (path : Nibbles),
      (encodeString (hexPrefix isLeaf path)).length ≤ framedBound (path.length / 2 + 1) := by
    intro isLeaf path
    refine (encodeString_length_le _).trans (framedBound_mono ?_)
    rw [hexPrefix_length]
    omega
  cases t with
  | nil => exact absurd rfl hne
  | leaf path value =>
    refine hs.mono ?_ hfit.leaf_entry.2
    have hpath := hhp true path
    have hvalue := encodeString_length_le value
    simp only [nodeRoom, toNode, nodeItems, List.flatten_cons, List.flatten_nil, List.append_nil,
      List.length_append, Option.getD_some]
    omega
  | extension path child =>
    obtain ⟨value, hentry⟩ := hfit.path hs ht
    refine hs.mono ?_ hentry.2
    have hpath := hhp false path
    have hchild := refBytes_refOf_length keccak256 (toNode keccak256 child)
    simp only [nodeRoom, toNode, nodeItems, List.flatten_cons, List.flatten_nil, List.append_nil,
      List.length_append]
    omega
  | branch children value =>
    have hroom := nodeRoom_branch_le none value
      fun i => refBytes_refOf_length keccak256 (toNode keccak256 (children i))
    cases value with
    | none =>
      obtain ⟨key, v, hkey⟩ := exists_lookup ht hne
      refine hs.mono (hroom.trans ?_) (hfit key v hkey).2
      exact (Nat.add_le_add_left (framedBound_mono (Nat.zero_le v.length)) _).trans (by omega)
    | some v =>
      exact hs.mono (hroom.trans (Nat.add_le_add_right (Nat.le_add_right _ _) _)) (hfit [] v rfl).2

section Operations

variable {host : Host}

section

variable (hs : Supply host.alloc fits)
include hs

/-- `mpt_node_ref` recomputes the reference of a fitting tree. -/
theorem mptNodeRef_toNode (ht : t.Canonical) (hfit : TreeFits fits t) :
    mptNodeRef host (toNode host.keccak256 t) = toRef host.keccak256 t := by
  by_cases hnil : t = nil
  · rw [hnil]
    rfl
  · exact mptNodeRef_eq (hs.grantsUpTo (nodeRoom_fits hs ht hnil hfit)) _ le_rfl

/-- `mpt_node_hash` on a fitting tree whose cache, if filled, is right. -/
theorem mptNodeHash_toNode (ht : t.Canonical) (hne : t ≠ nil) (hfit : TreeFits fits t)
    {cached : Option Hash}
    (hcached : ∀ h, cached = some h → h = host.keccak256 (encodeNode (toNode host.keccak256 t))) :
    mptNodeHash host ((toNode host.keccak256 t).withCache cached) =
      (host.keccak256 (encodeNode (toNode host.keccak256 t)),
        (toNode host.keccak256 t).withCache
          (some (host.keccak256 (encodeNode (toNode host.keccak256 t))))) := by
  have hdata := mptNodeEncode_data (hs.grantsUpTo (nodeRoom_fits hs ht hne hfit))
    ((toNode host.keccak256 t).withCache cached) (nodeRoom_withCache _ _).le
  rw [encodeNode_withCache] at hdata
  cases cached with
  | some h =>
    rw [← hcached h rfl]
    cases t <;> rfl
  | none =>
    rw [← hdata]
    cases t with
    | nil => exact absurd rfl hne
    | leaf path value => rfl
    | extension path child => rfl
    | branch children value => rfl

theorem copyValue_eq {n : ℕ} (h : EntryFits fits n value) :
    copyValue host.alloc value = some value := by
  unfold copyValue
  split
  · next hpos =>
    have hfits : fits value.length := hs.mono (by unfold framedBound; omega) h.2
    obtain ⟨b, hb, hdata⟩ := @Buf.fromData_isSome host.alloc value
      fun _ => hs.grants _ hpos hfits
    rw [hb, Option.map_some, hdata]
  · next hzero => rw [List.eq_nil_of_length_eq_zero (by omega : value.length = 0)]

omit hs in
theorem findDivergence_eq (path key : Nibbles) :
    findDivergence path key = divergence path key := by
  induction path generalizing key with
  | nil => rfl
  | cons a path ih =>
    cases key with
    | nil => rfl
    | cons b key => simp only [findDivergence, divergence, ih]

theorem slice_drop_eq {src : Nibbles} (h : fits src.length) (start : ℕ) :
    nibblesSlice host.alloc src start none = src.drop start :=
  nibblesSlice_drop (hs.grantsUpTo h) start le_rfl

theorem newLeaf_eq {key : Nibbles} (h : EntryFits fits key.length value) (start : ℕ) :
    newLeaf host.alloc key start value = toNode host.keccak256 (leaf (key.drop start) value) := by
  rw [newLeaf, slice_drop_eq hs h.1, copyValue_eq hs h]
  rfl

omit hs in
theorem refs_update (keccak256 : Bytes → Hash) (children : Nibble → ByteTree) (a : Nibble)
    (t : ByteTree) :
    (fun i => toRef keccak256 (Function.update children a t i)) =
      Function.update (fun i => toRef keccak256 (children i)) a (toRef keccak256 t) := by
  funext i
  by_cases hi : i = a
  · rw [hi, Function.update_self, Function.update_self]
  · rw [Function.update_of_ne hi, Function.update_of_ne hi]

omit hs in
/-- The node of a branch with one letter replaced. -/
theorem toNode_set (keccak256 : Bytes → Hash) (s : Slots 16 Bytes) (a : Nibble) (t : ByteTree) :
    toNode keccak256 (s.set a t).tree =
      .branch none (Function.update (fun i => toRef keccak256 (s.children i)) a
        (toRef keccak256 t)) s.value := by
  rw [← refs_update]
  rfl

/-- Adding the key to a branch under construction: a leaf below a letter or the value. -/
theorem putKey_eq (s : Slots 16 Bytes) {common q : Nibbles}
    (h : EntryFits fits (common ++ q).length value) :
    (match (common ++ q).drop common.length with
      | nibble :: _ =>
        MptNode.branch none (Function.update (fun i => toRef host.keccak256 (s.children i)) nibble
          (mptNodeRef host (newLeaf host.alloc (common ++ q) (common.length + 1) value))) s.value
      | [] => MptNode.branch none (fun i => toRef host.keccak256 (s.children i))
          (copyValue host.alloc value)) = toNode host.keccak256 (s.put q value).tree := by
  rw [List.drop_left' rfl]
  cases q with
  | nil => simp only [copyValue_eq hs h]; rfl
  | cons a rest =>
    have hdrop : (common ++ a :: rest).drop (common.length + 1) = rest := by
      rw [List.drop_append]
      simp
    have hleaf : TreeFits fits (leaf rest value) :=
      TreeFits.leaf hs (by rw [List.length_append, List.length_cons]; omega) h
    simp only
    rw [newLeaf_eq hs h, hdrop, mptNodeRef_toNode hs (leaf_canonical _ _) hleaf]
    exact (toNode_set _ _ _ _).symm

theorem splitLeaf_eq {common p q : Nibbles} {old value : Bytes}
    (hold : EntryFits fits (common ++ p).length old)
    (hkey : EntryFits fits (common ++ q).length value) :
    splitLeaf host (common ++ p) (some old) (common ++ q) value common.length =
      toNode host.keccak256 ((Slots.empty.put p old).put q value).tree := by
  rw [← putKey_eq hs _ hkey]
  unfold splitLeaf
  rw [List.drop_left' rfl]
  cases p with
  | nil => rfl
  | cons a rest =>
    have hdrop : (common ++ a :: rest).drop (common.length + 1) = rest := by
      rw [List.drop_append]
      simp
    have hleaf : TreeFits fits (leaf rest old) :=
      TreeFits.leaf hs (by rw [List.length_append, List.length_cons]; omega) hold
    have href : mptNodeRef host (mptNodeLeaf rest (some old)) =
        toRef host.keccak256 (leaf rest old) := mptNodeRef_toNode hs (leaf_canonical _ _) hleaf
    simp only [slice_drop_eq hs hold.1, hdrop, href]
    have hrefs := refs_update host.keccak256 Slots.empty.children a (leaf rest old)
    rw [show (fun i => toRef host.keccak256 ((Slots.empty.put (a :: rest) old).children i)) =
      Function.update noChildren a (toRef host.keccak256 (leaf rest old)) from hrefs]
    rfl

/-- A subtree keeps fitting when the path above it gets shorter. -/
theorem TreeFits.prepend {common rest : Nibbles} {child : ByteTree}
    (h : TreeFits fits (extension (common ++ rest) child)) :
    TreeFits fits (prepend rest child) := by
  intro key value hkey
  rw [lookup_prepend] at hkey
  refine (h (common ++ key) value ?_).mono hs (by simp)
  rw [lookup_extension_append, lookup_extension, hkey]

theorem splitExtension_eq {common rest q : Nibbles} {a : Nibble} {child : ByteTree}
    (hbranch : child.IsBranch) (hchild : child.Canonical)
    (hfit : TreeFits fits (extension (common ++ a :: rest) child))
    (hkey : EntryFits fits (common ++ q).length value) :
    splitExtension host (common ++ a :: rest) (toRef host.keccak256 child) (common ++ q) value
      common.length = toNode host.keccak256 ((Slots.empty.hang (a :: rest) child).put q value).tree := by
  have hcanonical : (extension (common ++ a :: rest) child).Canonical := ⟨by simp, hbranch, hchild⟩
  obtain ⟨v, hpath⟩ := hfit.path hs hcanonical
  have hdrop : (common ++ a :: rest).drop (common.length + 1) = rest := by
    rw [List.drop_append]
    simp
  have hbelow : (if common.length + 1 < (common ++ a :: rest).length then
      mptNodeRef host (mptNodeExtension
        (nibblesSlice host.alloc (common ++ a :: rest) (common.length + 1) none)
        (toRef host.keccak256 child))
      else toRef host.keccak256 child) = toRef host.keccak256 (prepend rest child) := by
    have hsplit : TreeFits fits (extension ((common ++ [a]) ++ rest) child) := by simpa using hfit
    have hfits : TreeFits fits (prepend rest child) := TreeFits.prepend hs hsplit
    rw [slice_drop_eq hs hpath.1, hdrop]
    cases rest with
    | nil => rw [if_neg (by simp)]; rfl
    | cons b rest =>
      rw [if_pos (by simp)]
      exact mptNodeRef_toNode (t := extension (b :: rest) child) hs ⟨by simp, hbranch, hchild⟩ hfits
  rw [← putKey_eq hs _ hkey]
  unfold splitExtension
  rw [List.drop_left' rfl]
  simp only [hbelow]
  have hrefs := refs_update host.keccak256 Slots.empty.children a (prepend rest child)
  rw [show (fun i => toRef host.keccak256 ((Slots.empty.hang (a :: rest) child).children i)) =
    Function.update noChildren a (toRef host.keccak256 (prepend rest child)) from hrefs]
  rfl

/-- The extension above a fork, when the key shares a part of the path. -/
theorem prependNode_eq {common p : Nibbles} (hcanonical : (prepend common t).Canonical)
    (hfit : TreeFits fits (prepend common t)) (hpath : fits (common ++ p).length) :
    (if 0 < common.length then
      mptNodeExtension (nibblesSlice host.alloc (common ++ p) 0 (some common.length))
        (mptNodeRef host (toNode host.keccak256 t))
      else toNode host.keccak256 t) = toNode host.keccak256 (prepend common t) := by
  by_cases hc : common = []
  · rw [if_neg (by rw [hc]; simp), prepend, if_pos hc]
  · have hprepend : prepend common t = extension common t := if_neg hc
    rw [hprepend] at hcanonical hfit ⊢
    have hslice : nibblesSlice host.alloc (common ++ p) 0 (some common.length) = common := by
      rw [nibblesSlice_take (hs.grantsUpTo hpath) le_rfl (by simp), List.take_left' rfl]
    rw [if_pos (List.length_pos_of_ne_nil hc), hslice,
      mptNodeRef_toNode hs hcanonical.2.2 (hfit.child hs)]
    rfl

omit hs in
/-- The two cases of a leaf, a key used up and a key that goes on, are one. -/
theorem insertLeaf_uniform (host : Host) (path : Nibbles) (old : Option Bytes) (key : Nibbles)
    (value : Bytes) :
    insertLeaf host path old key value =
      if findDivergence path key = path.length ∧ findDivergence path key = key.length then
        .leaf none path (copyValue host.alloc value)
      else if 0 < findDivergence path key then
        mptNodeExtension (nibblesSlice host.alloc path 0 (some (findDivergence path key)))
          (mptNodeRef host (splitLeaf host path old key value (findDivergence path key)))
      else splitLeaf host path old key value (findDivergence path key) := by
  cases key with
  | nil =>
    cases path with
    | nil => rfl
    | cons a path => rfl
  | cons b key => rfl

omit hs in
/-- The same for an extension, whose path is not empty. -/
theorem insertRecursive_extension (host : Host) (cached : Option Hash) {path : Nibbles}
    (hpath : path ≠ []) (child : NodeRef) (key : Nibbles) (value : Bytes) :
    insertRecursive host (.extension cached path child) key value =
      if findDivergence path key = path.length then
        match insertChild host child (key.drop (findDivergence path key)) value with
        | some newChild => .extension none path (mptNodeRef host newChild)
        | none => .extension none path child
      else if 0 < findDivergence path key then
        mptNodeExtension (nibblesSlice host.alloc path 0 (some (findDivergence path key)))
          (mptNodeRef host (splitExtension host path child key value (findDivergence path key)))
      else splitExtension host path child key value (findDivergence path key) := by
  cases key with
  | nil =>
    cases path with
    | nil => exact absurd rfl hpath
    | cons a path =>
      rw [if_neg (by simp [findDivergence]), if_neg (by simp [findDivergence])]
      simp only [insertRecursive]
      rfl
  | cons b key =>
    unfold insertRecursive
    rfl

/-- Insertion on the node structure is insertion on the tree. -/
theorem insertRecursive_toNode (ht : t.Canonical) (hfit : TreeFits fits t) {key : Nibbles}
    (hkey : EntryFits fits key.length value) :
    insertRecursive host (toNode host.keccak256 t) key value =
      toNode host.keccak256 (t.insert key value) := by
  induction t generalizing key with
  | nil =>
    simp only [toNode, insertRecursive]
    exact newLeaf_eq hs hkey 0
  | leaf path old =>
    have hcanonical := insert_canonical ht key value
    have hnew := hfit.insert hkey
    have hold := hfit.leaf_entry
    obtain ⟨common, p, q, rfl, rfl, hlen, hne⟩ := divergence_spec path key
    simp only [toNode, insertRecursive, insertLeaf_uniform, findDivergence_eq, hlen]
    simp only [Tree.insert, hlen] at hcanonical hnew ⊢
    by_cases hexact : common.length = (common ++ p).length ∧ common.length = (common ++ q).length
    · rw [if_pos hexact, if_pos hexact, copyValue_eq hs hkey]
      rfl
    · rw [if_neg hexact, List.take_left' rfl, List.drop_left' rfl, List.drop_left' rfl]
        at hcanonical hnew
      rw [if_neg hexact, if_neg hexact, List.take_left' rfl, List.drop_left' rfl,
        List.drop_left' rfl, splitLeaf_eq hs hold hkey]
      exact prependNode_eq hs hcanonical hnew hold.1
  | extension path child ih =>
    obtain ⟨hpath, hbranch, hchild⟩ := ht
    have hcanonical := insert_canonical (t := extension path child) ⟨hpath, hbranch, hchild⟩ key value
    have hnew := hfit.insert hkey
    obtain ⟨v, hroom⟩ := hfit.path hs ⟨hpath, hbranch, hchild⟩
    obtain ⟨common, p, q, rfl, rfl, hlen, hne⟩ := divergence_spec path key
    simp only [toNode]
    rw [insertRecursive_extension host none hpath]
    simp only [findDivergence_eq, hlen]
    simp only [Tree.insert, hlen] at hcanonical hnew ⊢
    by_cases hfull : common.length = (common ++ p).length
    · have hrest : EntryFits fits q.length value := hkey.mono hs (by simp)
      obtain ⟨digest, hdigest⟩ := @toRef_resolved host.keccak256 child
        (by rintro rfl; exact hbranch)
      rw [if_pos hfull, if_pos hfull, List.drop_left' rfl]
      rw [toRef] at hdigest
      simp only [hdigest, insertChild]
      rw [ih hchild (hfit.child hs) hrest, mptNodeRef_toNode hs (insert_canonical hchild q value)
        ((hfit.child hs).insert hrest)]
      rfl
    · obtain ⟨a, p', rfl⟩ : ∃ a p', p = a :: p' := by
        cases p with
        | nil => exact absurd (by rw [List.append_nil]) hfull
        | cons a p' => exact ⟨a, p', rfl⟩
      rw [if_neg hfull, List.take_left' rfl, List.drop_left' rfl, List.drop_left' rfl]
        at hcanonical hnew
      have hsplit := splitExtension_eq hs hbranch hchild hfit hkey
      rw [toRef] at hsplit
      rw [if_neg hfull, if_neg hfull, List.take_left' rfl, List.drop_left' rfl,
        List.drop_left' rfl, hsplit]
      exact prependNode_eq hs hcanonical hnew hroom.1
  | branch children old ih =>
    obtain ⟨-, hchildren⟩ := ht
    cases key with
    | nil =>
      simp only [toNode, insertRecursive, copyValue_eq hs hkey]
      rfl
    | cons a rest =>
      have hrest : EntryFits fits rest.length value := hkey.mono hs (by simp)
      have hbelow := mptNodeRef_toNode hs (insert_canonical (hchildren a) rest value)
        ((hfit.letter hs a).insert hrest)
      have hset := toNode_set host.keccak256 ⟨children, old⟩ a ((children a).insert rest value)
      by_cases hnil : children a = nil
      · have hleaf := newLeaf_eq hs hkey 1
        rw [List.drop_one, List.tail_cons] at hleaf
        have hnull : (refOf host.keccak256 (toNode host.keccak256 (children a))).isNull = true := by
          rw [hnil]
          rfl
        have hins : (children a).insert rest value = leaf rest value := by
          rw [hnil]
          rfl
        simp only [toNode, insertRecursive]
        rw [if_pos hnull, hleaf, ← hins, hbelow]
        exact hset.symm
      · obtain ⟨digest, hdigest⟩ := @toRef_resolved host.keccak256 (children a) hnil
        rw [toRef] at hdigest
        simp only [toNode, insertRecursive, hdigest, insertChild]
        rw [if_neg (by simp [NodeRef.isNull])]
        rw [ih a (hchildren a) (hfit.letter hs a) hrest, hbelow]
        exact hset.symm

end

end Operations

end Div0.TrieRefinement
