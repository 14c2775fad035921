import Div0.TrieMap

/-!
The root hash as a commitment. Two tries whose calls fit the arena and whose values
are nonempty have the same root hash only if they hold the same entries, unless two
of the strings hashed for the two roots collide. The node encoding is injective up
to the references, an embedded reference is a list and a hashed one a string of 32
bytes, and the rest is an induction over the two trees.

Beyond the arena this breaks: `bytes_reserve` is refused, the list builder then
allocates nine bytes for the header alone and every item is lost.
-/

namespace Div0.TrieBinding

open BigEndian Buffer RlpFormat RlpEncode NibbleFormat Nibbles Node Mpt PatriciaTree Uint256
open TrieRefinement TrieMap PatriciaTree.Tree

mutual
def hashedBelow (alloc : Alloc) : MptNode → List Bytes
  | .empty _ => []
  | .leaf _ _ _ => []
  | .extension _ _ child => hashedRef alloc child
  | .branch _ children _ => (List.finRange 16).flatMap fun i => hashedRef alloc (children i)

/-- The encodings hashed for a reference: its node's unless it is embedded, and those below. -/
def hashedRef (alloc : Alloc) : NodeRef → List Bytes
  | .unresolved _ => []
  | .resolved (.embedded _) node => hashedBelow alloc node
  | .resolved (.hash _) node => (mptNodeEncode alloc node).data :: hashedBelow alloc node
end

def hashedEncodings (host : Host) (mpt : Backend) : List Bytes :=
  match mpt.root with
  | none => []
  | some root => (mptNodeEncode host.alloc root).data :: hashedBelow host.alloc root

/-- Two different strings of the list with the same hash. -/
def Collision (keccak256 : Bytes → Hash) (strings : List Bytes) : Prop :=
  ∃ x ∈ strings, ∃ y ∈ strings, x ≠ y ∧ keccak256 x = keccak256 y

instance (keccak256 : Bytes → Hash) (strings : List Bytes) :
    Decidable (Collision keccak256 strings) :=
  inferInstanceAs (Decidable (∃ x ∈ strings, ∃ y ∈ strings, x ≠ y ∧ keccak256 x = keccak256 y))

/-- A tree that fits the arena and holds no empty value. -/
structure Storable (t : ByteTree) : Prop where
  canonical : t.Canonical
  fits : TreeFits (· ≤ 65536) t
  values : ∀ key value, t.lookup key = some value → value ≠ []

variable {keccak256 : Bytes → Hash} {s t : ByteTree}

theorem Storable.child {path : Nibbles} {child : ByteTree}
    (h : Storable (extension path child)) : Storable child where
  canonical := h.canonical.2.2
  fits := h.fits.child arenaAlloc_supply
  values := by
    intro key value hkey
    exact h.values (path ++ key) value (by rw [lookup_extension, hkey])

theorem Storable.letter {children : Nibble → ByteTree} {value : Option Bytes}
    (h : Storable (branch children value)) (i : Nibble) : Storable (children i) where
  canonical := h.canonical.2 i
  fits := h.fits.letter arenaAlloc_supply i
  values := fun key v hkey => h.values (i :: key) v hkey

theorem Storable.nodeRoom_le (keccak256 : Bytes → Hash) (h : Storable t) (hne : t ≠ nil) :
    nodeRoom (toNode keccak256 t) ≤ 65536 :=
  nodeRoom_fits arenaAlloc_supply h.canonical hne h.fits

theorem Storable.encode (h : Storable t) (hne : t ≠ nil) :
    (mptNodeEncode arenaAlloc (toNode keccak256 t)).data = encodeNode (toNode keccak256 t) :=
  mptNodeEncode_data arenaAlloc_grantsUpTo _ (h.nodeRoom_le keccak256 hne)

/-- The three kinds of reference to a tree. -/
theorem toRef_cases (keccak256 : Bytes → Hash) (t : ByteTree) :
    (t = nil ∧ toRef keccak256 t = .null) ∨
    (t ≠ nil ∧ (encodeNode (toNode keccak256 t)).length < 32 ∧ toRef keccak256 t =
      .resolved (.embedded (encodeNode (toNode keccak256 t))) (toNode keccak256 t)) ∨
    (t ≠ nil ∧ toRef keccak256 t =
      .resolved (.hash (keccak256 (encodeNode (toNode keccak256 t)))) (toNode keccak256 t)) := by
  by_cases hnil : t = nil
  · exact Or.inl ⟨hnil, by rw [hnil]; rfl⟩
  · have hnode : ∀ cached, toNode keccak256 t ≠ .empty cached := by
      intro cached hempty
      cases t with
      | nil => exact hnil rfl
      | leaf path value => cases hempty
      | extension path child => cases hempty
      | branch children value => cases hempty
    rcases refOf_cases keccak256 (toNode keccak256 t) with ⟨cached, hempty, -⟩ | ⟨hlt, href⟩ |
      ⟨-, href⟩
    · exact absurd hempty (hnode cached)
    · exact Or.inr (Or.inl ⟨hnil, hlt, href⟩)
    · exact Or.inr (Or.inr ⟨hnil, href⟩)

theorem encodeNode_toNode (keccak256 : Bytes → Hash) (hne : t ≠ nil) :
    encodeNode (toNode keccak256 t) = encodeList (nodeItems (toNode keccak256 t)).flatten := by
  cases t with
  | nil => exact absurd rfl hne
  | leaf path value => rfl
  | extension path child => rfl
  | branch children value => rfl

/-- What a reference contributes to its parent is one RLP item. -/
theorem isItem_refBytes (keccak256 : Bytes → Hash) (t : ByteTree) :
    IsItem (refBytes (toRef keccak256 t)) := by
  rcases toRef_cases keccak256 t with ⟨-, href⟩ | ⟨hne, hlt, href⟩ | ⟨-, href⟩
  · rw [href]
    exact IsItem.string [] (by decide)
  · rw [href]
    have hitems := encodeNode_toNode keccak256 hne
    have hlen := length_le_encodeList (nodeItems (toNode keccak256 t)).flatten
    have hbytes : refBytes (.resolved (.embedded (encodeNode (toNode keccak256 t)))
        (toNode keccak256 t)) = encodeList (nodeItems (toNode keccak256 t)).flatten := hitems
    rw [hbytes]
    rw [hitems] at hlt
    exact IsItem.list _ (by omega)
  · rw [href]
    exact IsItem.string _ (by rw [Hash.size_eq]; decide)

theorem Storable.flatten_lt (keccak256 : Bytes → Hash) (h : Storable t) (hne : t ≠ nil) :
    (nodeItems (toNode keccak256 t)).flatten.length < 2 ^ 64 := by
  have hroom := h.nodeRoom_le keccak256 hne
  unfold nodeRoom at hroom
  omega

/-- A string item of a node is shorter than the length field can express. -/
theorem Storable.string_lt (h : Storable t) (hne : t ≠ nil) {data : Bytes}
    (hmem : encodeString data ∈ nodeItems (toNode keccak256 t)) : data.length < 2 ^ 64 := by
  have hle := (List.sublist_flatten_of_mem hmem).length_le
  have hlt := h.flatten_lt keccak256 hne
  have hdata := length_le_encodeString data
  omega

theorem Storable.isItem (h : Storable t) (hne : t ≠ nil) :
    ∀ x ∈ nodeItems (toNode keccak256 t), IsItem x := by
  have hstring : ∀ data, encodeString data ∈ nodeItems (toNode keccak256 t) →
      IsItem (encodeString data) :=
    fun data hmem => IsItem.string data (h.string_lt hne hmem)
  intro x hx
  cases t with
  | nil => exact absurd rfl hne
  | leaf path value =>
    simp only [toNode, nodeItems, List.mem_cons, List.not_mem_nil, or_false] at hx hstring
    rcases hx with rfl | rfl
    · exact hstring _ (Or.inl rfl)
    · exact hstring _ (Or.inr rfl)
  | extension path child =>
    simp only [toNode, nodeItems, List.mem_cons, List.not_mem_nil, or_false] at hx hstring
    rcases hx with rfl | rfl
    · exact hstring _ (Or.inl rfl)
    · exact isItem_refBytes keccak256 child
  | branch children value =>
    simp only [toNode, nodeItems, List.mem_append, List.mem_map, List.mem_singleton] at hx hstring
    rcases hx with ⟨i, -, rfl⟩ | rfl
    · exact isItem_refBytes keccak256 (children i)
    · exact hstring _ (Or.inr rfl)

/-- Equal encodings have equal items. -/
theorem nodeItems_eq (hs : Storable s) (ht : Storable t) (hns : s ≠ nil) (hnt : t ≠ nil)
    (h : encodeNode (toNode keccak256 s) = encodeNode (toNode keccak256 t)) :
    nodeItems (toNode keccak256 s) = nodeItems (toNode keccak256 t) := by
  rw [encodeNode_toNode keccak256 hns, encodeNode_toNode keccak256 hnt] at h
  have hflat := encodeList_injective (hs.flatten_lt keccak256 hns)
    (ht.flatten_lt keccak256 hnt) h
  exact flatten_injective (hs.isItem hns) (ht.isItem hnt) hflat

/-- The strings hashed for a tree's reference, on a list where no two collide. -/
structure HashedIn (keccak256 : Bytes → Hash) (strings hashed : List Bytes) : Prop where
  mem : ∀ x ∈ hashed, x ∈ strings
  injective : ∀ x ∈ strings, ∀ y ∈ strings, keccak256 x = keccak256 y → x = y

variable {strings : List Bytes}

/-- Without a collision, what the parent holds for a child determines its encoding. -/
theorem encodeNode_of_refBytes (hs : Storable s) (ht : Storable t)
    (hms : HashedIn keccak256 strings (hashedRef arenaAlloc (toRef keccak256 s)))
    (hmt : HashedIn keccak256 strings (hashedRef arenaAlloc (toRef keccak256 t)))
    (h : refBytes (toRef keccak256 s) = refBytes (toRef keccak256 t)) :
    (s = nil ∧ t = nil) ∨ (s ≠ nil ∧ t ≠ nil ∧
      encodeNode (toNode keccak256 s) = encodeNode (toNode keccak256 t)) := by
  have hempty : ([] : Bytes).length < 2 ^ 64 := by decide
  have hhash : ∀ digest : Hash, digest.bytes.length < 2 ^ 64 := by
    intro digest
    rw [digest.size_eq]
    decide
  -- a list never equals a string, and the empty string is not a hash
  have hlist : ∀ (u : ByteTree) (data : Bytes), Storable u → u ≠ nil → data.length < 2 ^ 64 →
      encodeNode (toNode keccak256 u) ≠ encodeString data := by
    intro u data hu hne hdata heq
    rw [encodeNode_toNode keccak256 hne] at heq
    exact encodeString_ne_encodeList hdata (hu.flatten_lt keccak256 hne) heq.symm
  have hnull : ∀ digest : Hash, encodeString [] ≠ encodeString digest.bytes := by
    intro digest heq
    have hsize := digest.size_eq
    rw [← encodeString_injective hempty (hhash digest) heq] at hsize
    cases hsize
  rcases toRef_cases keccak256 s with ⟨hns, hrs⟩ | ⟨hns, -, hrs⟩ | ⟨hns, hrs⟩ <;>
    rcases toRef_cases keccak256 t with ⟨hnt, hrt⟩ | ⟨hnt, -, hrt⟩ | ⟨hnt, hrt⟩ <;>
    rw [hrs, hrt] at h
  · exact Or.inl ⟨hns, hnt⟩
  · exact absurd h.symm (hlist t [] ht hnt hempty)
  · exact absurd h (hnull _)
  · exact absurd h (hlist s [] hs hns hempty)
  · exact Or.inr ⟨hns, hnt, h⟩
  · exact absurd h (hlist s _ hs hns (hhash _))
  · exact absurd h.symm (hnull _)
  · exact absurd h.symm (hlist t _ ht hnt (hhash _))
  · have hdigest := Hash.ext (encodeString_injective (hhash _) (hhash _) h)
    rw [hrs, hashedRef, hs.encode hns] at hms
    rw [hrt, hashedRef, ht.encode hnt] at hmt
    exact Or.inr ⟨hns, hnt, hms.injective _ (hms.mem _ List.mem_cons_self) _
      (hmt.mem _ List.mem_cons_self) hdigest⟩

theorem HashedIn.below {u : ByteTree}
    (h : HashedIn keccak256 strings (hashedRef arenaAlloc (toRef keccak256 u))) :
    HashedIn keccak256 strings (hashedBelow arenaAlloc (toNode keccak256 u)) := by
  refine ⟨?_, h.injective⟩
  intro x hx
  rcases toRef_cases keccak256 u with ⟨rfl, -⟩ | ⟨-, -, href⟩ | ⟨-, href⟩
  · simp only [toNode, hashedBelow, List.not_mem_nil] at hx
  · rw [href, hashedRef] at h
    exact h.mem x hx
  · rw [href, hashedRef] at h
    exact h.mem x (List.mem_cons_of_mem _ hx)

theorem HashedIn.letter {children : Nibble → ByteTree} {value : Option Bytes}
    (h : HashedIn keccak256 strings
      (hashedBelow arenaAlloc (toNode keccak256 (branch children value)))) (i : Nibble) :
    HashedIn keccak256 strings (hashedRef arenaAlloc (toRef keccak256 (children i))) := by
  refine ⟨?_, h.injective⟩
  intro x hx
  apply h.mem
  simp only [toNode, hashedBelow, List.mem_flatMap]
  exact ⟨i, List.mem_finRange i, hx⟩

/-- The value slot of a branch: absent and empty are encoded alike, but no empty value is
stored. -/
theorem Storable.value_eq {c d : Nibble → ByteTree} {v w : Option Bytes}
    (hs : Storable (branch c v)) (ht : Storable (branch d w))
    (h : v.getD [] = w.getD []) : v = w := by
  cases v with
  | none =>
    cases w with
    | none => rfl
    | some b => exact absurd h.symm (ht.values [] b rfl)
  | some a =>
    cases w with
    | none => exact absurd h (hs.values [] a rfl)
    | some b => exact congrArg some h

theorem Storable.string_eq (keccak256 : Bytes → Hash) (hs : Storable s) (ht : Storable t)
    (hns : s ≠ nil) (hnt : t ≠ nil) {a b : Bytes}
    (ha : encodeString a ∈ nodeItems (toNode keccak256 s))
    (hb : encodeString b ∈ nodeItems (toNode keccak256 t))
    (h : encodeString a = encodeString b) : a = b :=
  encodeString_injective (hs.string_lt hns ha) (ht.string_lt hnt hb) h

theorem nodeItems_leaf (path : Nibbles) (value : Bytes) :
    nodeItems (toNode keccak256 (leaf path value)) =
      [encodeString (hexPrefix true path), encodeString value] := rfl

theorem nodeItems_extension (path : Nibbles) (child : ByteTree) :
    nodeItems (toNode keccak256 (extension path child)) =
      [encodeString (hexPrefix false path), refBytes (toRef keccak256 child)] := rfl

theorem nodeItems_branch (children : Nibble → ByteTree) (value : Option Bytes) :
    nodeItems (toNode keccak256 (branch children value)) =
      (List.finRange 16).map (fun i => refBytes (toRef keccak256 (children i))) ++
        [encodeString (value.getD [])] := rfl

/-- Leaves and extensions have two items, branches seventeen. -/
theorem nodeItems_two_ne_branch {x y : Bytes} {children : Nibble → ByteTree}
    {value : Option Bytes} :
    [x, y] ≠ nodeItems (toNode keccak256 (branch children value)) := by
  intro heq
  have hlen := congrArg List.length heq
  rw [nodeItems_branch] at hlen
  simp at hlen

/-- Equal items of two leaves or extensions: same kind, same path, same second item. -/
theorem hexPrefix_item_eq {a b : Bool} {p q : Nibbles} (hs : Storable s) (ht : Storable t)
    (hns : s ≠ nil) (hnt : t ≠ nil) {x y : Bytes}
    (hp : nodeItems (toNode keccak256 s) = [encodeString (hexPrefix a p), x])
    (hq : nodeItems (toNode keccak256 t) = [encodeString (hexPrefix b q), y])
    (h : nodeItems (toNode keccak256 s) = nodeItems (toNode keccak256 t)) :
    a = b ∧ p = q ∧ x = y := by
  have hlists := h
  rw [hp, hq] at hlists
  obtain ⟨hfirst, hrest⟩ := List.cons.inj hlists
  have hpath := hs.string_eq keccak256 ht hns hnt (by rw [hp]; exact List.mem_cons_self)
    (by rw [hq]; exact List.mem_cons_self) hfirst
  obtain ⟨hkind, hnibbles⟩ := hexPrefix_injective hpath
  exact ⟨hkind, hnibbles, (List.cons.inj hrest).1⟩

/-- Without a collision among the hashed strings, equal encodings come from equal trees. -/
theorem tree_eq_of_encodeNode (hs : Storable s) (ht : Storable t) (hns : s ≠ nil) (hnt : t ≠ nil)
    (hms : HashedIn keccak256 strings (hashedBelow arenaAlloc (toNode keccak256 s)))
    (hmt : HashedIn keccak256 strings (hashedBelow arenaAlloc (toNode keccak256 t)))
    (h : encodeNode (toNode keccak256 s) = encodeNode (toNode keccak256 t)) : s = t := by
  have hitems := nodeItems_eq hs ht hns hnt h
  induction s generalizing t with
  | nil => exact absurd rfl hns
  | leaf path value =>
    cases t with
    | nil => exact absurd rfl hnt
    | leaf path' value' =>
      obtain ⟨-, hpath, hsecond⟩ := hexPrefix_item_eq hs ht hns hnt (nodeItems_leaf path value)
        (nodeItems_leaf path' value') hitems
      have hvalue : value = value' := hs.string_eq keccak256 ht hns hnt
        (by rw [nodeItems_leaf]; simp) (by rw [nodeItems_leaf]; simp) hsecond
      rw [hpath, hvalue]
    | extension path' child' =>
      have hkind := (hexPrefix_item_eq hs ht hns hnt (nodeItems_leaf path value)
        (nodeItems_extension path' child') hitems).1
      cases hkind
    | branch children' value' => exact absurd hitems nodeItems_two_ne_branch
  | extension path child ih =>
    cases t with
    | nil => exact absurd rfl hnt
    | leaf path' value' =>
      have hkind := (hexPrefix_item_eq hs ht hns hnt (nodeItems_extension path child)
        (nodeItems_leaf path' value') hitems).1
      cases hkind
    | extension path' child' =>
      obtain ⟨-, hpath, hsecond⟩ := hexPrefix_item_eq hs ht hns hnt
        (nodeItems_extension path child) (nodeItems_extension path' child') hitems
      rw [hpath]
      rcases encodeNode_of_refBytes hs.child ht.child hms hmt hsecond with
        ⟨hnc, hnc'⟩ | ⟨hnc, hnc', henc⟩
      · rw [hnc, hnc']
      · rw [ih hs.child ht.child hnc hnc' (HashedIn.below hms) (HashedIn.below hmt) henc
          (nodeItems_eq hs.child ht.child hnc hnc' henc)]
    | branch children' value' => exact absurd hitems nodeItems_two_ne_branch
  | branch children value ih =>
    cases t with
    | nil => exact absurd rfl hnt
    | leaf path' value' => exact absurd hitems.symm nodeItems_two_ne_branch
    | extension path' child' => exact absurd hitems.symm nodeItems_two_ne_branch
    | branch children' value' =>
      have hlists := hitems
      rw [nodeItems_branch, nodeItems_branch] at hlists
      obtain ⟨hrefs, hlast⟩ := List.append_inj hlists (by simp)
      have hvalue : value = value' := hs.value_eq ht (hs.string_eq keccak256 ht hns hnt
        (by rw [nodeItems_branch]; simp) (by rw [nodeItems_branch]; simp) (List.cons.inj hlast).1)
      have hchildren : children = children' := by
        funext i
        have href := List.map_inj_left.mp hrefs i (List.mem_finRange i)
        rcases encodeNode_of_refBytes (hs.letter i) (ht.letter i) (hms.letter i) (hmt.letter i)
          href with ⟨hnc, hnc'⟩ | ⟨hnc, hnc', henc⟩
        · rw [hnc, hnc']
        · exact ih i (hs.letter i) (ht.letter i) hnc hnc' (hms.letter i).below
            (hmt.letter i).below henc (nodeItems_eq (hs.letter i) (ht.letter i) hnc hnc' henc)
      rw [hvalue, hchildren]

def rootStrings (keccak256 : Bytes → Hash) (t : ByteTree) : List Bytes :=
  if t.isNil then []
  else encodeNode (toNode keccak256 t) :: hashedBelow arenaAlloc (toNode keccak256 t)

theorem rootStrings_of_ne (hne : t ≠ nil) : rootStrings keccak256 t =
    encodeNode (toNode keccak256 t) :: hashedBelow arenaAlloc (toNode keccak256 t) :=
  if_neg fun hnil => hne (isNil_iff.mp hnil)

theorem treeRootHash_of_ne (hne : t ≠ nil) :
    treeRootHash keccak256 t = keccak256 (encodeNode (toNode keccak256 t)) :=
  if_neg fun hnil => hne (isNil_iff.mp hnil)

/-- No tree shares its root with the empty one. -/
theorem treeRootHash_ne_empty (hempty : keccak256 [0x80] = mptEmptyRoot) (ht : Storable t)
    (hne : t ≠ nil) (hmem : [0x80] ∈ strings)
    (hmt : HashedIn keccak256 strings (rootStrings keccak256 t)) :
    treeRootHash keccak256 t ≠ mptEmptyRoot := by
  intro hroot
  rw [treeRootHash_of_ne hne, ← hempty] at hroot
  rw [rootStrings_of_ne hne] at hmt
  have heq := hmt.injective _ (hmt.mem _ List.mem_cons_self) _ hmem hroot
  rw [encodeNode_toNode keccak256 hne] at heq
  exact encodeString_ne_encodeList (s := []) (by decide) (ht.flatten_lt keccak256 hne) heq.symm

/-- Without a collision the root determines the tree. -/
theorem tree_eq_of_treeRootHash (hempty : keccak256 [0x80] = mptEmptyRoot) (hs : Storable s)
    (ht : Storable t) (hmem : [0x80] ∈ strings)
    (hms : HashedIn keccak256 strings (rootStrings keccak256 s))
    (hmt : HashedIn keccak256 strings (rootStrings keccak256 t))
    (h : treeRootHash keccak256 s = treeRootHash keccak256 t) : s = t := by
  by_cases hns : s = nil
  · by_cases hnt : t = nil
    · rw [hns, hnt]
    · rw [hns] at h
      exact absurd h.symm (treeRootHash_ne_empty hempty ht hnt hmem hmt)
  · by_cases hnt : t = nil
    · rw [hnt] at h
      exact absurd h (treeRootHash_ne_empty hempty hs hns hmem hms)
    · rw [treeRootHash_of_ne hns, treeRootHash_of_ne hnt] at h
      rw [rootStrings_of_ne hns] at hms
      rw [rootStrings_of_ne hnt] at hmt
      have henc := hms.injective _ (hms.mem _ List.mem_cons_self) _
        (hmt.mem _ List.mem_cons_self) h
      exact tree_eq_of_encodeNode hs ht hns hnt
        ⟨fun x hx => hms.mem x (List.mem_cons_of_mem _ hx), hms.injective⟩
        ⟨fun x hx => hmt.mem x (List.mem_cons_of_mem _ hx), hmt.injective⟩ henc

theorem storable_run {ops : List Op} (hops : ∀ op ∈ ops, OpFits (· ≤ 65536) op)
    (hvalues : ∀ key value, (replay ops).lookup key = some value → value ≠ []) :
    Storable (treeRun ops) := by
  obtain ⟨hrep, hfits⟩ := @represents_run ⟨arenaAlloc, fun _ => mptEmptyRoot, .ample⟩ _
    arenaAlloc_supply ops hops
  refine ⟨hrep.canonical, hfits, ?_⟩
  intro nibbles value hlookup
  obtain ⟨key, rfl⟩ := spelled_treeRun ops hlookup
  rw [lookup_treeRun] at hlookup
  exact hvalues key value hlookup

/-- Whatever grants 64 KB makes the same encodings as the arena. -/
theorem hashedBelow_eq {alloc : Alloc} (halloc : GrantsUpTo alloc 65536) (ht : Storable t) :
    hashedBelow alloc (toNode keccak256 t) = hashedBelow arenaAlloc (toNode keccak256 t) := by
  have href : ∀ s : ByteTree, Storable s →
      hashedBelow alloc (toNode keccak256 s) = hashedBelow arenaAlloc (toNode keccak256 s) →
      hashedRef alloc (toRef keccak256 s) = hashedRef arenaAlloc (toRef keccak256 s) := by
    intro s hs hbelow
    rcases toRef_cases keccak256 s with ⟨-, href⟩ | ⟨-, -, href⟩ | ⟨hne, href⟩
    · rw [href]
      rfl
    · rw [href, hashedRef, hashedRef, hbelow]
    · rw [href, hashedRef, hashedRef, hbelow, hs.encode hne,
        mptNodeEncode_data halloc _ (hs.nodeRoom_le keccak256 hne)]
  induction t with
  | nil => rfl
  | leaf path value => rfl
  | extension path child ih =>
    have hchild := href child ht.child (ih ht.child)
    simp only [toRef] at hchild
    simp only [toNode, hashedBelow, hchild]
  | branch children value ih =>
    have hchildren := fun i => href (children i) (ht.letter i) (ih i (ht.letter i))
    simp only [toRef] at hchildren
    simp only [toNode, hashedBelow, hchildren]

/-- The strings the code hashes for the root of a trie are those of its tree. -/
theorem hashedEncodings_eq {host : Host} (halloc : GrantsUpTo host.alloc 65536) {mpt : Backend}
    (hrep : Represents host mpt t) (ht : Storable t) :
    hashedEncodings host mpt = rootStrings host.keccak256 t := by
  unfold hashedEncodings
  rcases hrep.root with ⟨rfl, hroot⟩ | ⟨hne, cached, hroot, -⟩
  · rw [hroot]
    rfl
  · have hencode : (mptNodeEncode host.alloc ((toNode host.keccak256 t).withCache cached)).data =
        encodeNode (toNode host.keccak256 t) := by
      rw [mptNodeEncode_data halloc _
        ((nodeRoom_withCache _ _).le.trans (ht.nodeRoom_le host.keccak256 hne)),
        encodeNode_withCache]
    have hbelow : hashedBelow host.alloc ((toNode host.keccak256 t).withCache cached) =
        hashedBelow host.alloc (toNode host.keccak256 t) := by
      cases t <;> simp only [toNode, MptNode.withCache, hashedBelow]
    rw [hroot, rootStrings_of_ne hne]
    simp only [hencode, hbelow, hashedBelow_eq halloc ht]

/-- Equal root hashes come from equal trees, or exhibit a collision among the strings
hashed for the two roots. -/
theorem tree_eq_or_collision {host : Host} (hsupply : Supply host.alloc (· ≤ 65536))
    (hempty : host.keccak256 [0x80] = mptEmptyRoot) {mpt mpt' : Backend}
    (hrs : Represents host mpt s) (hrt : Represents host mpt' t) (hs : Storable s)
    (ht : Storable t) (hroot : (mptRootHash host mpt).1 = (mptRootHash host mpt').1) :
    s = t ∨ Collision host.keccak256
      ([0x80] :: (hashedEncodings host mpt ++ hashedEncodings host mpt')) := by
  have halloc : GrantsUpTo host.alloc 65536 := hsupply.grantsUpTo le_rfl
  rw [(hrs.rootHash hsupply hs.fits).2, (hrt.rootHash hsupply ht.fits).2] at hroot
  rw [hashedEncodings_eq halloc hrs hs, hashedEncodings_eq halloc hrt ht]
  by_cases hcollision : Collision host.keccak256 ([0x80] ::
      (rootStrings host.keccak256 s ++ rootStrings host.keccak256 t))
  · exact Or.inr hcollision
  · left
    have hinjective : ∀ x ∈ [0x80] :: (rootStrings host.keccak256 s ++
        rootStrings host.keccak256 t), ∀ y ∈ [0x80] ::
        (rootStrings host.keccak256 s ++ rootStrings host.keccak256 t),
        host.keccak256 x = host.keccak256 y → x = y := by
      intro x hx y hy hxy
      by_contra hne
      exact hcollision ⟨x, hx, y, hy, hne, hxy⟩
    exact tree_eq_of_treeRootHash hempty hs ht List.mem_cons_self
      ⟨fun x hx => List.mem_cons_of_mem _ (List.mem_append_left _ hx), hinjective⟩
      ⟨fun x hx => List.mem_cons_of_mem _ (List.mem_append_right _ hx), hinjective⟩ hroot

/-- In runs whose calls all fit the arena, equal root hashes come from equal maps or
exhibit a collision among the strings hashed for the two roots. -/
theorem rootHash_binding (host : Host) (halloc : host.alloc = arenaAlloc)
    (hempty : host.keccak256 [0x80] = mptEmptyRoot) (ops ops' : List Op)
    (hops : ∀ op ∈ ops, OpFits (· ≤ 65536) op) (hops' : ∀ op ∈ ops', OpFits (· ≤ 65536) op)
    (hvalues : ∀ key value, (replay ops).lookup key = some value → value ≠ [])
    (hvalues' : ∀ key value, (replay ops').lookup key = some value → value ≠ [])
    (hroot : (mptRootHash host (run host ops)).1 = (mptRootHash host (run host ops')).1) :
    (∀ key, (replay ops).lookup key = (replay ops').lookup key) ∨
      Collision host.keccak256 ([0x80] :: (hashedEncodings host (run host ops) ++
        hashedEncodings host (run host ops'))) := by
  have hsupply : Supply host.alloc (· ≤ 65536) := halloc ▸ arenaAlloc_supply
  rcases tree_eq_or_collision hsupply hempty (represents_run hsupply hops).1
    (represents_run hsupply hops').1 (storable_run hops hvalues) (storable_run hops' hvalues')
    hroot with htree | hcollision
  · left
    intro key
    rw [← lookup_treeRun, ← lookup_treeRun, htree]
  · exact Or.inr hcollision

def arenaHost : Host := ⟨arenaAlloc, markedHash, .ample⟩

-- two histories of one map

def twoInserts : List Op := [.insert [0x12] [1], .insert [0x34] [2]]

def rewrites : List Op :=
  [.insert [0x56] [3], .insert [0x34] [2], .rootHash, .delete [0x56], .insert [0x12] [1]]

theorem ne_nil_of_entries {map : AList fun _ : Bytes => Bytes} (h : ∀ e ∈ map.entries, e.2 ≠ [])
    (key value : Bytes) (hlookup : map.lookup key = some value) : value ≠ [] :=
  h _ (AList.mem_lookup_iff.mp hlookup)

theorem rootHash_binding_arenaHost :
    (mptRootHash arenaHost (run arenaHost twoInserts)).1 =
      (mptRootHash arenaHost (run arenaHost rewrites)).1 ∧
    ∀ key, (replay twoInserts).lookup key = (replay rewrites).lookup key := by
  have hroot : (mptRootHash arenaHost (run arenaHost twoInserts)).1 =
      (mptRootHash arenaHost (run arenaHost rewrites)).1 := by decide +kernel
  have happart : ¬Collision markedHash ([0x80] :: (hashedEncodings arenaHost
      (run arenaHost twoInserts) ++ hashedEncodings arenaHost (run arenaHost rewrites))) := by
    decide +kernel
  exact ⟨hroot, (rootHash_binding arenaHost rfl rfl twoInserts rewrites
    (by simp [twoInserts, OpFits, EntryFits]; decide)
    (by simp [rewrites, OpFits, EntryFits]; decide)
    (ne_nil_of_entries (by decide)) (ne_nil_of_entries (by decide)) hroot).resolve_right happart⟩

/-- Appends to a full block are all lost. -/
theorem rlpListAppendAll_full {alloc : Alloc} {b : Buf} {room : ℕ} (hblock : b.block = some room)
    (hfull : room ≤ b.data.length) {items : List Bytes} (hitems : ∀ item ∈ items, item ≠ []) :
    rlpListAppendAll alloc b items = b := by
  induction items with
  | nil => rfl
  | cons item rest ih =>
    have hne := hitems item List.mem_cons_self
    have hpos := List.length_pos_of_ne_nil hne
    have hstep : rlpListAppendAll alloc b (item :: rest) =
        rlpListAppendAll alloc (b.append! alloc item) rest := rfl
    rw [hstep, Buf.append!_of_full hblock (by omega) hne,
      ih fun i hi => hitems i (List.mem_cons_of_mem _ hi)]

/-- When the reservation is refused, the node is encoded as the empty list whatever its
items are. -/
theorem encodeItems_refused {items : List Bytes} (hitems : ∀ item ∈ items, item ≠ [])
    (hsize : 65536 < rlpMaxHeaderSize + (items.map List.length).sum) :
    (encodeItems arenaAlloc items).data = [0xc0] := by
  have hstart : rlpListStart arenaAlloc Buf.init =
      (inRoom rlpMaxHeaderSize (List.replicate rlpMaxHeaderSize 0), 0) := by decide
  have hlost := @rlpListAppendAll_full arenaAlloc
    (inRoom rlpMaxHeaderSize (List.replicate rlpMaxHeaderSize 0)) _ rfl (by decide) items hitems
  unfold encodeItems
  simp only [Buf.reserve!_refused (arenaAlloc_refuses hsize), hstart, hlost]
  rfl

/-- A value that fits a block while the list around it does not. -/
theorem leaf_encoding_lost {value : Bytes} (hlow : 65525 ≤ value.length)
    (hhigh : value.length ≤ 65532) (cached : Option Hash) :
    (mptNodeEncode arenaAlloc (.leaf cached [] (some value))).data = [0xc0] := by
  have hnot : ¬IsSingle value := by
    intro hsingle
    have hone := ((isSingle_iff value).mp hsingle).1
    omega
  have hlen : (encodeString value).length = 1 + byteLength value.length + value.length := by
    unfold encodeString
    rw [if_neg hnot, List.length_append, header_length, if_neg (by omega)]
  have hbytes : byteLength value.length ≤ 2 := byteLength_le_of_lt_pow (by omega)
  have hvalue : (rlpEncodeBytes arenaAlloc value).data = encodeString value :=
    rlpEncodeBytes_data arenaAlloc_grantsUpTo (by omega)
  have hpath : (rlpEncodeBytes arenaAlloc (hexPrefixEncode arenaAlloc [] true).data).data =
      [0x20] := by decide
  simp only [mptNodeEncode, Option.getD_some, hvalue, hpath]
  apply encodeItems_refused
  · intro item hitem
    simp only [List.mem_cons, List.not_mem_nil, or_false] at hitem
    rcases hitem with rfl | rfl
    · decide
    · exact encodeString_ne_nil value
  · have hpos := byteLength_pos (show value.length ≠ 0 by omega)
    have hheader : rlpMaxHeaderSize = 9 := rfl
    simp only [List.map_cons, List.map_nil, List.sum_cons, List.sum_nil, List.length_cons,
      List.length_nil, hlen]
    omega

/-- A trie whose single value has that size. -/
theorem run_insert_lost {host : Host} (halloc : host.alloc = arenaAlloc) (value : Bytes)
    (hlow : 65525 ≤ value.length) (hhigh : value.length ≤ 65532) :
    mptGet host (run host [.insert [] value]) [] = some value ∧
    (mptRootHash host (run host [.insert [] value])).1 = host.keccak256 [0xc0] ∧
    hashedEncodings host (run host [.insert [] value]) = [[0xc0]] := by
  have hcopy : copyValue arenaAlloc value = some value := by
    obtain ⟨b, hb, hdata⟩ := @Buf.fromData_isSome arenaAlloc value
      fun _ => arenaAlloc_grantsUpTo _ (by omega) (by omega)
    unfold copyValue
    rw [if_pos (by omega), hb, Option.map_some, hdata]
  have hrun : run host [.insert [] value] = ⟨some (.leaf none [] (some value))⟩ := by
    rw [← hcopy, ← halloc]
    rfl
  have hlost := leaf_encoding_lost hlow hhigh none
  rw [hrun]
  refine ⟨rfl, ?_, ?_⟩
  · simp only [mptRootHash, mptNodeHash, MptNode.cachedHash, halloc, hlost]
  · simp only [hashedEncodings, hashedBelow, halloc, hlost]

/-- The arena with a hash function that is right on the empty trie and tells its encoding
from every other string. -/
def twoHashHost : Host where
  alloc := arenaAlloc
  keccak256 data := if data = [0x80] then mptEmptyRoot else hashZero
  tables := .ample

/-- Two tries with different values of 65530 bytes at the same key have the same root,
and the strings hashed for the roots do not collide. -/
theorem rootHash_not_binding :
    let a := run twoHashHost [.insert [] (List.replicate 65530 1)]
    let b := run twoHashHost [.insert [] (List.replicate 65530 2)]
    (mptRootHash twoHashHost a).1 = (mptRootHash twoHashHost b).1 ∧
    mptGet twoHashHost a [] = some (List.replicate 65530 1) ∧
    mptGet twoHashHost b [] = some (List.replicate 65530 2) ∧
    (List.replicate 65530 1 : Bytes) ≠ List.replicate 65530 2 ∧
    ¬Collision twoHashHost.keccak256
      ([0x80] :: (hashedEncodings twoHashHost a ++ hashedEncodings twoHashHost b)) := by
  have hlen : ∀ byte : UInt8, (List.replicate 65530 byte).length = 65530 :=
    fun byte => List.length_replicate
  have hlost : ∀ byte : UInt8, _ := fun byte => @run_insert_lost twoHashHost rfl
    (List.replicate 65530 byte) (by rw [hlen]; omega) (by rw [hlen]; omega)
  refine ⟨(hlost 1).2.1.trans (hlost 2).2.1.symm, (hlost 1).1, (hlost 2).1, ?_, ?_⟩
  · intro heq
    have hmem : (1 : UInt8) ∈ List.replicate 65530 2 := by
      rw [← heq]
      exact List.mem_replicate.mpr ⟨by omega, rfl⟩
    exact absurd (List.mem_replicate.mp hmem).2 (by decide)
  · intro hcollision
    rw [(hlost 1).2.2, (hlost 2).2.2] at hcollision
    obtain ⟨x, hx, y, hy, hne, hxy⟩ := hcollision
    simp only [List.mem_cons, List.cons_append, List.nil_append, List.not_mem_nil, or_false,
      or_self] at hx hy
    rcases hx with rfl | rfl <;> rcases hy with rfl | rfl
    · exact hne rfl
    · exact absurd hxy (by decide)
    · exact absurd hxy (by decide)
    · exact hne rfl

end Div0.TrieBinding
