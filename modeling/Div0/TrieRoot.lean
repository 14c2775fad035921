import Div0.TrieMap
import Div0.PatriciaRoot

/-!
The root hash of a trie is the Merkle Patricia root of its entries. `Lists` says
that a list of entries holds exactly what a tree holds; the encoding of such a list is
the encoding of the tree's node, whatever the order of the list, by induction on the
tree.
-/

namespace Div0.TrieRoot

open BigEndian Buffer RlpFormat NibbleFormat Node Mpt PatriciaTree TrieRefinement TrieMap Uint256
open PatriciaRoot PatriciaTree.Tree

/-- The list holds every entry of the tree once, and nothing else. -/
structure Lists (entries : Entries) (t : ByteTree) : Prop where
  nodup : (entries.map Prod.fst).Nodup
  mem_iff : ∀ key value, (key, value) ∈ entries ↔ t.lookup key = some value

variable {entries : Entries} {t : ByteTree} {keccak256 : Bytes → Hash}

theorem Lists.eq_nil (h : Lists entries nil) : entries = [] := by
  cases entries with
  | nil => rfl
  | cons e rest => cases (h.mem_iff e.1 e.2).mp List.mem_cons_self

theorem Lists.ne_nil (h : Lists entries t) (ht : t.Canonical) (hne : t ≠ nil) : entries ≠ [] := by
  obtain ⟨key, value, hkey⟩ := exists_lookup ht hne
  exact List.ne_nil_of_mem ((h.mem_iff key value).mpr hkey)

theorem Lists.leaf {path : Nibbles} {value : Bytes} (h : Lists entries (leaf path value)) :
    entries = [(path, value)] := by
  have hall : ∀ e ∈ entries, e = (path, value) := by
    rintro ⟨key, v⟩ he
    have hlookup := (h.mem_iff key v).mp he
    rw [lookup_leaf] at hlookup
    split at hlookup
    · next hkey => cases hlookup; rw [hkey]
    · cases hlookup
  have hmem : (path, value) ∈ entries := (h.mem_iff path value).mpr (by rw [lookup_leaf, if_pos rfl])
  cases entries with
  | nil => cases hmem
  | cons e rest =>
    cases rest with
    | nil => rw [hall e List.mem_cons_self]
    | cons e' rest =>
      have hnodup := h.nodup
      rw [List.map_cons, List.map_cons, hall e List.mem_cons_self, hall e' (by simp)] at hnodup
      simp at hnodup

theorem Lists.value {children : Nibble → ByteTree} {value : Option Bytes}
    (h : Lists entries (branch children value)) : entries.lookup [] = value := by
  cases hl : entries.lookup [] with
  | none =>
    cases value with
    | none => rfl
    | some v =>
      have hmem := (h.mem_iff [] v).mpr rfl
      rw [List.lookup_eq_none_iff] at hl
      exact absurd (hl _ hmem) (by simp)
  | some v =>
    obtain ⟨l, l', heq, -⟩ := List.lookup_eq_some_iff.mp hl
    have hmem : ([], v) ∈ entries := by rw [heq]; simp
    exact ((h.mem_iff [] v).mp hmem).symm

theorem Lists.path {path : Nibbles} {child : ByteTree} (h : Lists entries (extension path child))
    {e : Nibbles × Bytes} (he : e ∈ entries) : ∃ rest, e.1 = path ++ rest := by
  obtain ⟨rest, hrest, -⟩ := exists_of_lookup_extension ((h.mem_iff e.1 e.2).mp he)
  exact ⟨rest, hrest⟩

theorem Lists.below {path : Nibbles} {child : ByteTree}
    (h : Lists entries (extension path child)) : Lists (below path entries) child where
  nodup := by
    have hkeys : (PatriciaRoot.below path entries).map Prod.fst =
        (entries.map Prod.fst).map fun key => key.drop path.length := by
      simp only [PatriciaRoot.below, List.map_map]
      rfl
    rw [hkeys]
    refine h.nodup.map_on ?_
    intro x hx y hy hxy
    obtain ⟨e, he, rfl⟩ := List.mem_map.mp hx
    obtain ⟨e', he', rfl⟩ := List.mem_map.mp hy
    obtain ⟨r, hr⟩ := h.path he
    obtain ⟨r', hr'⟩ := h.path he'
    rw [hr, hr', List.drop_left' rfl, List.drop_left' rfl] at hxy
    rw [hr, hr', hxy]
  mem_iff := by
    intro key value
    rw [← lookup_extension path child key, ← h.mem_iff]
    simp only [PatriciaRoot.below, List.mem_map]
    constructor
    · rintro ⟨e, he, heq⟩
      obtain ⟨rest, hrest⟩ := h.path he
      have heq' : e.1.drop path.length = key ∧ e.2 = value := Prod.mk.inj heq
      rw [hrest, List.drop_left' rfl] at heq'
      rw [← heq'.1, ← heq'.2, ← hrest]
      exact he
    · intro hmem
      exact ⟨_, hmem, by simp only [List.drop_left' rfl]⟩

theorem Lists.startingWith {children : Nibble → ByteTree} {value : Option Bytes}
    (h : Lists entries (branch children value)) (i : Nibble) :
    Lists (startingWith i entries) (children i) where
  nodup := by
    have hdistinct := List.pairwise_map.mp h.nodup
    rw [PatriciaRoot.startingWith, List.Nodup, List.pairwise_map, List.pairwise_filterMap]
    refine hdistinct.imp ?_
    rintro ⟨x, v⟩ ⟨y, w⟩ hne e he e' he' heq
    cases x with
    | nil => cases he
    | cons a x =>
      cases y with
      | nil => cases he'
      | cons b y =>
        simp only [Option.ite_none_right_eq_some, Option.some.injEq] at he he'
        obtain ⟨rfl, rfl⟩ := he
        obtain ⟨rfl, rfl⟩ := he'
        exact hne (congrArg (b :: ·) heq)
  mem_iff := by
    intro key v
    rw [← lookup_branch_cons children value i key, ← h.mem_iff]
    simp only [PatriciaRoot.startingWith, List.mem_filterMap]
    constructor
    · rintro ⟨⟨k, w⟩, he, heq⟩
      cases k with
      | nil => cases heq
      | cons a rest =>
        simp only [Option.ite_none_right_eq_some, Option.some.injEq, Prod.mk.injEq] at heq
        obtain ⟨rfl, rfl, rfl⟩ := heq
        exact he
    · intro hmem
      exact ⟨_, hmem, by simp⟩

def hashBytes (keccak256 : Bytes → Hash) (data : Bytes) : Bytes := (keccak256 data).bytes

/-- The encoding of two or more entries. -/
theorem encodeEntries_fork (hash : Bytes → Bytes) (fuel : ℕ) {e e' : Nibbles × Bytes}
    (he : e ∈ entries) (he' : e' ∈ entries) (hne : e ≠ e') :
    encodeEntries hash (fuel + 1) entries =
      if commonPrefix entries ≠ [] then
        encodeList (encodeString (hexPrefix false (commonPrefix entries)) ++
          reference hash (below (commonPrefix entries) entries)
            (encodeEntries hash fuel (below (commonPrefix entries) entries)))
      else
        encodeList (((List.finRange 16).map fun i =>
          reference hash (startingWith i entries)
            (encodeEntries hash fuel (startingWith i entries))).flatten ++
          encodeString ((entries.lookup []).getD [])) := by
  match entries, he, he' with
  | [a], he, he' =>
    rw [List.mem_singleton] at he he'
    exact absurd (he.trans he'.symm) hne
  | a :: b :: rest, _, _ => rfl

/-- A subset of entries is referred to as the reference to its tree's node. -/
theorem reference_eq {encoded : Bytes} (h : Lists entries t) (ht : t.Canonical)
    (henc : t ≠ nil → encoded = encodeNode (toNode keccak256 t)) :
    reference (hashBytes keccak256) entries encoded = refBytes (toRef keccak256 t) := by
  by_cases hnil : t = nil
  · subst hnil
    rw [h.eq_nil]
    rfl
  · have hentries : entries.isEmpty = false := by simpa using h.ne_nil ht hnil
    have hne := @toRef_isNull keccak256 t
    rw [isNil_eq_false.mpr hnil] at hne
    rw [reference, hentries, if_neg (by simp), henc hnil]
    rcases refOf_cases keccak256 (toNode keccak256 t) with ⟨cached, -, href⟩ | ⟨hlt, href⟩ |
      ⟨hle, href⟩
    · rw [toRef, href] at hne
      cases hne
    · rw [toRef, href, if_pos hlt]
      rfl
    · rw [toRef, href, if_neg (by omega)]
      rfl

/-- The encoding of the entries of a tree is the encoding of its node. -/
theorem encodeEntries_eq (ht : t.Canonical) (hne : t ≠ nil) {fuel : ℕ} (h : Lists entries t)
    (hfuel : ∀ e ∈ entries, e.1.length < fuel) :
    encodeEntries (hashBytes keccak256) fuel entries = encodeNode (toNode keccak256 t) := by
  induction t generalizing entries fuel with
  | nil => exact absurd rfl hne
  | leaf path value =>
    obtain rfl := h.leaf
    cases fuel with
    | zero => exact absurd (hfuel _ List.mem_cons_self) (by omega)
    | succ fuel => simp [encodeEntries, encodeNode, toNode, nodeItems]
  | extension path child ih =>
    obtain ⟨hpath, hbranch, hchild⟩ := ht
    obtain ⟨children, value, rfl⟩ : ∃ children value, child = branch children value := by
      cases child with
      | branch children value => exact ⟨children, value, rfl⟩
      | nil => exact hbranch.elim
      | leaf p value => exact hbranch.elim
      | extension p c => exact hbranch.elim
    obtain ⟨x, y, v, w, hxy, hx, hy⟩ := branch_two_keys hchild
    have hmx := (h.mem_iff (path ++ x) v).mpr (by rw [lookup_extension, hx])
    have hmy := (h.mem_iff (path ++ y) w).mpr (by rw [lookup_extension, hy])
    have hcommon : commonPrefix entries = path :=
      commonPrefix_eq (fun e he => by
        obtain ⟨rest, hrest⟩ := h.path he
        rw [hrest]
        exact List.prefix_append path rest) hmx hmy hxy
    cases fuel with
    | zero => exact absurd (hfuel _ hmx) (by omega)
    | succ fuel =>
      have hpos := List.length_pos_of_ne_nil hpath
      have hshort : ∀ e ∈ below path entries, e.1.length < fuel := by
        intro e he
        obtain ⟨e₀, he₀, rfl⟩ := List.mem_map.mp he
        have hlen := hfuel e₀ he₀
        obtain ⟨rest, hrest⟩ := h.path he₀
        simp only [hrest, List.drop_left' rfl, List.length_append] at hlen ⊢
        omega
      have hpair : (path ++ x, v) ≠ (path ++ y, w) := by
        intro heq
        exact hxy (congrArg List.head? (List.append_cancel_left (Prod.mk.inj heq).1))
      rw [encodeEntries_fork _ fuel hmx hmy hpair, hcommon, if_pos hpath,
        reference_eq h.below hchild fun hnil => ih hchild hnil h.below hshort]
      simp [encodeNode, toNode, nodeItems, toRef]
  | branch children value ih =>
    have hchildren := ht.2
    obtain ⟨x, y, v, w, hxy, hx, hy⟩ := branch_two_keys ht
    have hmx := (h.mem_iff x v).mpr hx
    have hmy := (h.mem_iff y w).mpr hy
    have hcommon : commonPrefix entries = [] :=
      @commonPrefix_eq entries [] x y v w (fun e _ => List.nil_prefix) hmx hmy hxy
    cases fuel with
    | zero => exact absurd (hfuel _ hmx) (by omega)
    | succ fuel =>
      have hshort : ∀ i, ∀ e ∈ startingWith i entries, e.1.length < fuel := by
        intro i e he
        have hmem := ((h.startingWith i).mem_iff e.1 e.2).mp he
        have hlen := hfuel _ ((h.mem_iff (i :: e.1) e.2).mpr hmem)
        simp only [List.length_cons] at hlen
        omega
      have hpair : (x, v) ≠ (y, w) := fun heq => hxy (congrArg List.head? (Prod.mk.inj heq).1)
      have hrefs : ∀ i, reference (hashBytes keccak256) (startingWith i entries)
          (encodeEntries (hashBytes keccak256) fuel (startingWith i entries)) =
          refBytes (toRef keccak256 (children i)) := by
        intro i
        exact reference_eq (h.startingWith i) (hchildren i)
          fun hnil => ih i (hchildren i) hnil (h.startingWith i) (hshort i)
      rw [encodeEntries_fork _ fuel hmx hmy hpair, hcommon, if_neg (by simp), h.value]
      simp only [hrefs]
      simp [encodeNode, toNode, nodeItems, toRef]

def entriesOf (map : ByteMap) : Entries := map.entries.map fun e => (toNibbles e.1, e.2)

/-- Any map with the lookups of a run lists the entries of the run's tree. -/
theorem lists_entriesOf {ops : List Op} {map : ByteMap}
    (hmap : ∀ key, map.lookup key = (replay ops).lookup key) :
    Lists (entriesOf map) (treeRun ops) where
  nodup := by
    have hkeys : (entriesOf map).map Prod.fst = map.keys.map toNibbles := by
      simp only [entriesOf, AList.keys, List.keys, List.map_map]
      rfl
    rw [hkeys]
    exact map.keys_nodup.map fun _ _ => toNibbles_injective
  mem_iff := by
    intro key value
    constructor
    · intro hmem
      obtain ⟨e, he, heq⟩ := List.mem_map.mp hmem
      cases heq
      rw [lookup_treeRun, ← hmap]
      exact AList.mem_lookup_iff.mpr he
    · intro hlookup
      obtain ⟨k, rfl⟩ := spelled_treeRun ops hlookup
      rw [lookup_treeRun, ← hmap] at hlookup
      exact List.mem_map.mpr ⟨⟨k, value⟩, AList.mem_lookup_iff.mp hlookup, rfl⟩

/-- The root hash of a tree is the Merkle Patricia root of its entries. -/
theorem treeRootHash_of_lists (hempty : keccak256 [0x80] = mptEmptyRoot) (ht : t.Canonical)
    (h : Lists entries t) :
    (treeRootHash keccak256 t).bytes = patriciaRoot (hashBytes keccak256) entries := by
  by_cases hnil : t = nil
  · rw [hnil] at h ⊢
    rw [h.eq_nil]
    exact congrArg Hash.bytes hempty.symm
  · have hencode : encodeEntries (hashBytes keccak256) (longestKey entries + 1) entries =
        encodeNode (toNode keccak256 t) :=
      encodeEntries_eq ht hnil h fun e he => Nat.lt_succ_of_le (length_le_longestKey he)
    rw [treeRootHash, if_neg fun h => hnil (isNil_iff.mp h), patriciaRoot, hencode]
    rfl

/-- The root hash of a run's tree is the Merkle Patricia root of the map. -/
theorem treeRootHash_eq (hempty : keccak256 [0x80] = mptEmptyRoot) {ops : List Op} {map : ByteMap}
    (hcanonical : (treeRun ops).Canonical)
    (hmap : ∀ key, map.lookup key = (replay ops).lookup key) :
    (treeRootHash keccak256 (treeRun ops)).bytes =
      patriciaRoot (hashBytes keccak256) (entriesOf map) :=
  treeRootHash_of_lists hempty hcanonical (lists_entriesOf hmap)

mutual
/-- No cached hash and no reference in the node structure is out of date. -/
def Fresh (host : Host) : MptNode → Prop
  | .empty cached => ∀ h, cached = some h → h = mptEmptyRoot
  | .leaf cached path value => ∀ h, cached = some h →
      h = host.keccak256 (mptNodeEncode host.alloc (.leaf none path value)).data
  | .extension cached path child =>
    (∀ h, cached = some h →
      h = host.keccak256 (mptNodeEncode host.alloc (.extension none path child)).data) ∧
    FreshRef host child
  | .branch cached children value =>
    (∀ h, cached = some h →
      h = host.keccak256 (mptNodeEncode host.alloc (.branch none children value)).data) ∧
    ∀ i, FreshRef host (children i)

def FreshRef (host : Host) : NodeRef → Prop
  | .unresolved digest => NodeRef.unresolved digest = .null
  | .resolved digest node => NodeRef.resolved digest node = mptNodeRef host node ∧ Fresh host node
end

theorem fresh_toNode {host : Host} {fits : ℕ → Prop} (hs : Supply host.alloc fits)
    (ht : t.Canonical) (hfit : TreeFits fits t) {cached : Option Hash} (hne : t ≠ nil)
    (hcached : ∀ h, cached = some h → h = host.keccak256 (encodeNode (toNode host.keccak256 t))) :
    Fresh host ((toNode host.keccak256 t).withCache cached) := by
  have href : ∀ s : ByteTree, s.Canonical → TreeFits fits s →
      (s ≠ nil → Fresh host ((toNode host.keccak256 s).withCache none)) →
      FreshRef host (toRef host.keccak256 s) := by
    intro s hs' hfit' hfresh
    by_cases hnil : s = nil
    · rw [hnil]
      rfl
    · obtain ⟨digest, hdigest⟩ := @toRef_resolved host.keccak256 s hnil
      have hnode := mptNodeRef_toNode hs hs' hfit'
      rw [hdigest] at hnode ⊢
      rw [TrieDeletion.withCache_toNode] at hfresh
      exact ⟨hnode.symm, hfresh hnil⟩
  have hdata := mptNodeEncode_data (hs.grantsUpTo (nodeRoom_fits hs ht hne hfit))
    (toNode host.keccak256 t) le_rfl
  rw [← hdata] at hcached
  clear hdata
  induction t generalizing cached with
  | nil => exact absurd rfl hne
  | leaf path value => exact hcached
  | extension path child ih =>
    exact ⟨hcached, href child ht.2.2 (hfit.child hs) fun hnil =>
      ih ht.2.2 (hfit.child hs) hnil (by rintro h ⟨⟩)⟩
  | branch children value ih =>
    exact ⟨hcached, fun i => href (children i) (ht.2 i) (hfit.letter hs i) fun hnil =>
      ih i (ht.2 i) (hfit.letter hs i) hnil (by rintro h ⟨⟩)⟩

/-- After every sequence of calls `mpt_root_hash` returns the Merkle Patricia root of the
replayed map; it is the same for every run that ends in the same map; and no cached
hash or child reference is out of date. -/
theorem rootHash_eq_patriciaRoot (host : Host) (halloc : Unlimited host.alloc)
    (hempty : host.keccak256 [0x80] = mptEmptyRoot) (ops : List Op) :
    (mptRootHash host (run host ops)).1.bytes =
      patriciaRoot (hashBytes host.keccak256) (entriesOf (replay ops)) ∧
    (∀ ops', (∀ key, (replay ops').lookup key = (replay ops).lookup key) →
      (mptRootHash host (run host ops')).1 = (mptRootHash host (run host ops)).1) ∧
    (∀ root, (run host ops).root = some root → Fresh host root) := by
  have hs := halloc.supply
  have hrun : ∀ ops, Represents host (run host ops) (treeRun ops) ∧
      TreeFits (fun _ => True) (treeRun ops) :=
    fun ops => represents_run hs fun op _ => opFits_of_true op
  have hhash : ∀ ops map, (∀ key, AList.lookup key map = (replay ops).lookup key) →
      (mptRootHash host (run host ops)).1.bytes =
        patriciaRoot (hashBytes host.keccak256) (entriesOf map) := by
    intro ops map hmap
    rw [((hrun ops).1.rootHash hs (hrun ops).2).2]
    exact treeRootHash_eq hempty (hrun ops).1.canonical hmap
  refine ⟨hhash ops (replay ops) fun _ => rfl, ?_, ?_⟩
  · intro ops' hsame
    apply Hash.ext
    rw [hhash ops' (replay ops') fun _ => rfl, hhash ops (replay ops') hsame]
  · intro root hroot
    obtain ⟨hrep, hfit⟩ := hrun ops
    rcases hrep.root with ⟨-, hnone⟩ | ⟨hne, cached, hsome, hcached⟩
    · rw [hnone] at hroot
      cases hroot
    · rw [hsome] at hroot
      cases hroot
      exact fresh_toNode hs hrep.canonical hfit hne hcached

def sharedPath : List Op :=
  [.insert [0x12] [1], .rootHash, .insert [0x12, 0x34] [2], .insert [0x56] [3], .delete [0x56]]

theorem rootHash_eq_patriciaRoot_plainHost :
    (replay sharedPath).lookup [0x12] = some [1] ∧
    (mptRootHash plainHost (run plainHost sharedPath)).1.bytes =
      patriciaRoot (hashBytes plainHost.keccak256) (entriesOf (replay sharedPath)) ∧
    (mptRootHash plainHost
        (run plainHost [.insert [0x12, 0x34] [2], .insert [0x12] [1]])).1 =
      (mptRootHash plainHost (run plainHost sharedPath)).1 := by
  obtain ⟨hdocument, hsame, -⟩ :=
    rootHash_eq_patriciaRoot plainHost (fun _ _ => rfl) rfl sharedPath
  exact ⟨by decide, hdocument, hsame _ fun key => AList.perm_lookup (by decide)⟩

end Div0.TrieRoot
