import Div0.TrieDeletion
import Mathlib.Data.List.AList

/-!
A trie under any sequence of calls behaves as a finite map. One call takes the node
structure of a tree to the structure of the updated tree; so does a whole run, from
the empty trie on. The map is the association list obtained by replaying the same
calls, and the shape of every reachable trie is that of a canonical tree.
-/

namespace Div0.TrieMap

open BigEndian Buffer NibbleFormat Nibbles Node Mpt PatriciaTree TrieRefinement Uint256 TrieDeletion
open PatriciaTree.Tree

/-- The calls that change a trie or its hash cache. -/
inductive Op where
  | insert (key value : Bytes)
  | delete (key : Bytes)
  | rootHash

def step (host : Host) (mpt : Backend) : Op → Backend
  | .insert key value => mptInsert host mpt key value
  | .delete key => (mptDelete host mpt key).2
  | .rootHash => (mptRootHash host mpt).2

def run (host : Host) (ops : List Op) : Backend := ops.foldl (step host) Backend.init

abbrev ByteMap := AList fun _ : Bytes => Bytes

def replayStep (map : ByteMap) : Op → ByteMap
  | .insert key value => map.insert key value
  | .delete key => map.erase key
  | .rootHash => map

def replay (ops : List Op) : ByteMap := ops.foldl replayStep ∅

def treeStep (t : ByteTree) : Op → ByteTree
  | .insert key value => t.insert (toNibbles key) value
  | .delete key => t.erase (toNibbles key)
  | .rootHash => t

def treeRun (ops : List Op) : ByteTree := ops.foldl treeStep nil

/-- The arena grants what a call can ask for. -/
def OpFits (fits : ℕ → Prop) : Op → Prop
  | .insert key value => EntryFits fits (toNibbles key).length value
  | .delete key => fits (toNibbles key).length
  | .rootHash => True

theorem opFits_of_true (op : Op) : OpFits (fun _ => True) op := by
  cases op
  · exact ⟨trivial, trivial⟩
  · trivial
  · trivial

/-- The backend holds the node structure of a canonical tree, and a cached hash is the
hash of the root as it is now. -/
structure Represents (host : Host) (mpt : Backend) (t : ByteTree) : Prop where
  canonical : t.Canonical
  root : (t = nil ∧ mpt.root = none) ∨ (t ≠ nil ∧ ∃ cached,
    mpt.root = some ((toNode host.keccak256 t).withCache cached) ∧
    ∀ h, cached = some h → h = host.keccak256 (encodeNode (toNode host.keccak256 t)))

variable {host : Host} {fits : ℕ → Prop} {mpt : Backend} {t : ByteTree}

theorem Represents.init (host : Host) : Represents host Backend.init nil :=
  ⟨trivial, Or.inl ⟨rfl, rfl⟩⟩

theorem Represents.of_toNode (ht : t.Canonical) (hne : t ≠ nil) :
    Represents host ⟨some (toNode host.keccak256 t)⟩ t :=
  ⟨ht, Or.inr ⟨hne, none, by rw [withCache_toNode], by rintro h ⟨⟩⟩⟩

variable {key : Bytes}

section

variable (hs : Supply host.alloc fits)
include hs

theorem nibblesFromBytes_fits (h : fits (toNibbles key).length) :
    nibblesFromBytes host.alloc key = toNibbles key :=
  nibblesFromBytes_eq (hs.grantsUpTo h) (by rw [toNibbles_length]; omega)

omit hs in
/-- The root's cache plays no part in insertion. -/
theorem insertRecursive_withCache (host : Host) (cached : Option Hash) (node : MptNode)
    (key : Nibbles) (value : Bytes) :
    insertRecursive host (node.withCache cached) key value =
      insertRecursive host node key value := by
  cases node <;> simp only [MptNode.withCache, insertRecursive]

theorem Represents.insert (h : Represents host mpt t) (hfit : TreeFits fits t) {key value : Bytes}
    (hkey : EntryFits fits (toNibbles key).length value) :
    Represents host (mptInsert host mpt key value) (t.insert (toNibbles key) value) := by
  unfold mptInsert
  rw [nibblesFromBytes_fits hs hkey.1]
  rcases h.root with ⟨rfl, hroot⟩ | ⟨hne, cached, hroot, -⟩
  · simp only [hroot, newLeaf_eq hs hkey]
    exact Represents.of_toNode trivial (by simp)
  · simp only [hroot, insertRecursive_withCache, insertRecursive_toNode hs h.canonical hfit hkey]
    exact Represents.of_toNode (insert_canonical h.canonical _ _) (insert_ne_nil _ _ _)

/-- What `mpt_delete` does, seen from the tree. -/
theorem mptDelete_eq (h : Represents host mpt t) (hfit : TreeFits fits t)
    (hkey : fits (toNibbles key).length) :
    mptDelete host mpt key =
      match outcome host.keccak256 t (toNibbles key) with
      | .notFound => (false, mpt)
      | .updated newRoot => (true, ⟨some newRoot⟩)
      | .removed => (true, ⟨none⟩) := by
  unfold mptDelete
  rw [nibblesFromBytes_fits hs hkey]
  rcases h.root with ⟨rfl, hroot⟩ | ⟨hne, cached, hroot, -⟩
  · rw [hroot]
    rfl
  · have hdelete := deleteRecursive_toNode hs h.canonical hfit cached (toNibbles key)
    rw [hroot]
    cases t with
    | nil => exact absurd rfl hne
    | leaf path value => simp only [← hdelete]; rfl
    | extension path child => simp only [← hdelete]; rfl
    | branch children value => simp only [← hdelete]; rfl

theorem Represents.delete (h : Represents host mpt t) (hfit : TreeFits fits t)
    (hkey : fits (toNibbles key).length) :
    Represents host (mptDelete host mpt key).2 (t.erase (toNibbles key)) ∧
      (mptDelete host mpt key).1 = (t.lookup (toNibbles key)).isSome := by
  rw [mptDelete_eq hs h hfit hkey]
  cases hfound : t.lookup (toNibbles key) with
  | none =>
    rw [outcome_of_none hfound, erase_of_lookup_none h.canonical hfound]
    exact ⟨h, rfl⟩
  | some value =>
    by_cases hnil : t.erase (toNibbles key) = nil
    · rw [outcome_of_removed hfound hnil, hnil]
      exact ⟨⟨trivial, Or.inl ⟨rfl, rfl⟩⟩, rfl⟩
    · rw [outcome_of_updated hfound hnil]
      exact ⟨Represents.of_toNode (erase_canonical h.canonical _) hnil, rfl⟩

def treeRootHash (keccak256 : Bytes → Hash) (t : ByteTree) : Hash :=
  if t.isNil then mptEmptyRoot else keccak256 (encodeNode (toNode keccak256 t))

/-- The root hash is the hash of the current encoding, cached or not. -/
theorem Represents.rootHash (h : Represents host mpt t) (hfit : TreeFits fits t) :
    Represents host (mptRootHash host mpt).2 t ∧
      (mptRootHash host mpt).1 = treeRootHash host.keccak256 t := by
  unfold mptRootHash treeRootHash
  rcases h.root with ⟨rfl, hroot⟩ | ⟨hne, cached, hroot, hcached⟩
  · simp only [hroot]
    exact ⟨h, rfl⟩
  · have hhash := mptNodeHash_toNode hs h.canonical hne hfit hcached
    have hrep : Represents host
        ⟨some ((toNode host.keccak256 t).withCache
          (some (host.keccak256 (encodeNode (toNode host.keccak256 t)))))⟩ t :=
      ⟨h.canonical, Or.inr ⟨hne, _, rfl, by rintro h ⟨⟩; rfl⟩⟩
    rw [hroot, if_neg (fun hnil => hne (isNil_iff.mp hnil))]
    cases t with
    | nil => exact absurd rfl hne
    | leaf path value =>
      simp only [toNode, MptNode.withCache] at hhash hrep ⊢
      rw [hhash]
      exact ⟨hrep, rfl⟩
    | extension path child =>
      simp only [toNode, MptNode.withCache] at hhash hrep ⊢
      rw [hhash]
      exact ⟨hrep, rfl⟩
    | branch children value =>
      simp only [toNode, MptNode.withCache] at hhash hrep ⊢
      rw [hhash]
      exact ⟨hrep, rfl⟩

omit hs in
theorem TreeFits.step (h : TreeFits fits t) {op : Op} (hop : OpFits fits op) :
    TreeFits fits (treeStep t op) := by
  cases op with
  | insert key value => exact TreeFits.insert h hop
  | delete key => exact TreeFits.erase h _
  | rootHash => exact h

/-- One call keeps the representation. -/
theorem Represents.step (h : Represents host mpt t) (hfit : TreeFits fits t) {op : Op}
    (hop : OpFits fits op) : Represents host (step host mpt op) (treeStep t op) := by
  cases op with
  | insert key value => exact h.insert hs hfit hop
  | delete key => exact (h.delete hs hfit hop).1
  | rootHash => exact (h.rootHash hs hfit).1

/-- A run of calls that fit keeps the representation. -/
theorem represents_run {ops : List Op} (hops : ∀ op ∈ ops, OpFits fits op) :
    Represents host (run host ops) (treeRun ops) ∧ TreeFits fits (treeRun ops) := by
  have hgeneral : ∀ (ops : List Op) (mpt : Backend) (t : ByteTree),
      (∀ op ∈ ops, OpFits fits op) → Represents host mpt t → TreeFits fits t →
      Represents host (ops.foldl (step host) mpt) (ops.foldl treeStep t) ∧
        TreeFits fits (ops.foldl treeStep t) := by
    intro ops
    induction ops with
    | nil => exact fun mpt t _ h hfit => ⟨h, hfit⟩
    | cons op rest ih =>
      intro mpt t hops h hfit
      have hop := hops op List.mem_cons_self
      exact ih _ _ (fun o ho => hops o (List.mem_cons_of_mem _ ho)) (h.step hs hfit hop)
        (TreeFits.step hfit hop)
  exact hgeneral ops Backend.init nil hops (Represents.init host)
    (by intro key value hkey; cases hkey)

omit hs in
/-- The tree of a run holds the entries of the replayed map and no others. -/
theorem lookup_treeRun (ops : List Op) (key : Bytes) :
    (treeRun ops).lookup (toNibbles key) = (replay ops).lookup key := by
  have hgeneral : ∀ (ops : List Op) (t : ByteTree) (map : ByteMap),
      (∀ key, t.lookup (toNibbles key) = map.lookup key) →
      ∀ key, (ops.foldl treeStep t).lookup (toNibbles key) =
        (ops.foldl replayStep map).lookup key := by
    intro ops
    induction ops with
    | nil => exact fun t map h => h
    | cons op rest ih =>
      intro t map h
      refine ih _ _ ?_
      intro probe
      cases op with
      | insert key value =>
        simp only [treeStep, replayStep]
        rw [lookup_insert]
        by_cases hp : probe = key
        · rw [if_pos (by rw [hp]), hp, AList.lookup_insert]
        · rw [if_neg fun hn => hp (toNibbles_injective hn), AList.lookup_insert_ne hp, h]
      | delete key =>
        simp only [treeStep, replayStep]
        rw [lookup_erase]
        by_cases hp : probe = key
        · rw [if_pos (by rw [hp]), hp, AList.lookup_erase]
        · rw [if_neg fun hn => hp (toNibbles_injective hn), AList.lookup_erase_ne hp, h]
      | rootHash => exact h probe
  exact hgeneral ops nil ∅ (fun key => rfl) key

omit hs in
/-- Every key of the tree of a run spells a byte string. -/
theorem spelled_treeRun (ops : List Op) {nibbles : Nibbles} {value : Bytes}
    (h : (treeRun ops).lookup nibbles = some value) : ∃ key, nibbles = toNibbles key := by
  have hgeneral : ∀ (ops : List Op) (t : ByteTree),
      (∀ nibbles value, t.lookup nibbles = some value → ∃ key, nibbles = toNibbles key) →
      ∀ nibbles value, (ops.foldl treeStep t).lookup nibbles = some value →
        ∃ key, nibbles = toNibbles key := by
    intro ops
    induction ops with
    | nil => exact fun t h => h
    | cons op rest ih =>
      intro t h
      refine ih _ ?_
      intro probe v hprobe
      cases op with
      | insert key value =>
        simp only [treeStep] at hprobe
        rw [lookup_insert] at hprobe
        split at hprobe
        · next hp => exact ⟨key, hp⟩
        · exact h probe v hprobe
      | delete key =>
        simp only [treeStep] at hprobe
        rw [lookup_erase] at hprobe
        split at hprobe
        · cases hprobe
        · exact h probe v hprobe
      | rootHash => exact h probe v hprobe
  exact hgeneral ops nil (by intro nibbles value hn; cases hn) nibbles value h

theorem Represents.get (h : Represents host mpt t) (hkey : fits (toNibbles key).length) :
    mptGet host mpt key = t.lookup (toNibbles key) ∧
      mptContains host mpt key = (t.lookup (toNibbles key)).isSome := by
  have hcache : ∀ cached node nibbles,
      getNode (MptNode.withCache cached node) nibbles = getNode node nibbles ∧
      containsNode (MptNode.withCache cached node) nibbles = containsNode node nibbles := by
    intro cached node nibbles
    cases node <;> simp only [MptNode.withCache, getNode, containsNode, and_self]
  unfold mptGet mptContains
  rw [nibblesFromBytes_fits hs hkey]
  rcases h.root with ⟨rfl, hroot⟩ | ⟨hne, cached, hroot, -⟩
  · rw [hroot]
    exact ⟨rfl, rfl⟩
  · rw [hroot]
    simp only [hcache, searchNode_toNode, and_self]

end

def NodeRef.IsBranch : NodeRef → Prop
  | .resolved _ (.branch _ _ _) => True
  | _ => False

mutual
/-- Each extension has a path and a branch below it; each branch has two of its
sixteen children and its value present. -/
def WellShaped : MptNode → Prop
  | .empty _ => True
  | .leaf _ _ _ => True
  | .extension _ path child => path ≠ [] ∧ NodeRef.IsBranch child ∧ WellShapedRef child
  | .branch _ children value =>
    2 ≤ mptBranchChildCount children + (if value.isSome then 1 else 0) ∧
      ∀ i, WellShapedRef (children i)

def WellShapedRef : NodeRef → Prop
  | .unresolved _ => True
  | .resolved _ node => WellShaped node
end

/-- Two places taken, counted. -/
theorem two_le_of_fork {children : Nibble → ByteTree} {value : Option Bytes}
    (h : ∃ x y, x ≠ y ∧ Occupied children value x ∧ Occupied children value y) :
    2 ≤ (letters children).length + (if value.isSome then 1 else 0) := by
  have hcount : ∀ a, children a ≠ nil → 0 < (letters children).length :=
    fun a ha => List.length_pos_of_mem (mem_letters.mpr ha)
  have hsome : value ≠ none → (if value.isSome then 1 else 0) = 1 :=
    fun hv => if_pos (Option.isSome_iff_ne_none.mpr hv)
  obtain ⟨x, y, hxy, hx, hy⟩ := h
  cases x with
  | none =>
    cases y with
    | none => exact absurd rfl hxy
    | some b =>
      have := hcount b hy
      rw [hsome hx]
      omega
  | some a =>
    cases y with
    | none =>
      have := hcount a hx
      rw [hsome hy]
      omega
    | some b =>
      have ha := mem_letters.mpr hx
      have hb := mem_letters.mpr hy
      have hab : a ≠ b := fun h => hxy (congrArg some h)
      rcases hl : letters children with - | ⟨c, - | ⟨d, rest⟩⟩
      · rw [hl] at ha
        cases ha
      · rw [hl, List.mem_singleton] at ha hb
        exact absurd (ha.trans hb.symm) hab
      · simp only [List.length_cons]
        omega

theorem wellShaped_toNode {keccak256 : Bytes → Hash} (ht : t.Canonical) :
    WellShaped (toNode keccak256 t) := by
  have href : ∀ s : ByteTree, WellShaped (toNode keccak256 s) →
      WellShapedRef (toRef keccak256 s) := by
    intro s hshape
    by_cases hnil : s = nil
    · rw [hnil]
      trivial
    · obtain ⟨digest, hdigest⟩ := @toRef_resolved keccak256 s hnil
      rw [hdigest]
      exact hshape
  induction t with
  | nil => trivial
  | leaf path value => trivial
  | extension path child ih =>
    obtain ⟨hpath, hbranch, hchild⟩ := ht
    refine ⟨hpath, ?_, href child (ih hchild)⟩
    obtain ⟨digest, hdigest⟩ := @toRef_resolved keccak256 child (by rintro rfl; exact hbranch)
    rw [toRef] at hdigest
    rw [hdigest]
    cases child with
    | branch children value => trivial
    | nil => exact hbranch.elim
    | leaf p value => exact hbranch.elim
    | extension p c => exact hbranch.elim
  | branch children value ih =>
    obtain ⟨hfork, hchildren⟩ := ht
    refine ⟨?_, fun i => href (children i) (ih i (hchildren i))⟩
    have hcount := @mptBranchChildCount_toRef keccak256 children
    simp only [toRef] at hcount
    rw [hcount]
    exact two_le_of_fork hfork

theorem Represents.wellShaped (h : Represents host mpt t) {root : MptNode}
    (hroot : mpt.root = some root) : WellShaped root := by
  have hcache : ∀ cached node, WellShaped node → WellShaped (MptNode.withCache cached node) := by
    intro cached node hshape
    cases node <;> exact hshape
  rcases h.root with ⟨-, hnone⟩ | ⟨-, cached, hsome, -⟩
  · rw [hnone] at hroot
    cases hroot
  · rw [hsome] at hroot
    cases hroot
    exact hcache cached _ (wellShaped_toNode h.canonical)

/-- After every sequence of calls the trie answers as the replayed map does, and its
nodes are well shaped. -/
theorem run_agrees_with_map (host : Host) (halloc : Unlimited host.alloc) (ops : List Op) :
    (∀ key, mptGet host (run host ops) key = (replay ops).lookup key) ∧
    (∀ key, mptContains host (run host ops) key = ((replay ops).lookup key).isSome) ∧
    (∀ key, (mptDelete host (run host ops) key).1 = ((replay ops).lookup key).isSome) ∧
    (∀ root, (run host ops).root = some root → WellShaped root) := by
  have hs := halloc.supply
  obtain ⟨hrep, hfit⟩ := represents_run hs fun op (_ : op ∈ ops) => opFits_of_true op
  refine ⟨fun key => ?_, fun key => ?_, fun key => ?_, fun root => hrep.wellShaped⟩
  · rw [(hrep.get hs trivial).1, lookup_treeRun]
  · rw [(hrep.get hs trivial).2, lookup_treeRun]
  · rw [(hrep.delete hs hfit trivial).2, lookup_treeRun]

/-- The stand-in with the root of the empty trie where it has to be. -/
def markedHash (data : Bytes) : Hash := if data = [0x80] then mptEmptyRoot else padded data

def plainHost : Host := ⟨fun _ => true, markedHash, .ample⟩

theorem run_agrees_with_map_plainHost :
    Unlimited plainHost.alloc ∧
    mptGet plainHost (run plainHost [.insert [] [], .insert [0x12] [1], .insert [0x12, 0x34] [2],
      .delete []]) [0x12] = some [1] ∧
    (mptDelete plainHost (run plainHost [.insert [] [], .insert [0x12] [1],
      .insert [0x12, 0x34] [2], .delete []]) []).1 = false := by
  have halloc : Unlimited plainHost.alloc := fun _ _ => rfl
  have hagree := run_agrees_with_map plainHost halloc [.insert [] [], .insert [0x12] [1],
    .insert [0x12, 0x34] [2], .delete []]
  refine ⟨halloc, ?_, ?_⟩
  · rw [hagree.1]
    decide
  · rw [hagree.2.2.1]
    decide

end Div0.TrieMap
