import Div0.Node

/-!
Insertion, deletion and lookup of the Merkle Patricia trie over the in-memory
backend. The C functions walk a key with an offset; here the key that is left is
passed on. A tree has no shared nodes, so a node changed in place is a new node at
the same place, with an empty hash cache (`mpt_node_invalidate_hash`). A node
allocation asks for a constant size below one block and is taken to succeed; the
allocations of paths, values and encodings are not.
-/

namespace Div0.Mpt

open BigEndian Buffer NibbleFormat Nibbles Node Uint256

def findDivergence : Nibbles → Nibbles → ℕ
  | p :: path, k :: key => if p = k then findDivergence path key + 1 else 0
  | _, _ => 0

/-- `copy_value`: an empty value is the sentinel, a refused allocation leaves null. -/
def copyValue (alloc : Alloc) (value : Bytes) : Option Bytes :=
  if 0 < value.length then (Buf.fromData alloc value).map Buf.data else some []

def newLeaf (alloc : Alloc) (key : Nibbles) (start : ℕ) (value : Bytes) : MptNode :=
  mptNodeLeaf (nibblesSlice alloc key start none) (copyValue alloc value)

def noChildren : Nibble → NodeRef := fun _ => .null

def splitLeaf (host : Host) (path : Nibbles) (oldValue : Option Bytes) (key : Nibbles)
    (value : Bytes) (matchLen : ℕ) : MptNode :=
  let (children, branchValue) := match path.drop matchLen with
    | oldNibble :: _ =>
      let oldLeaf := mptNodeLeaf (nibblesSlice host.alloc path (matchLen + 1) none) oldValue
      (Function.update noChildren oldNibble (mptNodeRef host oldLeaf), none)
    -- the existing leaf ends at the branch
    | [] => (noChildren, oldValue)
  match key.drop matchLen with
  | nibble :: _ =>
    let leaf := newLeaf host.alloc key (matchLen + 1) value
    .branch none (Function.update children nibble (mptNodeRef host leaf)) branchValue
  | [] => .branch none children (copyValue host.alloc value)

def insertLeaf (host : Host) (path : Nibbles) (oldValue : Option Bytes) (key : Nibbles)
    (value : Bytes) : MptNode :=
  match key with
  | [] =>
    if path.length = 0 then .leaf none path (copyValue host.alloc value)
    else splitLeaf host path oldValue [] value 0
  | _ :: _ =>
    let matchLen := findDivergence path key
    if matchLen = path.length ∧ matchLen = key.length then
      .leaf none path (copyValue host.alloc value)
    else
      let branch := splitLeaf host path oldValue key value matchLen
      if 0 < matchLen then
        mptNodeExtension (nibblesSlice host.alloc path 0 (some matchLen)) (mptNodeRef host branch)
      else branch

def splitExtension (host : Host) (path : Nibbles) (child : NodeRef) (key : Nibbles)
    (value : Bytes) (matchLen : ℕ) : MptNode :=
  let children := match path.drop matchLen with
    | extNibble :: _ =>
      let below :=
        if matchLen + 1 < path.length then
          mptNodeRef host
            (mptNodeExtension (nibblesSlice host.alloc path (matchLen + 1) none) child)
        -- the extension leads directly to its child
        else child
      Function.update noChildren extNibble below
    | [] => noChildren
  match key.drop matchLen with
  | nibble :: _ =>
    let leaf := newLeaf host.alloc key (matchLen + 1) value
    .branch none (Function.update children nibble (mptNodeRef host leaf)) none
  | [] => .branch none children (copyValue host.alloc value)

mutual
def insertRecursive (host : Host) (node : MptNode) (key : Nibbles) (value : Bytes) : MptNode :=
  match node with
  | .empty _ => newLeaf host.alloc key 0 value
  | .leaf _ path oldValue => insertLeaf host path oldValue key value
  | .extension _ path child =>
    match key with
    | [] => splitExtension host path child [] value 0
    | _ :: _ =>
      let matchLen := findDivergence path key
      if matchLen = path.length then
        match insertChild host child (key.drop matchLen) value with
        | some newChild => .extension none path (mptNodeRef host newChild)
        | none => .extension none path child
      else
        let branch := splitExtension host path child key value matchLen
        if 0 < matchLen then
          mptNodeExtension (nibblesSlice host.alloc path 0 (some matchLen))
            (mptNodeRef host branch)
        else branch
  | .branch _ children oldValue =>
    match key with
    | [] => .branch none children (copyValue host.alloc value)
    | nibble :: rest =>
      if (children nibble).isNull then
        let leaf := newLeaf host.alloc key 1 value
        .branch none (Function.update children nibble (mptNodeRef host leaf)) oldValue
      else match insertChild host (children nibble) rest value with
        | some newChild =>
          .branch none (Function.update children nibble (mptNodeRef host newChild)) oldValue
        | none => .branch none children oldValue

def insertChild (host : Host) (ref : NodeRef) (key : Nibbles) (value : Bytes) : Option MptNode :=
  match ref with
  | .unresolved _ => none
  | .resolved _ node => some (insertRecursive host node key value)
end

/-- The loop of `find_single_child`; `none` is the result `-1`. -/
def findSingleChildFrom (children : Nibble → NodeRef) :
    List Nibble → Option Nibble → Option Nibble
  | [], found => found
  | i :: rest, found =>
    if (children i).isNull then findSingleChildFrom children rest found
    else match found with
      | some _ => none
      | none => findSingleChildFrom children rest (some i)

def findSingleChild (children : Nibble → NodeRef) : Option Nibble :=
  findSingleChildFrom children (List.finRange 16) none

def collapseBranch (host : Host) (cached : Option Hash) (children : Nibble → NodeRef)
    (value : Option Bytes) : MptNode :=
  match findSingleChild children with
  | none =>
    if mptBranchChildCount children = 0 ∧ value.isSome then mptNodeLeaf [] value
    else .branch none children value
  | some nibble =>
    if value.isSome then .branch none children value
    else match children nibble with
      | .unresolved _ => .branch none children value
      | .resolved _ child =>
        match child with
        | .leaf _ path leafValue =>
          mptNodeLeaf (nibblesConcat3 host.alloc [] nibble path) leafValue
        | .extension _ path below =>
          mptNodeExtension (nibblesConcat3 host.alloc [] nibble path) below
        | _ =>
          if host.alloc 1 then mptNodeExtension [nibble] (mptNodeRef host child)
          else .branch cached children value

/-- `delete_result_t` together with the node written to `out_node`. -/
inductive DeleteResult where
  | notFound
  | updated (node : MptNode)
  | removed

mutual
def deleteRecursive (host : Host) (node : MptNode) (key : Nibbles) : DeleteResult :=
  match node with
  | .empty _ => .notFound
  | .leaf _ path _ => if key = path then .removed else .notFound
  | .extension _ path child =>
    let matchLen := findDivergence path key
    if matchLen ≠ path.length then .notFound
    else match deleteChild host child (key.drop matchLen) with
      | .notFound => .notFound
      | .removed => .removed
      | .updated newChild =>
        match newChild with
        | .leaf _ childPath value =>
          .updated (mptNodeLeaf (nibblesConcat host.alloc path childPath) value)
        | .extension _ childPath below =>
          .updated (mptNodeExtension (nibblesConcat host.alloc path childPath) below)
        | _ => .updated (.extension none path (mptNodeRef host newChild))
  | .branch cached children value =>
    match key with
    | [] =>
      if value.isNone then .notFound
      else .updated (collapseBranch host cached children none)
    | nibble :: rest =>
      if (children nibble).isNull then .notFound
      else match deleteChild host (children nibble) rest with
        | .notFound => .notFound
        | .removed =>
          .updated (collapseBranch host cached (Function.update children nibble .null) value)
        | .updated newChild =>
          .updated (collapseBranch host cached
            (Function.update children nibble (mptNodeRef host newChild)) value)

def deleteChild (host : Host) (ref : NodeRef) (key : Nibbles) : DeleteResult :=
  match ref with
  | .unresolved _ => .notFound
  | .resolved _ node => deleteRecursive host node key
end

mutual
def getNode (node : MptNode) (key : Nibbles) : Option Bytes :=
  match node with
  | .empty _ => none
  | .leaf _ path value => if key = path then value else none
  | .extension _ path child =>
    let matchLen := findDivergence path key
    if matchLen ≠ path.length then none else getRef child (key.drop matchLen)
  | .branch _ children value =>
    match key with
    | [] => value
    | nibble :: rest =>
      if (children nibble).isNull then none else getRef (children nibble) rest

def getRef (ref : NodeRef) (key : Nibbles) : Option Bytes :=
  match ref with
  | .unresolved _ => none
  | .resolved _ node => getNode node key
end

mutual
def containsNode (node : MptNode) (key : Nibbles) : Bool :=
  match node with
  | .empty _ => false
  | .leaf _ path _ => decide (key = path)
  | .extension _ path child =>
    let matchLen := findDivergence path key
    if matchLen ≠ path.length then false else containsRef child (key.drop matchLen)
  | .branch _ children value =>
    match key with
    | [] => value.isSome
    | nibble :: rest =>
      if (children nibble).isNull then false else containsRef (children nibble) rest

def containsRef (ref : NodeRef) (key : Nibbles) : Bool :=
  match ref with
  | .unresolved _ => false
  | .resolved _ node => containsNode node key
end

/-- The trie with its in-memory backend: the root pointer. -/
structure Backend where
  root : Option MptNode

def Backend.init : Backend := ⟨none⟩

/-- `mpt_insert`; it reports success, as no node allocation is refused. -/
def mptInsert (host : Host) (mpt : Backend) (key value : Bytes) : Backend :=
  let nibbles := nibblesFromBytes host.alloc key
  match mpt.root with
  | none => ⟨some (newLeaf host.alloc nibbles 0 value)⟩
  | some root => ⟨some (insertRecursive host root nibbles value)⟩

def mptGet (host : Host) (mpt : Backend) (key : Bytes) : Option Bytes :=
  let nibbles := nibblesFromBytes host.alloc key
  match mpt.root with
  | none => none
  | some root => getNode root nibbles

def mptContains (host : Host) (mpt : Backend) (key : Bytes) : Bool :=
  let nibbles := nibblesFromBytes host.alloc key
  match mpt.root with
  | none => false
  | some root => containsNode root nibbles

/-- `mpt_delete`: whether the key was found, and the trie afterwards. -/
def mptDelete (host : Host) (mpt : Backend) (key : Bytes) : Bool × Backend :=
  match mpt.root with
  | none => (false, mpt)
  | some (.empty _) => (false, mpt)
  | some root =>
    match deleteRecursive host root (nibblesFromBytes host.alloc key) with
    | .notFound => (false, mpt)
    | .updated newRoot => (true, ⟨some newRoot⟩)
    | .removed => (true, ⟨none⟩)

/-- `mpt_root_hash`: the hash, and the trie with the root's cache filled. -/
def mptRootHash (host : Host) (mpt : Backend) : Hash × Backend :=
  match mpt.root with
  | none => (mptEmptyRoot, mpt)
  | some (.empty _) => (mptEmptyRoot, mpt)
  | some root =>
    let (h, root') := mptNodeHash host root
    (h, ⟨some root'⟩)

end Div0.Mpt
