import Div0.Containers
import Div0.RlpEncode
import Div0.Nibbles
import Mathlib.Algebra.Order.BigOperators.Group.List

/-!
Nodes of the Merkle Patricia trie. A node reference holds what the parent's
encoding contains, the node's encoding when it is shorter than 32 bytes and its
hash otherwise, next to the pointer to the node. A value is `none` when its data
pointer is null and `some []` when it points to the empty-value sentinel. The hash
cache of a node is `none` while `hash_valid` is false.
-/

namespace Div0.Node

open BigEndian Buffer Containers RlpFormat RlpEncode NibbleFormat Nibbles Uint256

/-- What the code asks of its surroundings: the arena, the hash function, and the hash tables,
whose library grows them in blocks of the arena. -/
structure Host where
  alloc : Alloc
  keccak256 : Bytes → Hash
  tables : Growth

/-- A host whose memory comes from the arena. -/
class OnArena (host : Host) : Prop where
  alloc_eq : host.alloc = arenaAlloc

theorem OnArena.supply {host : Host} (h : OnArena host) : Supply host.alloc (· ≤ 65536) :=
  h.alloc_eq ▸ arenaAlloc_supply

theorem OnArena.size_le {host : Host} (h : OnArena host) {size : ℕ} (hgranted : host.alloc size = true) :
    size ≤ 65536 := by
  rw [h.alloc_eq] at hgranted
  by_contra hlt
  rw [arenaAlloc_refuses (not_le.mp hlt)] at hgranted
  cases hgranted

/-- The hash tables take every entry. -/
class Roomy (host : Host) : Prop where
  takes : ∀ size n, host.tables size n = true

theorem hasRoom_of_roomy {α β : Type} [DecidableEq α] {host : Host} [hroomy : Roomy host]
    {size : ℕ} (map : AList fun _ : α => β) (key : α) : HasRoom (host.tables size) map key :=
  Or.inr (hroomy.takes _ _)

/-- The union of a node reference: the encoding itself or its hash. -/
inductive Digest where
  | embedded (bytes : Bytes)
  | hash (h : Hash)
  deriving DecidableEq

mutual
inductive MptNode where
  | empty (cached : Option Hash)
  | leaf (cached : Option Hash) (path : Nibbles) (value : Option Bytes)
  | extension (cached : Option Hash) (path : Nibbles) (child : NodeRef)
  | branch (cached : Option Hash) (children : Nibble → NodeRef) (value : Option Bytes)

/-- `node_ref_t`: `unresolved` has a null node pointer. -/
inductive NodeRef where
  | unresolved (digest : Digest)
  | resolved (digest : Digest) (node : MptNode)
end

def mptEmptyRoot : Hash where
  bytes := [0x56, 0xe8, 0x1f, 0x17, 0x1b, 0xcc, 0x55, 0xa6, 0xff, 0x83, 0x45, 0xe6, 0x92, 0xc0,
    0xf8, 0x6e, 0x5b, 0x48, 0xe0, 0x1b, 0x99, 0x6c, 0xad, 0xc0, 0x01, 0x62, 0x2f, 0xb5, 0xe3,
    0x63, 0xb4, 0x21]
  size_eq := rfl

/-- A stand-in for the hash function: the first 32 bytes, filled up with zeros. -/
def padded (bytes : Bytes) : Hash :=
  ⟨(bytes ++ List.replicate 32 0).take 32, by
    rw [List.length_take, List.length_append, List.length_replicate]; omega⟩

def NodeRef.null : NodeRef := .unresolved (.embedded [])

/-- `node_ref_is_null`: the pointer is looked at first. -/
def NodeRef.isNull : NodeRef → Bool
  | .resolved _ _ => false
  | .unresolved (.hash h) => h.isZero
  | .unresolved (.embedded bytes) => bytes.isEmpty

def NodeRef.digest : NodeRef → Digest
  | .unresolved digest => digest
  | .resolved digest _ => digest

def mptNodeLeaf (path : Nibbles) (value : Option Bytes) : MptNode := .leaf none path value

def mptNodeExtension (path : Nibbles) (child : NodeRef) : MptNode := .extension none path child

def mptNodeBranch : MptNode := .branch none (fun _ => .null) none

/-- The hash cache: `none` while `hash_valid` is false. -/
def MptNode.cachedHash : MptNode → Option Hash
  | .empty cached => cached
  | .leaf cached _ _ => cached
  | .extension cached _ _ => cached
  | .branch cached _ _ => cached

def MptNode.withCache (cached : Option Hash) : MptNode → MptNode
  | .empty _ => .empty cached
  | .leaf _ path value => .leaf cached path value
  | .extension _ path child => .extension cached path child
  | .branch _ children value => .branch cached children value

def encodeNodeRef (alloc : Alloc) (ref : NodeRef) : Buf :=
  if ref.isNull then rlpEncodeBytes alloc []
  else match ref.digest with
    | .hash h => rlpEncodeBytes alloc h.bytes
    | .embedded bytes => (Buf.fromData alloc bytes).getD Buf.init

/-- The list building shared by the cases of `mpt_node_encode`: reserve the nine
header bytes and the sizes of the encoded items, then build the list. -/
def encodeItems (alloc : Alloc) (items : List Bytes) : Buf :=
  let result := Buf.init.reserve! alloc (rlpMaxHeaderSize + (items.map List.length).sum)
  let (out, headerPos) := rlpListStart alloc result
  rlpListEnd (rlpListAppendAll alloc out items) headerPos

def mptNodeEncode (alloc : Alloc) : MptNode → Buf
  | .empty _ => (Buf.init.reserve! alloc 1).append! alloc [0x80]
  | .leaf _ path value =>
    let hpPath := hexPrefixEncode alloc path true
    let rlpPath := rlpEncodeBytes alloc hpPath.data
    let rlpValue := rlpEncodeBytes alloc (value.getD [])
    encodeItems alloc [rlpPath.data, rlpValue.data]
  | .extension _ path child =>
    let hpPath := hexPrefixEncode alloc path false
    let rlpPath := rlpEncodeBytes alloc hpPath.data
    let rlpChild := encodeNodeRef alloc child
    encodeItems alloc [rlpPath.data, rlpChild.data]
  | .branch _ children value =>
    let childEncodings := (List.finRange 16).map fun i => (encodeNodeRef alloc (children i)).data
    let rlpValue := rlpEncodeBytes alloc (value.getD [])
    encodeItems alloc (childEncodings ++ [rlpValue.data])

/-- `mpt_node_hash`: the hash and the node with its cache filled. -/
def mptNodeHash (host : Host) (node : MptNode) : Hash × MptNode :=
  match node.cachedHash with
  | some h => (h, node)
  | none =>
    match node with
    | .empty _ => (mptEmptyRoot, node.withCache (some mptEmptyRoot))
    | _ =>
      let h := host.keccak256 (mptNodeEncode host.alloc node).data
      (h, node.withCache (some h))

def mptNodeRef (host : Host) (node : MptNode) : NodeRef :=
  match node with
  | .empty _ => .null
  | _ =>
    let encoded := mptNodeEncode host.alloc node
    if encoded.size < 32 then .resolved (.embedded encoded.data) node
    else .resolved (.hash (host.keccak256 encoded.data)) node

def mptBranchChildCount (children : Nibble → NodeRef) : ℕ :=
  (List.finRange 16).countP fun i => !(children i).isNull

def refBytes (ref : NodeRef) : Bytes :=
  if ref.isNull then encodeString []
  else match ref.digest with
    | .hash h => encodeString h.bytes
    | .embedded bytes => bytes

def nodeItems : MptNode → List Bytes
  | .empty _ => []
  | .leaf _ path value => [encodeString (hexPrefix true path), encodeString (value.getD [])]
  | .extension _ path child => [encodeString (hexPrefix false path), refBytes child]
  | .branch _ children value =>
    (List.finRange 16).map (fun i => refBytes (children i)) ++ [encodeString (value.getD [])]

def encodeNode : MptNode → Bytes
  | .empty _ => encodeString []
  | node => encodeList (nodeItems node).flatten

def nodeRoom (node : MptNode) : ℕ := rlpMaxHeaderSize + (nodeItems node).flatten.length

theorem encodeNode_withCache (cached : Option Hash) (node : MptNode) :
    encodeNode (node.withCache cached) = encodeNode node := by
  cases node <;> rfl

theorem nodeRoom_withCache (cached : Option Hash) (node : MptNode) :
    nodeRoom (node.withCache cached) = nodeRoom node := by
  cases node <;> rfl

section Granted

variable {alloc : Alloc} {limit : ℕ}

theorem rlpEncodeBytes_data (h : GrantsUpTo alloc limit) {data : Bytes}
    (hfit : (encodeString data).length ≤ limit) :
    (rlpEncodeBytes alloc data).data = encodeString data := by
  have hpos : 0 < (encodeString data).length :=
    List.length_pos_of_ne_nil (encodeString_ne_nil data)
  rw [rlpEncodeBytes_eq (h _ hpos hfit)]

theorem encodeNodeRef_data (h : GrantsUpTo alloc limit) {ref : NodeRef}
    (hfit : (refBytes ref).length ≤ limit) : (encodeNodeRef alloc ref).data = refBytes ref := by
  unfold encodeNodeRef refBytes at *
  split at hfit
  · next hnull => rw [if_pos hnull, if_pos hnull, rlpEncodeBytes_data h hfit]
  · next hnull =>
    rw [if_neg hnull, if_neg hnull]
    cases hd : ref.digest with
    | hash digest =>
      rw [hd] at hfit
      exact rlpEncodeBytes_data h hfit
    | embedded bytes =>
      rw [hd] at hfit
      obtain ⟨b, hb, hdata⟩ := @Buf.fromData_isSome alloc bytes
        (fun hne => h _ (List.length_pos_of_ne_nil hne) hfit)
      simp only [hb, Option.getD_some, hdata]

theorem encodeItems_eq (h : GrantsUpTo alloc limit) {items : List Bytes}
    (hfit : rlpMaxHeaderSize + items.flatten.length ≤ limit) :
    encodeItems alloc items =
      inRoom (rlpMaxHeaderSize + items.flatten.length) (encodeList items.flatten) := by
  have hroom : rlpMaxHeaderSize + (items.map List.length).sum =
      rlpMaxHeaderSize + items.flatten.length := by rw [List.length_flatten]
  have hpos : 0 < rlpMaxHeaderSize := by decide
  unfold encodeItems
  rw [hroom, reserve_inRoom (by omega) (h _ (by omega) hfit)]
  exact buildList_eq le_rfl

/-- The path's own buffer is smaller than the list it goes into. -/
private theorem hexPrefix_room (isLeaf : Bool) (path : Nibbles) {rest : Bytes}
    (hfit : rlpMaxHeaderSize + (encodeString (hexPrefix isLeaf path) ++ rest).length ≤ limit) :
    1 + (path.length + 1) / 2 ≤ limit := by
  have hlen := length_le_encodeString (hexPrefix isLeaf path)
  have hheader : rlpMaxHeaderSize = 9 := rfl
  rw [hexPrefix_length] at hlen
  rw [List.length_append] at hfit
  omega

/-- With every allocation granted, `mpt_node_encode` produces `encodeNode`. -/
theorem mptNodeEncode_data (h : GrantsUpTo alloc limit) (node : MptNode)
    (hfit : nodeRoom node ≤ limit) : (mptNodeEncode alloc node).data = encodeNode node := by
  have hheader : rlpMaxHeaderSize = 9 := rfl
  unfold nodeRoom at hfit
  cases node with
  | empty cached =>
    simp only [nodeItems, List.flatten_nil, List.length_nil] at hfit
    have hone : alloc 1 = true := h 1 (by omega) (by omega)
    simp only [mptNodeEncode, encodeNode]
    rw [reserve_inRoom (by omega) hone, append_inRoom (by simp)]
    rfl
  | leaf cached path value =>
    simp only [nodeItems, List.flatten_cons, List.flatten_nil, List.append_nil] at hfit
    have hroom := hexPrefix_room true path hfit
    have hparts := hfit
    rw [List.length_append] at hparts
    simp only [mptNodeEncode, encodeNode, nodeItems]
    rw [hexPrefixEncode_data true (h _ (by omega) hroom), rlpEncodeBytes_data h (by omega),
      rlpEncodeBytes_data h (by omega), encodeItems_eq h (by simpa using hfit)]
  | extension cached path child =>
    simp only [nodeItems, List.flatten_cons, List.flatten_nil, List.append_nil] at hfit
    have hroom := hexPrefix_room false path hfit
    have hparts := hfit
    rw [List.length_append] at hparts
    simp only [mptNodeEncode, encodeNode, nodeItems]
    rw [hexPrefixEncode_data false (h _ (by omega) hroom), rlpEncodeBytes_data h (by omega),
      encodeNodeRef_data h (by omega), encodeItems_eq h (by simpa using hfit)]
  | branch cached children value =>
    simp only [nodeItems] at hfit
    have hvalue : (encodeString (value.getD [])).length ≤ limit := by
      rw [List.flatten_append, List.length_append] at hfit
      simp only [List.flatten_cons, List.flatten_nil, List.append_nil] at hfit
      omega
    have hchild : ∀ i : Nibble, (refBytes (children i)).length ≤ limit := by
      intro i
      have hmem : refBytes (children i) ∈
          (List.finRange 16).map (fun i => refBytes (children i)) :=
        List.mem_map.mpr ⟨i, List.mem_finRange i, rfl⟩
      have hle := (List.sublist_flatten_of_mem hmem).length_le
      rw [List.flatten_append, List.length_append] at hfit
      omega
    simp only [mptNodeEncode, encodeNode, nodeItems, encodeNodeRef_data h (hchild _),
      rlpEncodeBytes_data h hvalue]
    rw [encodeItems_eq h hfit]

end Granted

def refOf (keccak256 : Bytes → Hash) (node : MptNode) : NodeRef :=
  match node with
  | .empty _ => .null
  | _ =>
    if (encodeNode node).length < 32 then .resolved (.embedded (encodeNode node)) node
    else .resolved (.hash (keccak256 (encodeNode node))) node

theorem mptNodeRef_eq {host : Host} {limit : ℕ} (h : GrantsUpTo host.alloc limit)
    (node : MptNode) (hfit : nodeRoom node ≤ limit) :
    mptNodeRef host node = refOf host.keccak256 node := by
  have hdata := mptNodeEncode_data h node hfit
  cases node with
  | empty cached => rfl
  | leaf cached path value =>
    simp only [mptNodeRef, refOf, Buf.size, hdata]
  | extension cached path child =>
    simp only [mptNodeRef, refOf, Buf.size, hdata]
  | branch cached children value =>
    simp only [mptNodeRef, refOf, Buf.size, hdata]

/-- A reference is null, embeds the encoding or holds its hash. -/
theorem refOf_cases (keccak256 : Bytes → Hash) (node : MptNode) :
    (∃ cached, node = .empty cached ∧ refOf keccak256 node = .null) ∨
    ((encodeNode node).length < 32 ∧
      refOf keccak256 node = .resolved (.embedded (encodeNode node)) node) ∨
    (32 ≤ (encodeNode node).length ∧
      refOf keccak256 node = .resolved (.hash (keccak256 (encodeNode node))) node) := by
  by_cases hlen : (encodeNode node).length < 32
  · cases node with
    | empty cached => exact Or.inl ⟨cached, rfl, rfl⟩
    | leaf cached path value => exact Or.inr (Or.inl ⟨hlen, if_pos hlen⟩)
    | extension cached path child => exact Or.inr (Or.inl ⟨hlen, if_pos hlen⟩)
    | branch cached children value => exact Or.inr (Or.inl ⟨hlen, if_pos hlen⟩)
  · cases node with
    | empty cached => exact Or.inl ⟨cached, rfl, rfl⟩
    | leaf cached path value => exact Or.inr (Or.inr ⟨by omega, if_neg hlen⟩)
    | extension cached path child => exact Or.inr (Or.inr ⟨by omega, if_neg hlen⟩)
    | branch cached children value => exact Or.inr (Or.inr ⟨by omega, if_neg hlen⟩)

theorem encodeString_hash_length (h : Hash) : (encodeString h.bytes).length = 33 := by
  have hnot : ¬IsSingle h.bytes := by
    rintro ⟨b, hb, -⟩
    have hsize := h.size_eq
    rw [hb] at hsize
    cases hsize
  rw [encodeString, if_neg hnot, List.length_append, header_length, h.size_eq]
  rfl

/-- A reference takes at most 33 bytes in its parent's encoding. -/
theorem refBytes_refOf_length (keccak256 : Bytes → Hash) (node : MptNode) :
    (refBytes (refOf keccak256 node)).length ≤ 33 := by
  rcases refOf_cases keccak256 node with ⟨cached, -, h⟩ | ⟨hlt, h⟩ | ⟨-, h⟩
  · rw [h]
    decide
  · rw [h]
    exact le_trans (Nat.le_of_lt hlt) (by omega)
  · rw [h]
    exact (encodeString_hash_length _).le

/-- The sixteen references of a branch and its value, when no reference exceeds 33 bytes. -/
theorem nodeRoom_branch_le (cached : Option Hash) {children : Nibble → NodeRef}
    (value : Option Bytes) (h : ∀ i, (refBytes (children i)).length ≤ 33) :
    nodeRoom (.branch cached children value) ≤
      rlpMaxHeaderSize + 16 * 33 + framedBound (value.getD []).length := by
  have hrefs : ((List.finRange 16).map fun i => refBytes (children i)).flatten.length ≤
      16 * 33 := by
    rw [List.length_flatten]
    refine (List.sum_le_card_nsmul _ 33 ?_).trans (by simp)
    intro n hn
    simp only [List.map_map, List.mem_map] at hn
    obtain ⟨i, -, rfl⟩ := hn
    exact h i
  have hvalue := encodeString_length_le (value.getD [])
  simp only [nodeRoom, nodeItems, List.flatten_append, List.flatten_cons, List.flatten_nil,
    List.append_nil, List.length_append]
  omega

end Div0.Node
