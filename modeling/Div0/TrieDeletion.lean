import Div0.TrieRefinement

/-!
Lookup and deletion on the node structure of a tree. `collapse_branch` looks for a
single child with a loop over the sixteen references; on the structure of a tree
that loop finds the one letter with a subtree, so the result is the structure of the
collapsed tree.
-/

namespace Div0.TrieDeletion

open BigEndian Buffer NibbleFormat Nibbles Node Mpt PatriciaTree TrieRefinement Uint256
open PatriciaTree.Tree

variable {keccak256 : Bytes → Hash} {fits : ℕ → Prop}

/-- On the node structure `mpt_get` is lookup in the tree, and `mpt_contains` finds its
keys. -/
theorem searchNode_toNode (t : ByteTree) (key : Nibbles) :
    getNode (toNode keccak256 t) key = t.lookup key ∧
      containsNode (toNode keccak256 t) key = (t.lookup key).isSome := by
  have href : ∀ (t : ByteTree) (key : Nibbles),
      getNode (toNode keccak256 t) key = t.lookup key ∧
        containsNode (toNode keccak256 t) key = (t.lookup key).isSome →
      getRef (toRef keccak256 t) key = t.lookup key ∧
        containsRef (toRef keccak256 t) key = (t.lookup key).isSome := by
    intro t key h
    by_cases hnil : t = nil
    · rw [hnil]
      exact ⟨rfl, rfl⟩
    · obtain ⟨digest, hdigest⟩ := @toRef_resolved keccak256 t hnil
      rwa [hdigest, getRef, containsRef]
  induction t generalizing key with
  | nil => exact ⟨rfl, rfl⟩
  | leaf path value =>
    simp only [toNode, getNode, containsNode, lookup_leaf, true_and]
    split <;> simp_all
  | extension path child ih =>
    simp only [toNode, getNode, containsNode, findDivergence_eq, lookup, stripPath]
    by_cases hfull : divergence path key = path.length
    · rw [if_neg (not_not.mpr hfull), if_neg (not_not.mpr hfull), if_pos hfull, Option.bind_some]
      exact href child _ (ih _)
    · rw [if_pos hfull, if_pos hfull, if_neg hfull]
      exact ⟨rfl, rfl⟩
  | branch children value ih =>
    cases key with
    | nil => simp only [toNode, getNode, containsNode, lookup_branch_nil, and_self]
    | cons a rest =>
      simp only [toNode, getNode, containsNode, lookup_branch_cons]
      by_cases hnull : (refOf keccak256 (toNode keccak256 (children a))).isNull = true
      · have hnil : children a = nil := isNil_iff.mp ((toRef_isNull (children a)).symm.trans hnull)
        rw [if_pos hnull, if_pos hnull, hnil, lookup_nil]
        exact ⟨rfl, rfl⟩
      · rw [if_neg hnull, if_neg hnull]
        exact href (children a) rest (ih a rest)

/-- Once a child is remembered, a second one makes the scan give up. -/
theorem findSingleChildFrom_some (children : Nibble → NodeRef) (indices : List Nibble)
    (b : Nibble) :
    findSingleChildFrom children indices (some b) =
      if (indices.filter fun i => !(children i).isNull) = [] then some b else none := by
  induction indices with
  | nil => rfl
  | cons a rest ih =>
    unfold findSingleChildFrom
    by_cases hnull : (children a).isNull = true
    · rw [if_pos hnull, ih, List.filter_cons_of_neg (by simp [hnull])]
    · rw [if_neg hnull, List.filter_cons_of_pos (by simp [hnull]), if_neg (by simp)]

theorem findSingleChildFrom_none (children : Nibble → NodeRef) (indices : List Nibble) :
    findSingleChildFrom children indices none =
      match indices.filter fun i => !(children i).isNull with
      | [a] => some a
      | _ => none := by
  induction indices with
  | nil => rfl
  | cons a rest ih =>
    unfold findSingleChildFrom
    by_cases hnull : (children a).isNull = true
    · rw [if_pos hnull, ih, List.filter_cons_of_neg (by simp [hnull])]
    · rw [if_neg hnull, List.filter_cons_of_pos (by simp [hnull])]
      simp only [findSingleChildFrom_some]
      cases rest.filter fun i => !(children i).isNull <;> rfl

theorem filter_toRef (children : Nibble → ByteTree) :
    (List.finRange 16).filter (fun i => !(toRef keccak256 (children i)).isNull) =
      letters children := by
  unfold letters
  congr 1
  funext i
  rw [toRef_isNull]

theorem findSingleChild_toRef (children : Nibble → ByteTree) :
    findSingleChild (fun i => toRef keccak256 (children i)) =
      match letters children with
      | [a] => some a
      | _ => none := by
  unfold findSingleChild
  rw [findSingleChildFrom_none, filter_toRef]
  rfl

theorem mptBranchChildCount_toRef (children : Nibble → ByteTree) :
    mptBranchChildCount (fun i => toRef keccak256 (children i)) = (letters children).length := by
  rw [mptBranchChildCount, List.countP_eq_length_filter, filter_toRef]

section Operations

variable {host : Host}

variable {t : ByteTree}

variable {path : Nibbles}

theorem TreeFits.merge (h : TreeFits fits (extension path t)) : TreeFits fits (merge path t) := by
  intro key value hkey
  rw [lookup_merge] at hkey
  exact h key value hkey

/-- The structure of a merged tree: the two paths are copied into one. -/
theorem mergeNode_eq (hs : Supply host.alloc fits) (hpath : path ≠ []) (ht : t.Canonical)
    (hne : t ≠ nil) (hfit : TreeFits fits (extension path t)) (joined : Nibbles → Nibbles)
    (hjoin : ∀ p, fits (path ++ p).length → joined p = path ++ p) (otherwise : MptNode)
    (hother : t.IsBranch → otherwise = toNode host.keccak256 (merge path t)) :
    (match toNode host.keccak256 t with
      | .leaf _ p value => mptNodeLeaf (joined p) value
      | .extension _ p below => mptNodeExtension (joined p) below
      | _ => otherwise) = toNode host.keccak256 (merge path t) := by
  have hmerge := TreeFits.merge hfit
  cases t with
  | nil => exact absurd rfl hne
  | leaf p value =>
    simp only [toNode, Tree.merge, hjoin p hmerge.leaf_entry.1, mptNodeLeaf]
  | extension p child =>
    have hcanonical : (extension (path ++ p) child).Canonical := ⟨by simp [hpath], ht.2⟩
    obtain ⟨v, hroom⟩ := TreeFits.path hs hcanonical hmerge
    simp only [toNode, Tree.merge, hjoin p hroom.1, mptNodeExtension]
  | branch children value => exact hother trivial

/-- `collapse_branch` on the structure of a branch with some place taken. -/
theorem collapseBranch_toNode (hs : Supply host.alloc fits) (cached : Option Hash)
    {children : Nibble → ByteTree} {value : Option Bytes}
    (hchildren : ∀ a, (children a).Canonical) (hfit : TreeFits fits (branch children value))
    (hne : collapse children value ≠ nil) :
    collapseBranch host cached (fun i => toRef host.keccak256 (children i)) value =
      toNode host.keccak256 (collapse children value) := by
  unfold collapseBranch
  rw [findSingleChild_toRef, mptBranchChildCount_toRef]
  rcases collapse_cases children value with ⟨-, -, hc⟩ | ⟨v, hl, rfl, hc⟩ | ⟨a, hl, rfl, hc⟩ |
    ⟨⟨x, y, hxy, hx, hy⟩, hc⟩
  · exact absurd hc hne
  · rw [hl, hc]
    rfl
  · have ha := (letters_eq_singleton hl).1
    obtain ⟨digest, hdigest⟩ := @toRef_resolved host.keccak256 (children a) ha
    have hext : TreeFits fits (extension [a] (children a)) := by
      intro key v hkey
      obtain ⟨rest, rfl, hrest⟩ := exists_of_lookup_extension hkey
      exact hfit (a :: rest) v hrest
    rw [hl, hc]
    simp only [Option.isSome_none, Bool.false_eq_true, if_false, hdigest]
    refine mergeNode_eq hs (by simp) (hchildren a) ha hext (nibblesConcat3 host.alloc [] a)
      ?_ _ ?_
    · intro p hp
      exact nibblesConcat3_nil (hs.grantsUpTo hp) a (by simp)
    · intro hbranch
      have hone : host.alloc 1 = true := by
        obtain ⟨key, v, hkey⟩ := exists_lookup (hchildren a) ha
        refine hs.grants 1 (by omega) (hs.mono ?_ (hext ([a] ++ key) v
          (by rw [lookup_extension, hkey])).1)
        simp
      have href := mptNodeRef_toNode hs (hchildren a) (hfit.letter hs a)
      cases hchild : children a with
      | branch below v =>
        rw [hchild] at href
        rw [if_pos hone, href]
        rfl
      | nil => exact absurd hchild ha
      | leaf p v => rw [hchild] at hbranch; exact hbranch.elim
      | extension p c => rw [hchild] at hbranch; exact hbranch.elim
  · rw [hc]
    -- two places are taken, so the loop finds no single child or the value is the second one
    cases hl : letters children with
    | nil => exact absurd ((hx.of_letters_nil hl).trans (hy.of_letters_nil hl).symm) hxy
    | cons a rest =>
      cases rest with
      | cons b rest => rfl
      | nil =>
        cases value with
        | some v => rfl
        | none =>
          exact absurd ((hx.of_letters_singleton hl).trans (hy.of_letters_singleton hl).symm) hxy

/-- What deleting a key from a tree reports: not found, nothing left, or the rest. -/
def outcome (keccak256 : Bytes → Hash) (t : ByteTree) (key : Nibbles) : DeleteResult :=
  if (t.lookup key).isNone then .notFound
  else if (t.erase key).isNil then .removed
  else .updated (toNode keccak256 (t.erase key))

variable {key : Nibbles}

theorem outcome_of_none (h : t.lookup key = none) : outcome keccak256 t key = .notFound := by
  rw [outcome, h]
  rfl

theorem outcome_of_removed {value : Bytes} (h : t.lookup key = some value)
    (hnil : t.erase key = nil) : outcome keccak256 t key = .removed := by
  rw [outcome, h, hnil]
  rfl

theorem outcome_of_updated {value : Bytes} (h : t.lookup key = some value)
    (hne : t.erase key ≠ nil) :
    outcome keccak256 t key = .updated (toNode keccak256 (t.erase key)) := by
  rw [outcome, h, if_neg (by simp), if_neg (fun hnil => hne (isNil_iff.mp hnil))]

theorem withCache_toNode (t : ByteTree) :
    (toNode keccak256 t).withCache none = toNode keccak256 t := by
  cases t <;> rfl

/-- The three ways an extension continues after its child changed. -/
theorem deleteMerge_eq (hs : Supply host.alloc fits) (hpath : path ≠ []) (ht : t.Canonical)
    (hne : t ≠ nil) (hfit : TreeFits fits (extension path t)) :
    (match toNode host.keccak256 t with
      | .leaf _ childPath value =>
        DeleteResult.updated (mptNodeLeaf (nibblesConcat host.alloc path childPath) value)
      | .extension _ childPath below =>
        .updated (mptNodeExtension (nibblesConcat host.alloc path childPath) below)
      | _ => .updated (.extension none path (mptNodeRef host (toNode host.keccak256 t)))) =
      .updated (toNode host.keccak256 (merge path t)) := by
  have hmerge := mergeNode_eq hs hpath ht hne hfit (nibblesConcat host.alloc path)
    (fun p hp => nibblesConcat_eq (hs.grantsUpTo hp) (by rw [List.length_append]))
    (.extension none path (mptNodeRef host (toNode host.keccak256 t))) (by
      intro hbranch
      rw [mptNodeRef_toNode hs ht (hfit.child hs)]
      cases t with
      | branch children value => rfl
      | nil => exact hbranch.elim
      | leaf p value => exact hbranch.elim
      | extension p child => exact hbranch.elim)
  rw [← hmerge]
  cases toNode host.keccak256 t <;> rfl

/-- Deletion on the node structure is deletion on the tree; the root's cache plays no part. -/
theorem deleteRecursive_toNode (hs : Supply host.alloc fits) (ht : t.Canonical)
    (hfit : TreeFits fits t) (cached : Option Hash) (key : Nibbles) :
    deleteRecursive host ((toNode host.keccak256 t).withCache cached) key =
      outcome host.keccak256 t key := by
  induction t generalizing cached key with
  | nil => rfl
  | leaf path value =>
    simp only [toNode, MptNode.withCache, deleteRecursive]
    by_cases hkey : key = path
    · rw [if_pos hkey, outcome_of_removed (by rw [lookup_leaf, if_pos hkey])
        (by rw [erase, if_pos hkey])]
    · rw [if_neg hkey, outcome_of_none (by rw [lookup_leaf, if_neg hkey])]
  | extension path child ih =>
    obtain ⟨hpath, hbranch, hchild⟩ := ht
    have herase := hfit.erase key
    obtain ⟨digest, hdigest⟩ := @toRef_resolved host.keccak256 child
      (by rintro rfl; exact hbranch)
    rw [toRef] at hdigest
    simp only [toNode, MptNode.withCache, deleteRecursive, findDivergence_eq, hdigest, deleteChild]
    by_cases hfull : divergence path key = path.length
    · have hlookup : (extension path child).lookup key =
          child.lookup (key.drop (divergence path key)) := by
        rw [lookup, stripPath, if_pos hfull, Option.bind_some]
      have hmerged : (extension path child).erase key =
          merge path (child.erase (key.drop (divergence path key))) := by
        simp only [erase, if_pos hfull]
      have hdelete := ih hchild (hfit.child hs) none (key.drop (divergence path key))
      rw [withCache_toNode] at hdelete
      rw [if_neg (not_not.mpr hfull), hdelete]
      cases hfound : child.lookup (key.drop (divergence path key)) with
      | none => rw [outcome_of_none hfound, outcome_of_none (hlookup.trans hfound)]
      | some v =>
        have hleft : child.erase (key.drop (divergence path key)) ≠ nil := by
          cases child with
          | branch children value => exact erase_branch_ne_nil hchild _
          | nil => exact hbranch.elim
          | leaf p value => exact hbranch.elim
          | extension p c => exact hbranch.elim
        have hrest : TreeFits fits
            (extension path (child.erase (key.drop (divergence path key)))) := by
          intro probe w hprobe
          rw [← lookup_merge, ← hmerged] at hprobe
          exact herase probe w hprobe
        have hnil : merge path (child.erase (key.drop (divergence path key))) ≠ nil := by
          cases hc : child.erase (key.drop (divergence path key)) with
          | nil => exact absurd hc hleft
          | leaf p value => simp [merge]
          | extension p c => simp [merge]
          | branch children value => simp [merge]
        rw [outcome_of_updated hfound hleft,
          outcome_of_updated (hlookup.trans hfound) (by rw [hmerged]; exact hnil), hmerged]
        exact deleteMerge_eq hs hpath (erase_canonical hchild _) hleft hrest
    · have hnone : (extension path child).lookup key = none := by
        rw [lookup, stripPath, if_neg hfull, Option.bind_none]
      rw [if_pos hfull, outcome_of_none hnone]
  | branch children value ih =>
    have hleft := erase_branch_ne_nil ht key
    have herase := hfit.erase key
    have hchildren := ht.2
    cases key with
    | nil =>
      simp only [toNode, MptNode.withCache, deleteRecursive]
      cases value with
      | none => rfl
      | some v =>
        rw [outcome_of_updated (lookup_branch_nil children (some v)) hleft, if_neg (by simp)]
        rw [erase] at hleft ⊢
        refine congrArg DeleteResult.updated (collapseBranch_toNode hs cached hchildren ?_ hleft)
        intro probe w hprobe
        rw [← lookup_collapse] at hprobe
        exact herase probe w hprobe
    | cons a rest =>
      have hcollapsed : TreeFits fits
          (branch (Function.update children a ((children a).erase rest)) value) := by
        intro probe w hprobe
        rw [← lookup_collapse] at hprobe
        exact herase probe w hprobe
      have hcanonical : ∀ b, (Function.update children a ((children a).erase rest) b).Canonical :=
        update_canonical hchildren (erase_canonical (hchildren a) rest)
      have hcollapse := collapseBranch_toNode hs cached hcanonical hcollapsed hleft
      rw [refs_update] at hcollapse
      have hdelete := ih a (hchildren a) (hfit.letter hs a) none rest
      rw [withCache_toNode] at hdelete
      simp only [toNode, MptNode.withCache, deleteRecursive]
      by_cases hnil : children a = nil
      · have hnull : (refOf host.keccak256 (toNode host.keccak256 (children a))).isNull = true := by
          rw [hnil]
          rfl
        rw [if_pos hnull, outcome_of_none (by rw [lookup_branch_cons, hnil, lookup_nil])]
      · obtain ⟨digest, hdigest⟩ := @toRef_resolved host.keccak256 (children a) hnil
        rw [toRef] at hdigest
        rw [hdigest, if_neg (by simp [NodeRef.isNull]), deleteChild, hdelete]
        cases hfound : (children a).lookup rest with
        | none =>
          rw [outcome_of_none hfound, outcome_of_none (by rw [lookup_branch_cons, hfound])]
        | some v =>
          rw [outcome_of_updated (show (branch children value).lookup (a :: rest) = some v from
            hfound) hleft]
          by_cases hgone : (children a).erase rest = nil
          · rw [outcome_of_removed hfound hgone]
            rw [hgone] at hcollapse
            simp only [erase, hgone]
            exact congrArg DeleteResult.updated hcollapse
          · have href := mptNodeRef_toNode hs (erase_canonical (hchildren a) rest)
              ((hfit.letter hs a).erase rest)
            rw [outcome_of_updated hfound hgone]
            simp only [href]
            exact congrArg DeleteResult.updated hcollapse

end Operations

end Div0.TrieDeletion
