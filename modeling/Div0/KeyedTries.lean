import Div0.TrieBinding
import Div0.TrieRoot

/-!
Tries under keys of 32 bytes, as the state trie and the storage tries are. Such a trie
holds a partial map from hashes to values, each value stored in an encoding. The map
determines the tree, and so the root hash, however the trie came about.
-/

namespace Div0.KeyedTries

open BigEndian NibbleFormat Node Mpt Uint256 PatriciaTree PatriciaTree.Tree TrieRefinement TrieMap
open TrieRoot TrieBinding PatriciaRoot

variable {V : Type} {host : Host} {encode : V → Bytes} {f : Hash → Option V}
  {mpt : Backend} {t : ByteTree}

theorem keyNibbles_length (key : Hash) : (toNibbles key.bytes).length = 64 := by
  rw [toNibbles_length, key.size_eq]

theorem keyNibbles_inj {key probe : Hash} :
    toNibbles probe.bytes = toNibbles key.bytes ↔ probe = key :=
  ⟨fun h => Hash.ext (toNibbles_injective h), fun h => by rw [h]⟩

/-- Every word of 64 nibbles is that of a hash. -/
theorem exists_key {path : Nibbles} (h : path.length = 64) :
    ∃ key : Hash, path = toNibbles key.bytes :=
  ⟨⟨packPairs path, by rw [packPairs_length, h]⟩, (toNibbles_packPairs path (by rw [h])).symm⟩

/-- The tree holds the encodings of the values of a map, and nothing else. -/
structure Spells (encode : V → Bytes) (f : Hash → Option V) (t : ByteTree) : Prop where
  lookup : ∀ key : Hash, t.lookup (toNibbles key.bytes) = (f key).map encode
  length : ∀ path value, t.lookup path = some value → path.length = 64

theorem Spells.entry (h : Spells encode f t) {path : Nibbles} {value : Bytes}
    (hpath : t.lookup path = some value) :
    ∃ key v, f key = some v ∧ path = toNibbles key.bytes ∧ value = encode v := by
  obtain ⟨key, rfl⟩ := exists_key (h.length path value hpath)
  rw [h.lookup] at hpath
  obtain ⟨v, hv, hvalue⟩ := Option.map_eq_some_iff.mp hpath
  exact ⟨key, v, hv, rfl, hvalue.symm⟩

theorem Spells.insert (h : Spells encode f t) (key : Hash) (v : V) :
    Spells encode (Function.update f key (some v)) (t.insert (toNibbles key.bytes) (encode v)) where
  lookup := by
    intro probe
    rw [lookup_insert, Function.update_apply, h.lookup]
    simp only [keyNibbles_inj]
    split <;> rfl
  length := by
    intro path value hpath
    rw [lookup_insert] at hpath
    split at hpath
    · next heq => rw [heq, keyNibbles_length]
    · exact h.length path value hpath

theorem Spells.erase (h : Spells encode f t) (key : Hash) :
    Spells encode (Function.update f key none) (t.erase (toNibbles key.bytes)) where
  lookup := by
    intro probe
    rw [lookup_erase, Function.update_apply, h.lookup]
    simp only [keyNibbles_inj]
    split <;> rfl
  length := by
    intro path value hpath
    rw [lookup_erase] at hpath
    split at hpath
    · cases hpath
    · exact h.length path value hpath

/-- Two trees that hold the same map look up the same. -/
theorem Spells.lookup_eq {s : ByteTree} (hs : Spells encode f s) (ht : Spells encode f t)
    (path : Nibbles) : s.lookup path = t.lookup path := by
  have hle : ∀ {s t : ByteTree}, Spells encode f s → Spells encode f t →
      ∀ value, s.lookup path = some value → t.lookup path = some value := by
    intro s t hs ht value hvalue
    obtain ⟨key, v, hv, rfl, rfl⟩ := hs.entry hvalue
    rw [ht.lookup, hv, Option.map_some]
  exact Option.ext fun value => ⟨hle hs ht value, hle ht hs value⟩

def Holds (host : Host) (encode : V → Bytes) (mpt : Backend) (f : Hash → Option V) : Prop :=
  ∃ t, Represents host mpt t ∧ Spells encode f t

theorem holds_init (host : Host) (encode : V → Bytes) :
    Holds host encode Backend.init fun _ => none :=
  ⟨nil, Represents.init host, fun _ => rfl, by intro path value h; cases h⟩

/-- Only the encodings of the values that are there matter. -/
theorem Holds.congr (h : Holds host encode mpt f) {encode' : V → Bytes}
    (heq : ∀ key v, f key = some v → encode v = encode' v) : Holds host encode' mpt f := by
  obtain ⟨t, hrep, hspells⟩ := h
  refine ⟨t, hrep, fun key => ?_, hspells.length⟩
  rw [hspells.lookup]
  cases hv : f key with
  | none => rfl
  | some v => rw [Option.map_some, Option.map_some, heq key v hv]

def trieOf (host : Host) (encode : V → Bytes) (entries : List (Hash × V)) : Backend :=
  entries.foldl (fun mpt e => mptInsert host mpt e.1.bytes (encode e.2)) Backend.init

section Arena

variable [harena : OnArena host]

theorem Holds.get (h : Holds host encode mpt f) (key : Hash) :
    mptGet host mpt key.bytes = (f key).map encode := by
  obtain ⟨t, hrep, hspells⟩ := h
  rw [(hrep.get harena.supply (by rw [keyNibbles_length]; omega)).1, hspells.lookup]

variable (hfit : ∀ v, EntryFits (· ≤ 65536) 64 (encode v))
include hfit

omit harena in
theorem Spells.fits (h : Spells encode f t) : TreeFits (· ≤ 65536) t := by
  intro path value hpath
  obtain ⟨key, v, -, rfl, rfl⟩ := h.entry hpath
  rw [keyNibbles_length]
  exact hfit v

section

variable (h : Holds host encode mpt f)
include h

theorem Holds.insert (key : Hash) (v : V) :
    Holds host encode (mptInsert host mpt key.bytes (encode v))
      (Function.update f key (some v)) := by
  obtain ⟨t, hrep, hspells⟩ := h
  have hentry : EntryFits (· ≤ 65536) (toNibbles key.bytes).length (encode v) := by
    rw [keyNibbles_length]
    exact hfit v
  exact ⟨_, hrep.insert harena.supply (hspells.fits hfit) hentry, hspells.insert key v⟩

theorem Holds.delete (key : Hash) :
    Holds host encode (mptDelete host mpt key.bytes).2 (Function.update f key none) := by
  obtain ⟨t, hrep, hspells⟩ := h
  have hkey : (toNibbles key.bytes).length ≤ 65536 := by
    rw [keyNibbles_length]
    omega
  exact ⟨_, (hrep.delete harena.supply (hspells.fits hfit) hkey).1, hspells.erase key⟩

omit h in
/-- A trie built from a list of the entries of a map holds the map. -/
theorem holds_trieOf {entries : List (Hash × V)}
    (hmem : ∀ key v, (key, v) ∈ entries ↔ f key = some v) :
    Holds host encode (trieOf host encode entries) f := by
  -- the entries inserted so far are a part of the map, those to come are the rest
  have hgeneral : ∀ (rest : List (Hash × V)) (mpt : Backend) (g : Hash → Option V),
      Holds host encode mpt g → (∀ e ∈ rest, f e.1 = some e.2) →
      (∀ key v, g key = some v → f key = some v) →
      (∀ key v, f key = some v → g key = some v ∨ (key, v) ∈ rest) →
      Holds host encode
        (rest.foldl (fun mpt e => mptInsert host mpt e.1.bytes (encode e.2)) mpt) f := by
    intro rest
    induction rest with
    | nil =>
      intro mpt g hholds _ hle hall
      have hsame : g = f := funext fun key => Option.ext fun v =>
        ⟨hle key v, fun hv => (hall key v hv).resolve_right List.not_mem_nil⟩
      exact hsame ▸ hholds
    | cons e rest ih =>
      intro mpt g hholds hrest hle hall
      obtain ⟨hfirst, hrest⟩ := List.forall_mem_cons.mp hrest
      refine ih _ _ (hholds.insert hfit e.1 e.2) hrest ?_ ?_
      · intro key v hv
        rw [Function.update_apply] at hv
        split at hv
        · next heq => rw [heq, hfirst, hv]
        · exact hle key v hv
      · intro key v hv
        rw [Function.update_apply]
        split
        · next heq => exact Or.inl (hfirst.symm.trans (heq ▸ hv))
        · next hne =>
          rcases hall key v hv with hold | hmem
          · exact Or.inl hold
          · rcases List.mem_cons.mp hmem with rfl | hmem
            · exact absurd rfl hne
            · exact Or.inr hmem
  refine hgeneral entries _ _ (holds_init host encode) (fun e he => (hmem e.1 e.2).mp he) ?_ ?_
  · intro key v hv
    cases hv
  · exact fun key v hv => Or.inr ((hmem key v).mpr hv)

/-- Asking for the root hash changes the cache only. -/
theorem Holds.rootHash : Holds host encode (mptRootHash host mpt).2 f := by
  obtain ⟨t, hrep, hspells⟩ := h
  exact ⟨t, (hrep.rootHash harena.supply (hspells.fits hfit)).1, hspells⟩

/-- Tries that hold the same map have the same root hash. -/
theorem Holds.rootHash_eq {mpt' : Backend} (h' : Holds host encode mpt' f) :
    (mptRootHash host mpt).1 = (mptRootHash host mpt').1 := by
  obtain ⟨t, hrep, hspells⟩ := h
  obtain ⟨t', hrep', hspells'⟩ := h'
  rw [(hrep.rootHash harena.supply (hspells.fits hfit)).2,
    (hrep'.rootHash harena.supply (hspells'.fits hfit)).2,
    hrep.canonical.eq_of_lookup hrep'.canonical (hspells.lookup_eq hspells')]

/-- The root hash is the Merkle Patricia root of any listing of the entries. -/
theorem Holds.rootHash_patricia (hempty : host.keccak256 [0x80] = mptEmptyRoot)
    {entries : Entries} (hnodup : (entries.map Prod.fst).Nodup)
    (hmem : ∀ path value, (path, value) ∈ entries ↔
      ∃ key v, f key = some v ∧ path = toNibbles key.bytes ∧ value = encode v) :
    (mptRootHash host mpt).1.bytes = patriciaRoot (hashBytes host.keccak256) entries := by
  obtain ⟨t, hrep, hspells⟩ := h
  rw [(hrep.rootHash harena.supply (hspells.fits hfit)).2]
  refine treeRootHash_of_lists hempty hrep.canonical ⟨hnodup, fun path value => ?_⟩
  rw [hmem]
  constructor
  · rintro ⟨key, v, hv, rfl, rfl⟩
    rw [hspells.lookup, hv, Option.map_some]
  · exact hspells.entry

/-- Equal root hashes come from equal entries, or exhibit a collision. -/
theorem Holds.binding {W : Type} {encode' : W → Bytes} {g : Hash → Option W} {mpt' : Backend}
    (h' : Holds host encode' mpt' g) (hfit' : ∀ w, EntryFits (· ≤ 65536) 64 (encode' w))
    (hempty : host.keccak256 [0x80] = mptEmptyRoot) (hvalue : ∀ v, encode v ≠ [])
    (hvalue' : ∀ w, encode' w ≠ []) (hroot : (mptRootHash host mpt).1 = (mptRootHash host mpt').1) :
    (∀ key, (f key).map encode = (g key).map encode') ∨ Collision host.keccak256
      ([0x80] :: (hashedEncodings host mpt ++ hashedEncodings host mpt')) := by
  obtain ⟨s, hreps, hspells⟩ := h
  obtain ⟨t, hrept, hspellt⟩ := h'
  have hstorable : ∀ {U : Type} {enc : U → Bytes} {m : Hash → Option U} {t : ByteTree},
      t.Canonical → Spells enc m t → (∀ u, EntryFits (· ≤ 65536) 64 (enc u)) →
      (∀ u, enc u ≠ []) → Storable t := by
    intro U enc m t hcanonical hspells hfit hvalue
    refine ⟨hcanonical, hspells.fits hfit, ?_⟩
    intro path value hpath
    obtain ⟨key, u, -, -, rfl⟩ := hspells.entry hpath
    exact hvalue u
  rcases tree_eq_or_collision harena.supply hempty hreps hrept
    (hstorable hreps.canonical hspells hfit hvalue)
    (hstorable hrept.canonical hspellt hfit' hvalue') hroot with rfl | hcollision
  · left
    intro key
    rw [← hspells.lookup, hspellt.lookup]
  · exact Or.inr hcollision

end

end Arena

end Div0.KeyedTries
