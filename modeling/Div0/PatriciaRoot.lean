import Div0.NibbleFormat
import Div0.RlpFormat
import Mathlib.Data.List.FinRange
import Mathlib.Data.List.Infix

/-!
The Merkle Patricia root as a function of the entries alone. The encoding of a set of
entries is a leaf for one entry, an extension over the longest common prefix when
there is one, and otherwise a branch over the first nibble. A subset of entries is
referred to by its encoding when that is shorter than 32 bytes and by its hash
otherwise. No tree is involved.
-/

namespace Div0.PatriciaRoot

open BigEndian RlpFormat NibbleFormat

abbrev Entries := List (Nibbles × Bytes)

def meet {α : Type} [DecidableEq α] : List α → List α → List α
  | a :: x, b :: y => if a = b then a :: meet x y else []
  | _, _ => []

def commonPrefix : Entries → Nibbles
  | [] => []
  | entry :: rest => rest.foldl (fun common e => meet common e.1) entry.1

def below (path : Nibbles) (entries : Entries) : Entries :=
  entries.map fun e => (e.1.drop path.length, e.2)

def startingWith (i : Nibble) (entries : Entries) : Entries :=
  entries.filterMap fun e => match e.1 with
    | [] => none
    | a :: rest => if a = i then some (rest, e.2) else none

def reference (hash : Bytes → Bytes) (entries : Entries) (encoded : Bytes) : Bytes :=
  if entries.isEmpty then encodeString []
  else if encoded.length < 32 then encoded
  else encodeString (hash encoded)

/-- The encoding of a set of entries. Every step down removes a nibble from every key,
so `fuel` above the longest key is enough. -/
def encodeEntries (hash : Bytes → Bytes) : ℕ → Entries → Bytes
  | 0, _ => []
  | fuel + 1, entries =>
    match entries with
    | [] => encodeString []
    | [(key, value)] => encodeList (encodeString (hexPrefix true key) ++ encodeString value)
    | _ =>
      let common := commonPrefix entries
      if common ≠ [] then
        let sub := below common entries
        encodeList (encodeString (hexPrefix false common) ++
          reference hash sub (encodeEntries hash fuel sub))
      else
        let child := fun i =>
          reference hash (startingWith i entries)
            (encodeEntries hash fuel (startingWith i entries))
        encodeList (((List.finRange 16).map child).flatten ++
          encodeString ((entries.lookup []).getD []))

def longestKey (entries : Entries) : ℕ := (entries.map fun e => e.1.length).foldr max 0

def patriciaRoot (hash : Bytes → Bytes) (entries : Entries) : Bytes :=
  hash (encodeEntries hash (longestKey entries + 1) entries)

theorem isPrefix_meet {α : Type} [DecidableEq α] {p x y : List α} :
    p <+: meet x y ↔ p <+: x ∧ p <+: y := by
  induction x generalizing p y with
  | nil =>
    have hnil : meet ([] : List α) y = [] := by cases y <;> rfl
    rw [hnil]
    exact ⟨fun h => ⟨h, (List.prefix_nil.mp h) ▸ List.nil_prefix⟩, fun h => h.1⟩
  | cons a x ih =>
    cases y with
    | nil => exact ⟨fun h => ⟨(List.prefix_nil.mp h) ▸ List.nil_prefix, h⟩, fun h => h.2⟩
    | cons b y =>
      rw [meet]
      cases p with
      | nil => simp
      | cons c p =>
        by_cases hab : a = b
        · rw [if_pos hab, List.cons_prefix_cons, List.cons_prefix_cons, List.cons_prefix_cons, ih,
            hab]
          exact ⟨fun h => ⟨⟨h.1, h.2.1⟩, h.1, h.2.2⟩, fun h => ⟨h.1.1, h.1.2, h.2.2⟩⟩
        · rw [if_neg hab, List.cons_prefix_cons, List.cons_prefix_cons]
          refine ⟨fun h => absurd (List.prefix_nil.mp h) (List.cons_ne_nil _ _), ?_⟩
          rintro ⟨⟨hca, -⟩, hcb, -⟩
          exact absurd (hca.symm.trans hcb) hab

variable {entries : Entries}

/-- The common prefix is the greatest one. -/
theorem isPrefix_commonPrefix {p : Nibbles} (hne : entries ≠ []) :
    p <+: commonPrefix entries ↔ ∀ e ∈ entries, p <+: e.1 := by
  have hfold : ∀ (rest : Entries) (k : Nibbles),
      p <+: rest.foldl (fun common e => meet common e.1) k ↔ p <+: k ∧ ∀ e ∈ rest, p <+: e.1 := by
    intro rest
    induction rest with
    | nil => simp
    | cons e rest ih =>
      intro k
      rw [List.foldl_cons, ih, isPrefix_meet, List.forall_mem_cons, and_assoc]
  cases entries with
  | nil => exact absurd rfl hne
  | cons e rest => rw [commonPrefix, hfold, List.forall_mem_cons]

/-- Two words below a path that part at once leave no longer common prefix. -/
theorem commonPrefix_eq {path x y : Nibbles} {v w : Bytes} (hall : ∀ e ∈ entries, path <+: e.1)
    (hx : (path ++ x, v) ∈ entries) (hy : (path ++ y, w) ∈ entries) (hxy : x.head? ≠ y.head?) :
    commonPrefix entries = path := by
  have hne : entries ≠ [] := List.ne_nil_of_mem hx
  have hlow : path <+: commonPrefix entries := (isPrefix_commonPrefix hne).mpr hall
  have hmax := (isPrefix_commonPrefix hne).mp (List.prefix_refl (commonPrefix entries))
  obtain ⟨tail, htail⟩ := hlow
  cases tail with
  | nil => rw [← htail, List.append_nil]
  | cons c tail =>
    have hcx := hmax _ hx
    have hcy := hmax _ hy
    rw [← htail, List.prefix_append_right_inj] at hcx hcy
    have hhead : ∀ z : Nibbles, c :: tail <+: z → z.head? = some c := by
      rintro z ⟨rest, rfl⟩
      rfl
    exact absurd ((hhead x hcx).trans (hhead y hcy).symm) hxy

theorem length_le_longestKey {e : Nibbles × Bytes} (h : e ∈ entries) :
    e.1.length ≤ longestKey entries := by
  induction entries with
  | nil => cases h
  | cons a rest ih =>
    rcases List.mem_cons.mp h with rfl | hrest
    · exact le_max_left _ _
    · exact le_trans (ih hrest) (le_max_right _ _)

end Div0.PatriciaRoot
