import Div0.BigEndian

/-!
Nibble strings and the hex-prefix form. A byte string spells two nibbles a byte.
`hexPrefix` packs a nibble string of either parity together with one flag, and
`readHexPrefix` undoes it, so the form is injective in both.
-/

namespace Div0.NibbleFormat

open BigEndian

abbrev Nibble := Fin 16
abbrev Nibbles := List Nibble

def highNibble (b : UInt8) : Nibble := ⟨b.toNat / 16, by have := b.toNat_lt; omega⟩

def lowNibble (b : UInt8) : Nibble := ⟨b.toNat % 16, by omega⟩

def packByte (hi lo : Nibble) : UInt8 := UInt8.ofNat (hi.val * 16 + lo.val)

def toNibbles (bytes : Bytes) : Nibbles := bytes.flatMap fun b => [highNibble b, lowNibble b]

/-- Two nibbles a byte; a last odd nibble is dropped. -/
def packPairs : Nibbles → Bytes
  | hi :: lo :: rest => packByte hi lo :: packPairs rest
  | _ => []

/-- The hex-prefix form: the flags in the high nibble of the first byte, and the
first nibble of an odd path in its low nibble. -/
def hexPrefix (isLeaf : Bool) (path : Nibbles) : Bytes :=
  let flag := if isLeaf then 2 else 0
  match path with
  | [] => [UInt8.ofNat (16 * flag)]
  | first :: rest =>
    if path.length % 2 = 1 then UInt8.ofNat (16 * (flag + 1) + first.val) :: packPairs rest
    else UInt8.ofNat (16 * flag) :: packPairs path

def readHexPrefix : Bytes → Bool × Nibbles
  | [] => (false, [])
  | b :: rest =>
    (decide (32 ≤ b.toNat), (if b.toNat / 16 % 2 = 1 then [lowNibble b] else []) ++ toNibbles rest)

@[simp] theorem toNibbles_nil : toNibbles [] = [] := rfl

@[simp] theorem toNibbles_cons (b : UInt8) (rest : Bytes) :
    toNibbles (b :: rest) = highNibble b :: lowNibble b :: toNibbles rest := rfl

theorem toNibbles_length (bytes : Bytes) : (toNibbles bytes).length = 2 * bytes.length := by
  induction bytes with
  | nil => rfl
  | cons b rest ih =>
    simp only [toNibbles_cons, List.length_cons, ih]
    omega

theorem packByte_toNat (hi lo : Nibble) : (packByte hi lo).toNat = hi.val * 16 + lo.val := by
  have hhi := hi.isLt
  have hlo := lo.isLt
  rw [packByte, UInt8.toNat_ofNat', Nat.mod_eq_of_lt (by omega)]

@[simp] theorem highNibble_packByte (hi lo : Nibble) : highNibble (packByte hi lo) = hi := by
  apply Fin.ext
  have := lo.isLt
  simp only [highNibble, packByte_toNat]
  omega

@[simp] theorem lowNibble_packByte (hi lo : Nibble) : lowNibble (packByte hi lo) = lo := by
  apply Fin.ext
  have := lo.isLt
  simp only [lowNibble, packByte_toNat]
  omega

@[simp] theorem packByte_nibbles (b : UInt8) : packByte (highNibble b) (lowNibble b) = b := by
  apply UInt8.toNat_inj.mp
  rw [packByte_toNat]
  simp only [highNibble, lowNibble]
  omega

theorem packPairs_toNibbles (bytes : Bytes) : packPairs (toNibbles bytes) = bytes := by
  induction bytes with
  | nil => rfl
  | cons b rest ih => simp only [toNibbles_cons, packPairs, packByte_nibbles, ih]

theorem toNibbles_injective {a b : Bytes} (h : toNibbles a = toNibbles b) : a = b := by
  rw [← packPairs_toNibbles a, ← packPairs_toNibbles b, h]

theorem toNibbles_packPairs (path : Nibbles) (heven : path.length % 2 = 0) :
    toNibbles (packPairs path) = path := by
  induction path using packPairs.induct with
  | case1 hi lo rest ih =>
    simp only [List.length_cons] at heven
    simp only [packPairs, toNibbles_cons, highNibble_packByte, lowNibble_packByte,
      ih (by omega)]
  | case2 path hno =>
    match path, hno with
    | [], _ => rfl
    | [a], _ => simp at heven
    | a :: b :: rest, hno => exact absurd rfl (hno a b rest)

theorem packPairs_length (path : Nibbles) : (packPairs path).length = path.length / 2 := by
  induction path using packPairs.induct with
  | case1 hi lo rest ih =>
    simp only [packPairs, List.length_cons, ih]
    omega
  | case2 path hno =>
    match path, hno with
    | [], _ => rfl
    | [a], _ => simp [packPairs]
    | a :: b :: rest, hno => exact absurd rfl (hno a b rest)

theorem hexPrefix_length (isLeaf : Bool) (path : Nibbles) :
    (hexPrefix isLeaf path).length = 1 + path.length / 2 := by
  cases path with
  | nil => rfl
  | cons first rest =>
    simp only [hexPrefix, List.length_cons]
    split
    · rw [List.length_cons, packPairs_length]; omega
    · rw [List.length_cons, packPairs_length, List.length_cons]; omega

/-- Reading a first byte with flags `k` and low nibble `low`. -/
private theorem readHexPrefix_flags (k : ℕ) (hk : k < 4) (low : Nibble) (rest : Bytes) :
    readHexPrefix (UInt8.ofNat (16 * k + low.val) :: rest) =
      (decide (2 ≤ k), (if k % 2 = 1 then [low] else []) ++ toNibbles rest) := by
  have hlow := low.isLt
  have hb : (UInt8.ofNat (16 * k + low.val)).toNat = 16 * k + low.val := by
    rw [UInt8.toNat_ofNat', Nat.mod_eq_of_lt (by omega)]
  have hnibble : lowNibble (UInt8.ofNat (16 * k + low.val)) = low := by
    apply Fin.ext
    simp only [lowNibble, hb]
    omega
  have hflag : (32 ≤ 16 * k + low.val) ↔ 2 ≤ k := by omega
  have hparity : (16 * k + low.val) / 16 % 2 = k % 2 := by omega
  simp only [readHexPrefix, hnibble, hb, hflag, hparity]

/-- The hex-prefix form gives back its flag and its path. -/
theorem readHexPrefix_hexPrefix (isLeaf : Bool) (path : Nibbles) :
    readHexPrefix (hexPrefix isLeaf path) = (isLeaf, path) := by
  cases path with
  | nil => cases isLeaf <;> decide
  | cons first rest =>
    by_cases hodd : (first :: rest).length % 2 = 1
    · have heven : rest.length % 2 = 0 := by
        rw [List.length_cons] at hodd
        omega
      simp only [hexPrefix, if_pos hodd]
      rw [readHexPrefix_flags _ (by split <;> omega), toNibbles_packPairs rest heven]
      cases isLeaf <;> rfl
    · have heven : (first :: rest).length % 2 = 0 := by omega
      have hread := readHexPrefix_flags (if isLeaf then 2 else 0) (by split <;> omega) 0
        (packPairs (first :: rest))
      simp only [hexPrefix, if_neg hodd]
      rw [toNibbles_packPairs _ heven] at hread
      refine hread.trans ?_
      cases isLeaf <;> rfl

/-- The form starts with a byte below 64. -/
theorem hexPrefix_eq_cons (isLeaf : Bool) (path : Nibbles) :
    ∃ b rest, hexPrefix isLeaf path = b :: rest ∧ b.toNat < 64 := by
  cases path with
  | nil => exact ⟨_, _, rfl, by cases isLeaf <;> decide⟩
  | cons first rest =>
    have hfirst := first.isLt
    simp only [hexPrefix]
    split
    · refine ⟨_, _, rfl, ?_⟩
      rw [UInt8.toNat_ofNat']
      cases isLeaf <;> simp only [if_true, if_false, Bool.false_eq_true] <;> omega
    · exact ⟨_, _, rfl, by cases isLeaf <;> decide⟩

theorem hexPrefix_injective {leaf leaf' : Bool} {path path' : Nibbles}
    (h : hexPrefix leaf path = hexPrefix leaf' path') : leaf = leaf' ∧ path = path' := by
  have hread := congrArg readHexPrefix h
  rw [readHexPrefix_hexPrefix, readHexPrefix_hexPrefix] at hread
  exact ⟨congrArg Prod.fst hread, congrArg Prod.snd hread⟩

end Div0.NibbleFormat
