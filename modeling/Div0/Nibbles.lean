import Div0.Buffer
import Div0.NibbleFormat

/-!
Nibble strings in the arena and their hex-prefix encoding. Every operation copies
into fresh memory and returns the empty string when the allocation is refused.
-/

namespace Div0.Nibbles

open BigEndian Buffer NibbleFormat

def nibblesFromBytes (alloc : Alloc) (bytes : Bytes) : Nibbles :=
  if bytes.length = 0 then []
  else if alloc (bytes.length * 2) then toNibbles bytes else []

/-- `nibbles_slice` into an arena; a length of `none` is `SIZE_MAX`. -/
def nibblesSlice (alloc : Alloc) (src : Nibbles) (start : ℕ) (len : Option ℕ) : Nibbles :=
  if src.length = 0 ∨ src.length ≤ start then []
  else
    let remaining := src.length - start
    let len := match len with
      | none => remaining
      | some len => if remaining < len then remaining else len
    if len = 0 then []
    else if alloc len then (src.drop start).take len else []

def nibblesCopy (alloc : Alloc) (src : Nibbles) : Nibbles :=
  if src.length = 0 then [] else if alloc src.length then src else []

def nibblesConcat (alloc : Alloc) (a b : Nibbles) : Nibbles :=
  if a.length = 0 then nibblesCopy alloc b
  else if b.length = 0 then nibblesCopy alloc a
  else if alloc (a.length + b.length) then a ++ b else []

def nibblesConcat3 (alloc : Alloc) (pre : Nibbles) (middle : Nibble) (suffix : Nibbles) :
    Nibbles :=
  if alloc (pre.length + 1 + suffix.length) then pre ++ middle :: suffix else []

def appendPairs (alloc : Alloc) (out : Buf) : Nibbles → Buf
  | hi :: lo :: rest => appendPairs alloc (out.append! alloc [packByte hi lo]) rest
  | _ => out

def hexPrefixEncode (alloc : Alloc) (nibbles : Nibbles) (isLeaf : Bool) : Buf :=
  match Buf.init.reserve alloc (1 + (nibbles.length + 1) / 2) with
  | none => Buf.init
  | some result =>
    let flags := (if isLeaf then 2 else 0) + (if nibbles.length % 2 = 1 then 1 else 0)
    match nibbles with
    | [] => result.append! alloc [UInt8.ofNat (16 * flags)]
    | first :: rest =>
      if nibbles.length % 2 = 1 then
        appendPairs alloc (result.append! alloc [UInt8.ofNat (16 * flags + first.val)]) rest
      else appendPairs alloc (result.append! alloc [UInt8.ofNat (16 * flags)]) nibbles

structure HexPrefixResult where
  nibbles : Nibbles
  isLeaf : Bool
  success : Bool
  deriving DecidableEq

def hexPrefixDecode (alloc : Alloc) : Bytes → HexPrefixResult
  | [] => ⟨[], false, false⟩
  | firstByte :: rest =>
    let flags := (firstByte >>> 4) &&& 0x03
    let isLeaf := (flags &&& 2) != 0
    let isOdd := (flags &&& 1) != 0
    let nibbleCount := if isOdd then 1 + rest.length * 2 else rest.length * 2
    if nibbleCount = 0 then ⟨[], isLeaf, true⟩
    else if alloc nibbleCount then
      ⟨(if isOdd then [lowNibble firstByte] else []) ++ toNibbles rest, isLeaf, true⟩
    else ⟨[], isLeaf, false⟩

section Granted

variable {alloc : Alloc} {limit : ℕ}

section

variable (h : GrantsUpTo alloc limit)
include h

theorem nibblesFromBytes_eq {bytes : Bytes} (hlen : bytes.length * 2 ≤ limit) :
    nibblesFromBytes alloc bytes = toNibbles bytes := by
  unfold nibblesFromBytes
  split
  · next hz => rw [List.length_eq_zero_iff.mp hz]; rfl
  · rw [if_pos (h _ (by omega) hlen)]

theorem nibblesSlice_drop {src : Nibbles} (start : ℕ) (hlen : src.length ≤ limit) :
    nibblesSlice alloc src start none = src.drop start := by
  unfold nibblesSlice
  split
  · next hz => rw [List.drop_eq_nil_of_le (by omega)]
  · simp only
    rw [if_neg (by omega), if_pos (h _ (by omega) (by omega)),
      List.take_of_length_le (by rw [List.length_drop])]

theorem nibblesSlice_take {src : Nibbles} {len : ℕ} (hlen : src.length ≤ limit)
    (hle : len ≤ src.length) : nibblesSlice alloc src 0 (some len) = src.take len := by
  unfold nibblesSlice
  split
  · next hz => rw [List.length_eq_zero_iff.mp (by omega : src.length = 0)]; simp
  · simp only [Nat.sub_zero, if_neg (show ¬src.length < len by omega), List.drop_zero]
    split
    · next hz => rw [hz, List.take_zero]
    · rw [if_pos (h _ (by omega) (by omega))]

theorem nibblesConcat_eq {a b : Nibbles} (hlen : a.length + b.length ≤ limit) :
    nibblesConcat alloc a b = a ++ b := by
  have hcopy : ∀ src : Nibbles, src.length ≤ limit → nibblesCopy alloc src = src := by
    intro src hsrc
    unfold nibblesCopy
    split
    · next hz => rw [List.length_eq_zero_iff.mp hz]
    · rw [if_pos (h _ (by omega) hsrc)]
  unfold nibblesConcat
  split
  · next hz => rw [hcopy b (by omega), List.length_eq_zero_iff.mp hz, List.nil_append]
  · split
    · next hz => rw [hcopy a (by omega), List.length_eq_zero_iff.mp hz, List.append_nil]
    · rw [if_pos (h _ (by omega) hlen)]

theorem nibblesConcat3_nil (middle : Nibble) {suffix : Nibbles} (hlen : suffix.length + 1 ≤ limit) :
    nibblesConcat3 alloc [] middle suffix = middle :: suffix := by
  unfold nibblesConcat3
  rw [if_pos (h _ (by omega) (by simp only [List.length_nil]; omega))]
  rfl

end

end Granted

private theorem appendPairs_room {alloc : Alloc} {room : ℕ} {data : Bytes} (path : Nibbles)
    (h : data.length + path.length / 2 ≤ room) :
    appendPairs alloc ⟨data, some room, false⟩ path =
      ⟨data ++ packPairs path, some room, false⟩ := by
  induction path using packPairs.induct generalizing data with
  | case1 hi lo rest ih =>
    simp only [List.length_cons] at h
    have hfit : data.length + [packByte hi lo].length ≤ room := by
      simp only [List.length_singleton]
      omega
    rw [appendPairs, Buf.append!_of_room rfl hfit, packPairs, ih]
    · simp
    · simp only [List.length_append, List.length_singleton]
      omega
  | case2 path hno =>
    rcases path with _ | ⟨a, _ | ⟨b, rest⟩⟩
    · simp [appendPairs, packPairs]
    · simp [appendPairs, packPairs]
    · exact absurd rfl (hno a b rest)

/-- With its allocation granted, `hex_prefix_encode` produces the hex-prefix form. -/
theorem hexPrefixEncode_data {alloc : Alloc} {path : Nibbles} (isLeaf : Bool)
    (h : alloc (1 + (path.length + 1) / 2) = true) :
    (hexPrefixEncode alloc path isLeaf).data = hexPrefix isLeaf path := by
  have hres : Buf.init.reserve alloc (1 + (path.length + 1) / 2) =
      some ⟨[], some (1 + (path.length + 1) / 2), false⟩ := by
    simp [Buf.reserve, Buf.capacity, Buf.init, h]
  unfold hexPrefixEncode
  rw [hres]
  cases path with
  | nil =>
    cases isLeaf <;> simp [Buf.append!, Buf.append, Buf.reserve, Buf.capacity, Buf.size, hexPrefix]
  | cons first rest =>
    simp only [hexPrefix]
    by_cases hodd : (first :: rest).length % 2 = 1
    · have hfit : ([] : Bytes).length + [UInt8.ofNat (16 *
          ((if isLeaf = true then 2 else 0) + 1) + first.val)].length ≤
          1 + ((first :: rest).length + 1) / 2 := by
        simp only [List.length_nil, List.length_cons]
        omega
      simp only [if_pos hodd]
      rw [Buf.append!_of_room rfl hfit, appendPairs_room]
      · simp
      · simp only [List.length_append, List.length_nil, List.length_cons]
        omega
    · have hfit : ([] : Bytes).length + [UInt8.ofNat (16 *
          ((if isLeaf = true then 2 else 0) + 0))].length ≤
          1 + ((first :: rest).length + 1) / 2 := by
        simp only [List.length_nil, List.length_cons]
        omega
      simp only [if_neg hodd]
      rw [Buf.append!_of_room rfl hfit, appendPairs_room]
      · simp
      · simp only [List.length_append, List.length_nil, List.length_cons]
        omega

/-- On the flags that `hex_prefix_encode` writes, `hex_prefix_decode` reads the form, if the
memory for the nibbles is granted. -/
theorem hexPrefixDecode_eq {alloc : Alloc} {b : UInt8} {rest : Bytes} {isLeaf : Bool}
    {path : Nibbles} (hb : b.toNat < 64) (hread : readHexPrefix (b :: rest) = (isLeaf, path))
    (h : path ≠ [] → alloc path.length = true) :
    hexPrefixDecode alloc (b :: rest) = ⟨path, isLeaf, true⟩ := by
  have hflags : ∀ n < 64, ((UInt8.ofNat n >>> 4 &&& 0x03 &&& 2 != 0) = decide (32 ≤ n)) ∧
      ((UInt8.ofNat n >>> 4 &&& 0x03 &&& 1 != 0) = decide (n / 16 % 2 = 1)) := by decide
  obtain ⟨hleaf, hodd⟩ := hflags b.toNat hb
  rw [UInt8.ofNat_toNat] at hleaf hodd
  obtain ⟨rfl, rfl⟩ := Prod.mk.inj hread
  simp only [hexPrefixDecode, hleaf, hodd, decide_eq_true_eq]
  have hcount : (if b.toNat / 16 % 2 = 1 then 1 + rest.length * 2 else rest.length * 2) =
      ((if b.toNat / 16 % 2 = 1 then [lowNibble b] else []) ++ toNibbles rest).length := by
    rw [List.length_append, toNibbles_length, Nat.mul_comm]
    split
    · rfl
    · exact (Nat.zero_add _).symm
  rw [hcount]
  generalize (if b.toNat / 16 % 2 = 1 then [lowNibble b] else []) ++ toNibbles rest = path at *
  split
  · next hzero => rw [List.length_eq_zero_iff.mp hzero]
  · next hsome => rw [if_pos (h fun hnil => hsome (List.length_eq_zero_iff.mpr hnil))]

/-- `hex_prefix_decode` undoes `hex_prefix_encode`, whose results tell paths and flags apart. -/
theorem hexPrefix_codec_exact (alloc alloc' : Alloc) (path : Nibbles) (isLeaf : Bool)
    (h : alloc (1 + (path.length + 1) / 2) = true) :
    ((path ≠ [] → alloc' path.length = true) →
        hexPrefixDecode alloc' (hexPrefixEncode alloc path isLeaf).data = ⟨path, isLeaf, true⟩) ∧
      (hexPrefixEncode alloc path isLeaf).data.length = 1 + path.length / 2 ∧
      ∀ (path' : Nibbles) (isLeaf' : Bool), alloc (1 + (path'.length + 1) / 2) = true →
        (hexPrefixEncode alloc path isLeaf).data = (hexPrefixEncode alloc path' isLeaf').data →
        path = path' ∧ isLeaf = isLeaf' := by
  rw [hexPrefixEncode_data isLeaf h]
  refine ⟨fun h' => ?_, hexPrefix_length isLeaf path, fun path' isLeaf' h' heq => ?_⟩
  · obtain ⟨b, rest, hform, hb⟩ := hexPrefix_eq_cons isLeaf path
    rw [hform]
    exact hexPrefixDecode_eq hb (hform ▸ readHexPrefix_hexPrefix isLeaf path) h'
  · rw [hexPrefixEncode_data isLeaf' h'] at heq
    exact (hexPrefix_injective heq).symm

/-- An odd path of a leaf. -/
theorem hexPrefix_codec_exact_leaf :
    hexPrefixDecode arenaAlloc (hexPrefixEncode arenaAlloc [1, 2, 3] true).data =
        ⟨[1, 2, 3], true, true⟩ ∧
      (hexPrefixEncode arenaAlloc [1, 2, 3] true).data.length = 2 ∧
      (hexPrefixEncode arenaAlloc [1, 2, 3] true).data ≠
        (hexPrefixEncode arenaAlloc [1, 2] true).data := by
  obtain ⟨hdecode, hlength, hapart⟩ :=
    hexPrefix_codec_exact arenaAlloc arenaAlloc [1, 2, 3] true (by decide)
  refine ⟨hdecode fun _ => by decide, hlength, fun heq => ?_⟩
  exact absurd (hapart [1, 2] true (by decide) heq).1 (by decide)

end Div0.Nibbles
