import Div0.Hexadecimal
import Div0.Uint256
import Mathlib.Data.List.TakeWhile

/-!
The hex codecs. C takes a string up to its first NUL character. Numbers have a bounded
count of digits and no sign; `hex_decode_uint256` shifts the digits into the result while it
reads, so a malformed string leaves the digits in front of the first bad character there.
-/

namespace Div0.Hex

open BigEndian Uint256 Hexadecimal

def nul : Char := Char.ofNat 0

def cString (s : String) : List Char := s.toList.takeWhile (· ≠ nul)

def hexChars : List Char :=
  ['0', '1', '2', '3', '4', '5', '6', '7', '8', '9', 'a', 'b', 'c', 'd', 'e', 'f']

def hexChar (nibble : ℕ) : Char := hexChars.getD nibble '0'

def hexCharToNibble (c : Char) : Option ℕ :=
  if '0' ≤ c ∧ c ≤ '9' then some (c.toNat - '0'.toNat)
  else if 'a' ≤ c ∧ c ≤ 'f' then some (c.toNat - 'a'.toNat + 10)
  else if 'A' ≤ c ∧ c ≤ 'F' then some (c.toNat - 'A'.toNat + 10)
  else none

def skip0xPrefix : List Char → List Char
  | '0' :: 'x' :: rest => rest
  | '0' :: 'X' :: rest => rest
  | hex => hex

def hexStrlen (hex : List Char) : ℕ := (skip0xPrefix hex).length

def decodePairs : List Char → Option Bytes
  | [] => some []
  | [_] => none
  | high :: low :: rest =>
    (hexCharToNibble high).bind fun h => (hexCharToNibble low).bind fun l =>
      (decodePairs rest).map (UInt8.ofNat ((h <<< 4) ||| l) :: ·)

def hexDecode (hex : List Char) (outLen : ℕ) : Option Bytes :=
  if (skip0xPrefix hex).length ≠ outLen * 2 then none else decodePairs (skip0xPrefix hex)

def hexDecodeU64 (hex : List Char) : Option UInt64 :=
  let digits := skip0xPrefix hex
  if digits.length = 0 ∨ 16 < digits.length then none
  else digits.foldlM (fun value c => (hexCharToNibble c).map fun nibble =>
    (value <<< 4) ||| UInt64.ofNat nibble) 0

def shiftInNibble (w : Word) (nibble : ℕ) : Word :=
  ⟨(w.limb0 <<< 4) ||| UInt64.ofNat nibble, (w.limb1 <<< 4) ||| (w.limb0 >>> 60),
    (w.limb2 <<< 4) ||| (w.limb1 >>> 60), (w.limb3 <<< 4) ||| (w.limb2 >>> 60)⟩

def shiftInDigits : List Char → Word → Bool × Word
  | [], out => (true, out)
  | c :: rest, out =>
    match hexCharToNibble c with
    | none => (false, out)
    | some nibble => shiftInDigits rest (shiftInNibble out nibble)

def hexDecodeUint256 (hex : List Char) (out : Word) : Bool × Word :=
  let digits := skip0xPrefix hex
  if digits.length = 0 ∨ 64 < digits.length then (false, out)
  else shiftInDigits digits uint256Zero

def hexText (digits : List ℕ) : String := String.ofList ('0' :: 'x' :: digits.map hexChar)

def hexEncode (data : Bytes) : String := hexText (data.flatMap nibbles)

def nibbleCount (tmp : ℕ) : ℕ := if tmp = 0 then 0 else nibbleCount (tmp >>> 4) + 1
termination_by tmp
decreasing_by
  rw [Nat.shiftRight_eq_div_pow]
  omega

def hexEncodeU64 (value : UInt64) : String :=
  if value = 0 then hexText [0] else hexText (lastDigits value.toNat (nibbleCount value.toNat))

def hexEncodeUint256 (value : Word) : String :=
  if uint256IsZero value then hexText [0]
  else
    match (uint256ToBytesBe value).dropWhile (· = 0) with
    | [] => hexText []
    | first :: rest =>
      hexText ((if first < 0x10 then [first.toNat % 16] else nibbles first) ++
        rest.flatMap nibbles)

def hexEncodeUint256Padded (value : Word) : String := hexEncode (uint256ToBytesBe value)

section Digits

theorem hexCharToNibble_hexChar : ∀ n < 16, hexCharToNibble (hexChar n) = some n := by decide

theorem hexCharToNibble_lt {c : Char} {n : ℕ} (h : hexCharToNibble c = some n) : n < 16 := by
  unfold hexCharToNibble at h
  split at h
  · next hc =>
    have hle : c.toNat ≤ '9'.toNat := hc.2
    obtain rfl := Option.some.inj h
    have h0 : '0'.toNat = 48 := rfl
    have h9 : '9'.toNat = 57 := rfl
    omega
  · split at h
    · next hc =>
      have hle : c.toNat ≤ 'f'.toNat := hc.2
      obtain rfl := Option.some.inj h
      have ha : 'a'.toNat = 97 := rfl
      have hf : 'f'.toNat = 102 := rfl
      omega
    · split at h
      · next hc =>
        have hle : c.toNat ≤ 'F'.toNat := hc.2
        obtain rfl := Option.some.inj h
        have hA : 'A'.toNat = 65 := rfl
        have hF : 'F'.toNat = 70 := rfl
        omega
      · exact absurd h (by rintro ⟨⟩)

theorem hexCharToNibble_nul : hexCharToNibble nul = none := by decide

def digitsOf (hex : List Char) : Option (List ℕ) := hex.mapM hexCharToNibble

@[simp] theorem digitsOf_nil : digitsOf [] = some [] := rfl

theorem digitsOf_cons (c : Char) (rest : List Char) :
    digitsOf (c :: rest) =
      (hexCharToNibble c).bind fun d => (digitsOf rest).map fun ds => d :: ds := by
  rw [digitsOf, List.mapM_cons, ← digitsOf]
  cases hexCharToNibble c with
  | none => rfl
  | some d =>
    cases digitsOf rest with
    | none => rfl
    | some ds => rfl

variable {ds : List ℕ}

theorem digitsOf_cons_eq_some {c : Char} {rest : List Char} :
    digitsOf (c :: rest) = some ds ↔
      ∃ d tail, hexCharToNibble c = some d ∧ digitsOf rest = some tail ∧ ds = d :: tail := by
  rw [digitsOf_cons, Option.bind_eq_some_iff]
  constructor
  · rintro ⟨d, hd, h⟩
    obtain ⟨tail, htail, rfl⟩ := Option.map_eq_some_iff.mp h
    exact ⟨d, tail, hd, htail, rfl⟩
  · rintro ⟨d, tail, hd, htail, rfl⟩
    exact ⟨d, hd, by rw [htail]; rfl⟩

/-- A text of digits has as many digits as characters, each below 16, and no NUL. -/
theorem digitsOf_spec {hex : List Char} (h : digitsOf hex = some ds) :
    ds.length = hex.length ∧ (∀ d ∈ ds, d < 16) ∧ nul ∉ hex := by
  induction hex generalizing ds with
  | nil =>
    obtain rfl := Option.some.inj h
    exact ⟨rfl, List.forall_mem_nil _, List.not_mem_nil⟩
  | cons c rest ih =>
    obtain ⟨d, tail, hd, htail, rfl⟩ := digitsOf_cons_eq_some.mp h
    obtain ⟨hlength, hlt, hnul⟩ := ih htail
    refine ⟨congrArg (· + 1) hlength,
      List.forall_mem_cons.mpr ⟨hexCharToNibble_lt hd, hlt⟩, fun hmem => ?_⟩
    rcases List.mem_cons.mp hmem with rfl | hmem
    · exact absurd (hexCharToNibble_nul.symm.trans hd) (by rintro ⟨⟩)
    · exact hnul hmem

theorem digitsOf_map_hexChar (h : ∀ d ∈ ds, d < 16) : digitsOf (ds.map hexChar) = some ds := by
  induction ds with
  | nil => rfl
  | cons d rest ih =>
    obtain ⟨hd, hrest⟩ := List.forall_mem_cons.mp h
    exact digitsOf_cons_eq_some.mpr
      ⟨d, rest, hexCharToNibble_hexChar d hd, ih hrest, rfl⟩

theorem nibbles_lt (bytes : Bytes) : ∀ d ∈ bytes.flatMap nibbles, d < 16 := by
  intro d hd
  obtain ⟨b, -, hb⟩ := List.mem_flatMap.mp hd
  have hlt := b.toNat_lt
  rcases List.mem_pair.mp hb with rfl | rfl <;> omega

theorem lastDigits_lt (n count : ℕ) : ∀ d ∈ lastDigits n count, d < 16 := by
  intro d hd
  obtain ⟨i, -, rfl⟩ := List.mem_map.mp hd
  exact Nat.mod_lt _ (by decide)

end Digits

section Numbers

variable {hex : List Char} {limit n : ℕ} {ds : List ℕ}

/-- The number that a text denotes: a prefix at will, then between one digit and `limit`. -/
def hexNumber (limit : ℕ) (hex : List Char) : Option ℕ :=
  if (skip0xPrefix hex).length = 0 ∨ limit < (skip0xPrefix hex).length then none
  else (digitsOf (skip0xPrefix hex)).map value

theorem hexNumber_eq_some : hexNumber limit hex = some n ↔
    ∃ ds, digitsOf (skip0xPrefix hex) = some ds ∧ ds ≠ [] ∧ ds.length ≤ limit ∧ value ds = n := by
  rw [hexNumber, Option.ite_none_left_eq_some, Option.map_eq_some_iff, not_or, Nat.not_lt]
  constructor
  · rintro ⟨⟨hne, hle⟩, ds, hds, rfl⟩
    have hlength := (digitsOf_spec hds).1
    refine ⟨ds, hds, fun hnil => hne ?_, hlength ▸ hle, rfl⟩
    rw [← hlength, hnil]
    rfl
  · rintro ⟨ds, hds, hne, hle, rfl⟩
    have hlength := (digitsOf_spec hds).1
    refine ⟨⟨fun hzero => hne ?_, hlength ▸ hle⟩, ds, hds, rfl⟩
    exact List.eq_nil_of_length_eq_zero (hlength.trans hzero)

theorem toNat_shiftIn (v : UInt64) {carry : UInt64} (h : carry.toNat < 16) :
    ((v <<< 4) ||| carry).toNat = 16 * v.toNat % 2 ^ 64 + carry.toNat := by
  have hshift : (v <<< 4).toNat = (v.toNat % 2 ^ 60) <<< 4 := by
    rw [UInt64.toNat_shiftLeft, Nat.shiftLeft_eq, Nat.shiftLeft_eq]
    change v.toNat * 2 ^ 4 % 2 ^ 64 = _
    omega
  rw [UInt64.toNat_or, hshift, ← Nat.shiftLeft_add_eq_or_of_lt h, Nat.shiftLeft_eq]
  omega

variable {d : ℕ}

theorem toNat_ofNat_nibble (h : d < 16) : (UInt64.ofNat d).toNat = d := by
  rw [UInt64.toNat_ofNat', Nat.mod_eq_of_lt (by omega)]

theorem shiftIn_ofNat (m : ℕ) (h : d < 16) :
    (UInt64.ofNat m <<< 4) ||| UInt64.ofNat d = UInt64.ofNat (16 * m + d) := by
  have hd := toNat_ofNat_nibble h
  apply UInt64.toNat_inj.mp
  rw [toNat_shiftIn _ (hd.symm ▸ h), hd, UInt64.toNat_ofNat', UInt64.toNat_ofNat']
  omega

theorem shiftInNibble_toNat (w : Word) (h : d < 16) :
    (shiftInNibble w d).toNat = (16 * w.toNat + d) % 2 ^ 256 := by
  have hcarry : ∀ l : UInt64, (l >>> 60).toNat = l.toNat / 2 ^ 60 := by
    intro l
    rw [UInt64.toNat_shiftRight, Nat.shiftRight_eq_div_pow]
    rfl
  have hsmall : ∀ l : UInt64, (l >>> 60).toNat < 16 := by
    intro l
    have hl := l.toNat_lt
    rw [hcarry]
    omega
  have hd := toNat_ofNat_nibble h
  have h0 := w.limb0.toNat_lt
  have h1 := w.limb1.toNat_lt
  have h2 := w.limb2.toNat_lt
  have h3 := w.limb3.toNat_lt
  simp only [Word.toNat, shiftInNibble]
  rw [toNat_shiftIn _ (hd.symm ▸ h), toNat_shiftIn _ (hsmall _), toNat_shiftIn _ (hsmall _),
    toNat_shiftIn _ (hsmall _), hd, hcarry, hcarry, hcarry]
  omega

theorem shiftInNibble_ofNat (m : ℕ) (h : d < 16) :
    shiftInNibble (Word.ofNat m) d = Word.ofNat (16 * m + d) := by
  apply Word.toNat_injective
  rw [shiftInNibble_toNat _ h, Word.toNat_ofNat, Word.toNat_ofNat]
  omega

theorem foldlM_digits (digits : List Char) (m : ℕ) :
    digits.foldlM (fun (acc : UInt64) c => (hexCharToNibble c).map fun nibble =>
      (acc <<< 4) ||| UInt64.ofNat nibble) (UInt64.ofNat m) =
    (digitsOf digits).map fun ds => UInt64.ofNat (ds.foldl (fun n d => 16 * n + d) m) := by
  induction digits generalizing m with
  | nil => rfl
  | cons c rest ih =>
    rw [List.foldlM_cons, digitsOf_cons]
    cases hc : hexCharToNibble c with
    | none => rfl
    | some d =>
      rw [Option.map_some, shiftIn_ofNat m (hexCharToNibble_lt hc), Option.bind_some,
        Option.map_map]
      exact ih (16 * m + d)

theorem shiftInDigits_of_some {digits : List Char} (h : digitsOf digits = some ds) (m : ℕ) :
    shiftInDigits digits (Word.ofNat m) =
      (true, Word.ofNat (ds.foldl (fun n d => 16 * n + d) m)) := by
  induction digits generalizing ds m with
  | nil =>
    obtain rfl := Option.some.inj h
    rfl
  | cons c rest ih =>
    obtain ⟨d, tail, hd, htail, rfl⟩ := digitsOf_cons_eq_some.mp h
    rw [shiftInDigits, hd]
    exact (congrArg _ (shiftInNibble_ofNat m (hexCharToNibble_lt hd))).trans (ih htail _)

theorem shiftInDigits_of_none {digits : List Char} (h : digitsOf digits = none) (out : Word) :
    (shiftInDigits digits out).1 = false := by
  induction digits generalizing out with
  | nil => exact absurd h (by rintro ⟨⟩)
  | cons c rest ih =>
    rw [shiftInDigits]
    rw [digitsOf_cons] at h
    cases hc : hexCharToNibble c with
    | none => rfl
    | some d =>
      rw [hc, Option.bind_some, Option.map_eq_none_iff] at h
      exact ih h _

/-- `hex_decode_u64` reads numbers of up to 16 digits. -/
theorem hexDecodeU64_eq (hex : List Char) :
    hexDecodeU64 hex = (hexNumber 16 hex).map UInt64.ofNat := by
  rw [hexDecodeU64, hexNumber]
  split
  · rfl
  · rw [Option.map_map]
    exact foldlM_digits _ 0

/-- `hex_decode_uint256` reads numbers of up to 64 digits. -/
theorem hexDecodeUint256_of_some (h : hexNumber 64 hex = some n) (out : Word) :
    hexDecodeUint256 hex out = (true, Word.ofNat n) := by
  rw [hexNumber, Option.ite_none_left_eq_some] at h
  obtain ⟨hlength, hvalue⟩ := h
  obtain ⟨ds, hds, rfl⟩ := Option.map_eq_some_iff.mp hvalue
  rw [hexDecodeUint256, if_neg hlength]
  exact shiftInDigits_of_some hds 0

theorem hexDecodeUint256_of_none (h : hexNumber 64 hex = none) (out : Word) :
    (hexDecodeUint256 hex out).1 = false := by
  rw [hexDecodeUint256]
  rw [hexNumber] at h
  split at h
  · next hlength => rw [if_pos hlength]
  · next hlength =>
    rw [if_neg hlength]
    exact shiftInDigits_of_none (Option.map_eq_none_iff.mp h) _

/-- The loop that counts the nibbles finds the least count that is enough. -/
theorem nibbleCount_spec (n : ℕ) :
    n < 16 ^ nibbleCount n ∧ ∀ k, n < 16 ^ k → nibbleCount n ≤ k := by
  induction n using Nat.strong_induction_on with
  | _ n ih =>
    rw [nibbleCount]
    split
    · next hzero => exact ⟨by rw [hzero]; decide, fun k _ => Nat.zero_le k⟩
    · next hpos =>
      have hshift : n >>> 4 = n / 16 := Nat.shiftRight_eq_div_pow n 4
      obtain ⟨hlt, hleast⟩ := ih (n >>> 4) (by omega)
      rw [hshift] at hlt hleast
      rw [hshift]
      refine ⟨?_, fun k hk => ?_⟩
      · rw [Nat.pow_succ]
        omega
      · cases k with
        | zero => omega
        | succ k =>
          rw [Nat.pow_succ] at hk
          exact Nat.succ_le_succ (hleast k (by omega))

theorem hexNumber_hexText (hlt : ∀ d ∈ ds, d < 16) (hne : ds ≠ []) (hle : ds.length ≤ limit) :
    hexNumber limit (hexText ds).toList = some (value ds) := by
  rw [hexText, String.toList_ofList, hexNumber_eq_some]
  exact ⟨ds, digitsOf_map_hexChar hlt, hne, hle, rfl⟩

theorem hexNumber_hexEncodeU64 (v : UInt64) :
    hexNumber 16 (hexEncodeU64 v).toList = some v.toNat := by
  rw [hexEncodeU64]
  split
  · next hzero =>
    rw [hzero]
    exact hexNumber_hexText (by decide) (by decide) (by decide)
  · next hpos =>
    obtain ⟨hlt, hleast⟩ := nibbleCount_spec v.toNat
    have hcount : nibbleCount v.toNat ≠ 0 := by
      intro hzero
      rw [hzero] at hlt
      exact hpos (UInt64.toNat_inj.mp (Nat.lt_one_iff.mp hlt))
    have hlength : (lastDigits v.toNat (nibbleCount v.toNat)).length = nibbleCount v.toNat := by
      simp [lastDigits]
    rw [hexNumber_hexText (lastDigits_lt _ _), value_lastDigits, Nat.mod_eq_of_lt hlt]
    · exact fun hnil => hcount (hlength ▸ congrArg List.length hnil)
    · exact hlength.le.trans (hleast 16 v.toNat_lt)

theorem ofBytes_dropWhile (bytes : Bytes) : ofBytes (bytes.dropWhile (· = 0)) = ofBytes bytes := by
  induction bytes with
  | nil => rfl
  | cons b rest ih =>
    by_cases hb : b = 0
    · rw [List.dropWhile_cons_of_pos (by simpa using hb), ih, ofBytes_cons, hb]
      simp
    · rw [List.dropWhile_cons_of_neg (by simpa using hb)]

theorem nibbles_length (bytes : Bytes) : (bytes.flatMap nibbles).length = 2 * bytes.length := by
  induction bytes with
  | nil => rfl
  | cons b rest ih =>
    rw [List.flatMap_cons, List.length_append, ih, List.length_cons]
    simp only [nibbles, List.length_cons, List.length_nil]
    omega

theorem hexNumber_hexEncodeUint256Padded (v : Word) :
    hexNumber 64 (hexEncodeUint256Padded v).toList = some v.toNat := by
  have hlength := (nibbles_length (uint256ToBytesBe v)).trans (by rw [toBytesBe_length])
  rw [hexEncodeUint256Padded, hexEncode, hexNumber_hexText (nibbles_lt _), value_nibbles,
    ofBytes_toBytesBe]
  · exact fun hnil => absurd (hlength ▸ congrArg List.length hnil) (by decide)
  · exact hlength.le

theorem hexNumber_hexEncodeUint256 (v : Word) :
    hexNumber 64 (hexEncodeUint256 v).toList = some v.toNat := by
  rw [hexEncodeUint256]
  split
  · next hzero =>
    rw [(isZero_iff v).mp hzero]
    exact hexNumber_hexText (by decide) (by decide) (by decide)
  · next hpos =>
    have hvalue := (ofBytes_dropWhile (uint256ToBytesBe v)).trans (ofBytes_toBytesBe v)
    have hlength := ((List.dropWhile_suffix (· = 0)).length_le).trans (toBytesBe_length v).le
    split
    · next hnil =>
      rw [hnil] at hvalue
      exact absurd ((isZero_iff v).mpr hvalue.symm) hpos
    · next first rest hcons =>
      rw [hcons] at hvalue hlength
      have hrest := nibbles_length rest
      have hfirst := first.toNat_lt
      have hall : ∀ ds, value (ds ++ rest.flatMap nibbles) = v.toNat → (∀ d ∈ ds, d < 16) →
          ds ≠ [] → ds.length ≤ 2 →
          hexNumber 64 (hexText (ds ++ rest.flatMap nibbles)).toList = some v.toNat := by
        intro ds hds hlt hne hle
        rw [← hds]
        refine hexNumber_hexText ?_ (List.append_ne_nil_of_left_ne_nil hne _) ?_
        · exact List.forall_mem_append.mpr ⟨hlt, nibbles_lt rest⟩
        · rw [List.length_append, hrest]
          rw [List.length_cons] at hlength
          omega
      have hwhole : value (nibbles first ++ rest.flatMap nibbles) = v.toNat := by
        rw [← List.flatMap_cons, value_nibbles, hvalue]
      split
      · next hsmall =>
        have hzero : first.toNat / 16 = 0 := Nat.div_eq_of_lt (UInt8.lt_iff_toNat_lt.mp hsmall)
        refine hall _ ?_ (by simpa using Nat.mod_lt _ (by decide)) (by simp) (by simp)
        rw [nibbles, hzero] at hwhole
        rw [← hwhole]
        exact (value_zero_cons _).symm
      · exact hall _ hwhole (fun d hd => nibbles_lt [first] d (by simpa using hd)) (by simp [nibbles])
          (by simp [nibbles])

end Numbers

section Texts

variable {hex : List Char} {bytes : Bytes} {s : String} {n limit : ℕ}

theorem nul_notMem_of_skip (h : nul ∉ skip0xPrefix hex) : nul ∉ hex := by
  unfold skip0xPrefix at h
  split at h
  · exact fun hmem => h (by simpa [nul] using hmem)
  · exact fun hmem => h (by simpa [nul] using hmem)
  · exact h

theorem cString_eq (h : nul ∉ s.toList) : cString s = s.toList := by
  rw [cString, List.takeWhile_eq_self_iff]
  intro c hc
  exact decide_eq_true fun heq => h (heq ▸ hc)

/-- A text denotes a number if C reads that number and the text does not go on behind it. -/
theorem hexNumber_toList :
    hexNumber limit s.toList = some n ↔ hexNumber limit (cString s) = some n ∧ nul ∉ s.toList := by
  constructor
  · intro h
    obtain ⟨ds, hds, -⟩ := hexNumber_eq_some.mp h
    have hnul := nul_notMem_of_skip (digitsOf_spec hds).2.2
    exact ⟨(cString_eq hnul).symm ▸ h, hnul⟩
  · rintro ⟨h, hnul⟩
    exact cString_eq hnul ▸ h

/-- The bytes that a text denotes: a prefix at will, then pairs of digits. -/
def hexBytes (hex : List Char) : Option Bytes := decodePairs (skip0xPrefix hex)

theorem shift_or (h : ℕ) {l : ℕ} (hl : l < 16) : (h <<< 4) ||| l = 16 * h + l := by
  rw [← Nat.shiftLeft_add_eq_or_of_lt hl, Nat.shiftLeft_eq, Nat.mul_comm]

theorem nibbles_ofNat {h l : ℕ} (hh : h < 16) (hl : l < 16) :
    nibbles (UInt8.ofNat ((h <<< 4) ||| l)) = [h, l] := by
  have hnat : (UInt8.ofNat ((h <<< 4) ||| l)).toNat = 16 * h + l := by
    rw [shift_or h hl, UInt8.toNat_ofNat', Nat.mod_eq_of_lt (by omega)]
  rw [nibbles, hnat]
  congr 1
  · omega
  · congr 1
    omega

theorem ofNat_nibbles (b : UInt8) : UInt8.ofNat (((b.toNat / 16) <<< 4) ||| b.toNat % 16) = b := by
  rw [shift_or _ (Nat.mod_lt _ (by decide)), Nat.div_add_mod, UInt8.ofNat_toNat]

/-- Pairs of digits are the nibbles of the bytes. -/
theorem decodePairs_eq_some :
    decodePairs hex = some bytes ↔ digitsOf hex = some (bytes.flatMap nibbles) := by
  induction hex using decodePairs.induct generalizing bytes with
  | case1 =>
    cases bytes with
    | nil => exact iff_of_true rfl rfl
    | cons b rest => exact iff_of_false (by rintro ⟨⟩) (by rintro ⟨⟩)
  | case2 c =>
    refine iff_of_false (by rintro ⟨⟩) fun h => ?_
    have hlength := (digitsOf_spec h).1
    rw [nibbles_length, List.length_singleton] at hlength
    omega
  | case3 high low rest ih =>
    rw [decodePairs]
    constructor
    · intro h
      obtain ⟨x, hx, h⟩ := Option.bind_eq_some_iff.mp h
      obtain ⟨y, hy, h⟩ := Option.bind_eq_some_iff.mp h
      obtain ⟨tail, htail, rfl⟩ := Option.map_eq_some_iff.mp h
      rw [List.flatMap_cons, nibbles_ofNat (hexCharToNibble_lt hx) (hexCharToNibble_lt hy),
        digitsOf_cons, hx, digitsOf_cons, hy, ih.mp htail]
      rfl
    · intro h
      obtain ⟨x, tail, hx, htail, heq⟩ := digitsOf_cons_eq_some.mp h
      obtain ⟨y, tail, hy, hdigits, rfl⟩ := digitsOf_cons_eq_some.mp htail
      cases bytes with
      | nil => exact absurd heq (by rintro ⟨⟩)
      | cons b bytes =>
        rw [List.flatMap_cons, nibbles] at heq
        simp only [List.cons_append, List.nil_append, List.cons.injEq] at heq
        obtain ⟨rfl, rfl, rfl⟩ := heq
        rw [hx, Option.bind_some, hy, Option.bind_some, ih.mpr hdigits, Option.map_some,
          ofNat_nibbles]

theorem hexBytes_toList :
    hexBytes s.toList = some bytes ↔ hexBytes (cString s) = some bytes ∧ nul ∉ s.toList := by
  constructor
  · intro h
    have hnul := nul_notMem_of_skip (digitsOf_spec (decodePairs_eq_some.mp h)).2.2
    exact ⟨(cString_eq hnul).symm ▸ h, hnul⟩
  · rintro ⟨h, hnul⟩
    exact cString_eq hnul ▸ h

theorem hexBytes_length (h : hexBytes hex = some bytes) : hexStrlen hex = 2 * bytes.length := by
  rw [hexStrlen, ← (digitsOf_spec (decodePairs_eq_some.mp h)).1, nibbles_length]

/-- `hex_decode` reads the bytes of a text if there are as many as asked for. -/
theorem hexDecode_eq_some :
    hexDecode hex n = some bytes ↔ hexBytes hex = some bytes ∧ bytes.length = n := by
  rw [hexDecode, Option.ite_none_left_eq_some, not_not, and_comm]
  refine and_congr_right fun h => ?_
  have hlength := hexBytes_length h
  rw [hexStrlen] at hlength
  omega

theorem hexBytes_hexEncode (bytes : Bytes) : hexBytes (hexEncode bytes).toList = some bytes := by
  rw [hexEncode, hexText, String.toList_ofList]
  exact decodePairs_eq_some.mpr (digitsOf_map_hexChar (nibbles_lt bytes))

end Texts

end Div0.Hex
