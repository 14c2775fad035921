import Div0.Buffer
import Div0.Hex
import Mathlib.Data.List.Forall2

/-!
JSON values as the library hands them over, with the fields of an object in their order,
and the helpers that read and write hex strings in them. A reader takes the first field of
a name. Strings are as C sees them; a character that is more than one byte is no hex digit.
-/

namespace Div0.JsonValues

open BigEndian Buffer Uint256 Hex

/-- A JSON value; the numbers themselves are read nowhere. -/
inductive Json where
  | null
  | bool (b : Bool)
  | num
  | str (s : String)
  | arr (items : List Json)
  | obj (fields : List (String × Json))

inductive JsonError where
  | parse
  | missingField
  | invalidType
  | invalidHex
  | overflow
  | alloc
  | file
  deriving DecidableEq

/-- `json_result_t` of a failure. -/
structure JsonErr where
  error : JsonError
  detail : String
  deriving DecidableEq

def Json.get (key : String) : Json → Option Json
  | .obj fields => fields.lookup key
  | _ => none

def Json.text : Json → Option (List Char)
  | .str s => some (cString s)
  | _ => none

def toAddress (bytes : Bytes) : Option Address :=
  if h : bytes.length = 20 then some ⟨bytes, h⟩ else none

def toHash (bytes : Bytes) : Option Hash :=
  if h : bytes.length = 32 then some ⟨bytes, h⟩ else none

section Reading

variable (alloc : Alloc) (val obj : Json) (key : String)

def jsonValHexU64 : Option UInt64 := val.text.bind hexDecodeU64

def jsonValHexUint256 (out : Word) : Bool × Word :=
  match val.text with
  | none => (false, out)
  | some hex => hexDecodeUint256 hex out

def jsonValHexAddress : Option Address :=
  (val.text.bind (hexDecode · 20)).bind toAddress

def jsonValHexHash : Option Hash :=
  (val.text.bind (hexDecode · 32)).bind toHash

def jsonValHexBytes : Option Bytes :=
  val.text.bind fun hex =>
    if hexStrlen hex = 0 then some []
    else if hexStrlen hex % 2 ≠ 0 then none
    else if alloc (hexStrlen hex / 2) = false then none
    else hexDecode hex (hexStrlen hex / 2)

def jsonGetHexU64 : Option UInt64 := (obj.get key).bind jsonValHexU64

def jsonGetHexUint256 (out : Word) : Bool × Word :=
  match obj.get key with
  | none => (false, out)
  | some val => jsonValHexUint256 val out

def jsonGetHexAddress : Option Address := (obj.get key).bind jsonValHexAddress

def jsonGetHexBytes : Option Bytes := (obj.get key).bind (jsonValHexBytes alloc)

end Reading

def jsonWriteHexU64 (val : UInt64) : Json := .str (hexEncodeU64 val)

def jsonWriteHexUint256 (val : Word) : Json := .str (hexEncodeUint256 val)

def jsonWriteHexUint256Padded (val : Word) : Json := .str (hexEncodeUint256Padded val)

def jsonWriteHexAddress (addr : Address) : Json := .str (hexEncode addr.bytes)

def jsonWriteHexHash (hash : Hash) : Json := .str (hexEncode hash.bytes)

def jsonWriteHexBytes (data : Bytes) : Json :=
  if data.length = 0 then .str "0x" else .str (hexEncode data)

section Texts

variable {s : String} {alloc : Alloc} {bytes : Bytes}

def denoteU64 (s : String) : Option UInt64 := (hexNumber 16 s.toList).map UInt64.ofNat

def denoteUint256 (s : String) : Option Word := (hexNumber 64 s.toList).map Word.ofNat

def denoteBytes (s : String) : Option Bytes := hexBytes s.toList

def denoteAddress (s : String) : Option Address := (denoteBytes s).bind toAddress

def denoteHash (s : String) : Option Hash := (denoteBytes s).bind toHash

theorem denoteU64_eq_some {v : UInt64} :
    denoteU64 s = some v ↔ jsonValHexU64 (.str s) = some v ∧ nul ∉ s.toList := by
  have hread : jsonValHexU64 (.str s) = (hexNumber 16 (cString s)).map UInt64.ofNat :=
    hexDecodeU64_eq _
  rw [denoteU64, hread, Option.map_eq_some_iff, Option.map_eq_some_iff]
  constructor
  · rintro ⟨n, hn, rfl⟩
    obtain ⟨hc, hnul⟩ := hexNumber_toList.mp hn
    exact ⟨⟨n, hc, rfl⟩, hnul⟩
  · rintro ⟨⟨n, hc, rfl⟩, hnul⟩
    exact ⟨n, hexNumber_toList.mpr ⟨hc, hnul⟩, rfl⟩

/-- A number of 256 bits is read as it is denoted, and left behind only then as a success. -/
theorem denoteUint256_eq_some {v out : Word} :
    denoteUint256 s = some v ↔ jsonValHexUint256 (.str s) out = (true, v) ∧ nul ∉ s.toList := by
  have hread : jsonValHexUint256 (.str s) out = hexDecodeUint256 (cString s) out := rfl
  rw [denoteUint256, hread, Option.map_eq_some_iff]
  constructor
  · rintro ⟨n, hn, rfl⟩
    obtain ⟨hc, hnul⟩ := hexNumber_toList.mp hn
    exact ⟨hexDecodeUint256_of_some hc out, hnul⟩
  · rintro ⟨hc, hnul⟩
    cases hnumber : hexNumber 64 (cString s) with
    | none =>
      have hfalse := hexDecodeUint256_of_none hnumber out
      rw [hc] at hfalse
      exact absurd hfalse Bool.noConfusion
    | some n =>
      rw [hexDecodeUint256_of_some hnumber] at hc
      exact ⟨n, hexNumber_toList.mpr ⟨hnumber, hnul⟩, (Prod.mk.inj hc).2⟩

theorem toAddress_eq_some {addr : Address} : toAddress bytes = some addr ↔ bytes = addr.bytes := by
  rw [toAddress]
  split
  · rw [Option.some.injEq, Address.ext_iff]
  · next h => exact iff_of_false (by rintro ⟨⟩) fun heq => h (heq ▸ addr.size_eq)

theorem toHash_eq_some {hash : Hash} : toHash bytes = some hash ↔ bytes = hash.bytes := by
  rw [toHash]
  split
  · rw [Option.some.injEq, Hash.ext_iff]
  · next h => exact iff_of_false (by rintro ⟨⟩) fun heq => h (heq ▸ hash.size_eq)

theorem jsonValHexAddress_eq_some {addr : Address} :
    jsonValHexAddress (.str s) = some addr ↔ hexBytes (cString s) = some addr.bytes := by
  rw [jsonValHexAddress, Json.text, Option.bind_some, Option.bind_eq_some_iff]
  simp only [toAddress_eq_some, hexDecode_eq_some]
  constructor
  · rintro ⟨_, ⟨h, -⟩, rfl⟩
    exact h
  · exact fun h => ⟨_, ⟨h, addr.size_eq⟩, rfl⟩

theorem jsonValHexHash_eq_some {hash : Hash} :
    jsonValHexHash (.str s) = some hash ↔ hexBytes (cString s) = some hash.bytes := by
  rw [jsonValHexHash, Json.text, Option.bind_some, Option.bind_eq_some_iff]
  simp only [toHash_eq_some, hexDecode_eq_some]
  constructor
  · rintro ⟨_, ⟨h, -⟩, rfl⟩
    exact h
  · exact fun h => ⟨_, ⟨h, hash.size_eq⟩, rfl⟩

/-- Bytes are read if there is room for them. -/
theorem jsonValHexBytes_eq_some :
    jsonValHexBytes alloc (.str s) = some bytes ↔
      hexBytes (cString s) = some bytes ∧ (bytes.length ≠ 0 → alloc bytes.length = true) := by
  rw [jsonValHexBytes, Json.text, Option.bind_some]
  by_cases hempty : hexStrlen (cString s) = 0
  · have hbytes : hexBytes (cString s) = some [] := by
      rw [hexBytes, List.eq_nil_of_length_eq_zero hempty]
      rfl
    rw [if_pos hempty, hbytes, Option.some.injEq]
    exact ⟨fun h => ⟨h, fun hne => absurd (h ▸ rfl) hne⟩, fun h => h.1⟩
  · rw [if_neg hempty]
    simp only [Option.ite_none_left_eq_some, hexDecode_eq_some, not_not, Bool.not_eq_false]
    constructor
    · rintro ⟨-, halloc, hbytes, hlength⟩
      exact ⟨hbytes, fun _ => hlength ▸ halloc⟩
    · rintro ⟨hbytes, halloc⟩
      have hlength := hexBytes_length hbytes
      have hhalf : hexStrlen (cString s) / 2 = bytes.length := by omega
      exact ⟨by omega, hhalf ▸ halloc (by omega), hbytes, hhalf.symm⟩

theorem denoteBytes_eq_some :
    denoteBytes s = some bytes ↔ hexBytes (cString s) = some bytes ∧ nul ∉ s.toList :=
  hexBytes_toList

theorem denoteAddress_eq_some {addr : Address} :
    denoteAddress s = some addr ↔ jsonValHexAddress (.str s) = some addr ∧ nul ∉ s.toList := by
  rw [jsonValHexAddress_eq_some, ← denoteBytes_eq_some, denoteAddress, Option.bind_eq_some_iff]
  simp only [toAddress_eq_some]
  constructor
  · rintro ⟨_, h, rfl⟩
    exact h
  · exact fun h => ⟨_, h, rfl⟩

theorem denoteHash_eq_some {hash : Hash} :
    denoteHash s = some hash ↔ jsonValHexHash (.str s) = some hash ∧ nul ∉ s.toList := by
  rw [jsonValHexHash_eq_some, ← denoteBytes_eq_some, denoteHash, Option.bind_eq_some_iff]
  simp only [toHash_eq_some]
  constructor
  · rintro ⟨_, h, rfl⟩
    exact h
  · exact fun h => ⟨_, h, rfl⟩

end Texts

section RoundTrips

@[simp] theorem jsonValHexU64_write (v : UInt64) : jsonValHexU64 (jsonWriteHexU64 v) = some v := by
  refine (denoteU64_eq_some.mp ?_).1
  rw [denoteU64, hexNumber_hexEncodeU64, Option.map_some, UInt64.ofNat_toNat]

@[simp] theorem jsonValHexUint256_write (v out : Word) :
    jsonValHexUint256 (jsonWriteHexUint256 v) out = (true, v) := by
  refine (denoteUint256_eq_some.mp ?_).1
  rw [denoteUint256, hexNumber_hexEncodeUint256, Option.map_some, Word.ofNat_toNat]

@[simp] theorem jsonValHexUint256_writePadded (v out : Word) :
    jsonValHexUint256 (jsonWriteHexUint256Padded v) out = (true, v) := by
  refine (denoteUint256_eq_some.mp ?_).1
  rw [denoteUint256, hexNumber_hexEncodeUint256Padded, Option.map_some, Word.ofNat_toNat]

theorem hexBytes_cString_hexEncode (bytes : Bytes) :
    hexBytes (cString (hexEncode bytes)) = some bytes :=
  (hexBytes_toList.mp (hexBytes_hexEncode bytes)).1

@[simp] theorem jsonValHexAddress_write (addr : Address) :
    jsonValHexAddress (jsonWriteHexAddress addr) = some addr :=
  jsonValHexAddress_eq_some.mpr (hexBytes_cString_hexEncode addr.bytes)

@[simp] theorem jsonValHexHash_write (hash : Hash) :
    jsonValHexHash (jsonWriteHexHash hash) = some hash :=
  jsonValHexHash_eq_some.mpr (hexBytes_cString_hexEncode hash.bytes)

theorem jsonValHexBytes_write {alloc : Alloc} {bytes : Bytes}
    (h : bytes.length ≠ 0 → alloc bytes.length = true) :
    jsonValHexBytes alloc (jsonWriteHexBytes bytes) = some bytes := by
  have hwrite : jsonWriteHexBytes bytes = .str (hexEncode bytes) := by
    rw [jsonWriteHexBytes]
    split
    · next hzero => rw [List.eq_nil_of_length_eq_zero hzero]; rfl
    · rfl
  rw [hwrite, jsonValHexBytes_eq_some]
  exact ⟨hexBytes_cString_hexEncode bytes, h⟩

end RoundTrips

section Results

variable {ε α β : Type}

theorem bind_eq_ok {x : Except ε α} {f : α → Except ε β} {b : β} :
    (x >>= f) = .ok b ↔ ∃ a, x = .ok a ∧ f a = .ok b := by
  cases x with
  | error e => exact iff_of_false (by rintro ⟨⟩) (by rintro ⟨a, ⟨⟩, -⟩)
  | ok a =>
    constructor
    · exact fun h => ⟨a, rfl, h⟩
    · rintro ⟨_, ⟨⟩, h⟩
      exact h

theorem map_eq_ok {x : Except ε α} {f : α → β} {b : β} :
    f <$> x = .ok b ↔ ∃ a, x = .ok a ∧ f a = b := by
  cases x with
  | error e => exact iff_of_false (by rintro ⟨⟩) (by rintro ⟨a, ⟨⟩, -⟩)
  | ok a =>
    constructor
    · exact fun h => ⟨a, rfl, Except.ok.inj h⟩
    · rintro ⟨_, ⟨⟩, rfl⟩
      rfl

/-- A loop that stops at the first error gives one result for each element. -/
theorem mapM_eq_ok {f : α → Except ε β} {l : List α} {r : List β} :
    l.mapM f = .ok r ↔ List.Forall₂ (fun a b => f a = .ok b) l r := by
  induction l generalizing r with
  | nil =>
    rw [List.mapM_nil, List.forall₂_nil_left_iff]
    exact ⟨fun h => (Except.ok.inj h).symm, fun h => congrArg _ h.symm⟩
  | cons a l ih =>
    rw [List.mapM_cons, bind_eq_ok]
    constructor
    · rintro ⟨b, hb, h⟩
      obtain ⟨tail, htail, hr⟩ := bind_eq_ok.mp h
      obtain rfl := Except.ok.inj hr
      exact .cons hb (ih.mp htail)
    · intro h
      cases h with
      | cons hb hrest => exact ⟨_, hb, bind_eq_ok.mpr ⟨_, ih.mpr hrest, rfl⟩⟩

end Results

end Div0.JsonValues
