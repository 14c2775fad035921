import Div0.T8nCommand
import Div0.TxJsonStrict
import Mathlib.Data.Nat.Digits.Lemmas

/-!
The block hashes of the environment. A key is first read as a hexadecimal number, with or
without a prefix, and as a decimal number only if that fails. A decimal numeral of two to
sixteen digits is a hexadecimal one as well, of a larger number, so its hash is entered
under the wrong block.
-/

namespace Div0.EnvJson

open Buffer Uint256 Hexadecimal Hex JsonValues TxJson TxJsonRoundTrip TxJsonStrict T8nCommand

/-- `strtoull` in base ten: the number, and the text from its end on. -/
abbrev Strtoull := List Char → UInt64 × List Char

section Parsing

variable (alloc : Alloc) (strtoull : Strtoull)

def parseBlockNumber (numStr : List Char) : Option UInt64 :=
  match hexDecodeU64 numStr with
  | some number => some number
  | none => if (strtoull numStr).2 = [] then some (strtoull numStr).1 else none

def parseBlockHash (field : String × Json) : Except JsonErr (UInt64 × Hash) := do
  let number ← required (parseBlockNumber strtoull (cString field.1)) .invalidHex
    "invalid block number key"
  let hash ← required (jsonValHexHash field.2) .invalidHex "invalid block hash value"
  pure (number, hash)

def parseBlockHashes (obj : Json) : Except JsonErr (List (UInt64 × Hash)) :=
  match obj.get "blockHashes" with
  | some (.obj fields) => do
    allocArray alloc fields.length 64 "failed to allocate block hashes"
    fields.mapM (parseBlockHash strtoull)
  | _ => .ok []

end Parsing

def numeral (base n : ℕ) : List ℕ := if n = 0 then [0] else (Nat.digits base n).reverse

def decimalKey (n : UInt64) : String := String.ofList ((numeral 10 n.toNat).map hexChar)

/-- A hexadecimal numeral of a block number, with letters of either case. -/
def IsHexKey (key : String) (n : UInt64) : Prop :=
  ∃ digits, key.toList = '0' :: 'x' :: digits ∧ digitsOf digits = some (numeral 16 n.toNat)

/-- `strtoull` reads the decimal numerals of 64 bits. -/
def ReadsDecimals (strtoull : Strtoull) : Prop :=
  ∀ n : UInt64, strtoull (decimalKey n).toList = (n, [])

/-- Field `i` is entered under the number `n`, where the callback finds its hash unless an
earlier entry has that number. -/
def EnteredUnder (hashes : List (UInt64 × Hash)) (i : ℕ) (val : Json) (n : UInt64) : Prop :=
  ∃ hash, jsonValHexHash val = some hash ∧ hashes[i]? = some (n, hash) ∧
    ((∀ entry ∈ hashes.take i, entry.1 ≠ n) → getBlockHashCb hashes n = some hash)

section Numerals

theorem ofDigits_numeral (base n : ℕ) : Nat.ofDigits base (numeral base n).reverse = n := by
  rw [numeral]
  split
  · next hzero => rw [hzero]; rfl
  · rw [List.reverse_reverse, Nat.ofDigits_digits]

theorem value_numeral (n : ℕ) : value (numeral 16 n) = n :=
  (value_eq_ofDigits _).trans (ofDigits_numeral 16 n)

theorem numeral_ne_nil (base n : ℕ) : numeral base n ≠ [] := by
  rw [numeral]
  split
  · exact List.cons_ne_nil _ _
  · next hpos =>
    rw [Ne, List.reverse_eq_nil_iff, Nat.digits_eq_nil_iff_eq_zero]
    exact hpos

theorem numeral_lt {base : ℕ} (hbase : 1 < base) (n : ℕ) : ∀ d ∈ numeral base n, d < base := by
  intro d hd
  rw [numeral] at hd
  split at hd
  · rw [List.mem_singleton.mp hd]
    omega
  · exact Nat.digits_lt_base hbase (List.mem_reverse.mp hd)

theorem numeral_length_le {base : ℕ} (hbase : 1 < base) {n k : ℕ} (hk : 0 < k) :
    (numeral base n).length ≤ k ↔ n < base ^ k := by
  rw [numeral]
  split
  · next hzero =>
    rw [hzero]
    exact iff_of_true hk (Nat.pow_pos (by omega))
  · rw [List.length_reverse, Nat.digits_length_le_iff hbase]

/-- Decimal digits read in base 16 give a larger number, unless there is only one. -/
theorem value_decimal (n : ℕ) : value (numeral 10 n) = n ↔ n < 10 := by
  rw [numeral]
  split
  · next hzero =>
    rw [hzero]
    exact iff_of_true rfl (by norm_num)
  · next hpos =>
    have hmono : Nat.ofDigits 10 (Nat.digits 10 (n / 10)) ≤
        Nat.ofDigits 16 (Nat.digits 10 (n / 10)) := Nat.ofDigits_monotone _ (by norm_num)
    rw [Nat.ofDigits_digits] at hmono
    rw [value_eq_ofDigits, List.reverse_reverse,
      Nat.digits_def' (by norm_num) (Nat.pos_of_ne_zero hpos), Nat.ofDigits_cons]
    constructor
    · intro heq
      omega
    · intro hlt
      rw [Nat.div_eq_of_lt hlt, Nat.digits_zero, Nat.ofDigits_nil, Nat.mod_eq_of_lt hlt]
      rfl

theorem value_decimal_lt {n : ℕ} (h : n < 10 ^ 16) : value (numeral 10 n) < 2 ^ 64 := by
  have hlt := Nat.ofDigits_lt_base_pow_length (b := 16) (l := (numeral 10 n).reverse) (by norm_num)
    fun d hd => (numeral_lt (by norm_num) n d (List.mem_reverse.mp hd)).trans (by norm_num)
  rw [← value_eq_ofDigits, List.length_reverse] at hlt
  calc value (numeral 10 n) < 16 ^ (numeral 10 n).length := hlt
    _ ≤ 16 ^ 16 := Nat.pow_le_pow_right (by norm_num)
        ((numeral_length_le (by norm_num) (by norm_num)).mpr h)
    _ = 2 ^ 64 := by norm_num

/-- No digit is taken for the letter of a prefix. -/
theorem skip0xPrefix_digits {ds : List ℕ} (h : ∀ d ∈ ds, d < 16) :
    skip0xPrefix (ds.map hexChar) = ds.map hexChar := by
  have hletter : ∀ d < 16, hexChar d ≠ 'x' ∧ hexChar d ≠ 'X' := by decide
  have hmem : ∀ c ∈ ds.map hexChar, c ≠ 'x' ∧ c ≠ 'X' := by
    intro c hc
    obtain ⟨d, hd, rfl⟩ := List.mem_map.mp hc
    exact hletter d (h d hd)
  generalize ds.map hexChar = text at hmem ⊢
  unfold skip0xPrefix
  split
  · exact absurd rfl (hmem 'x' (by simp)).1
  · exact absurd rfl (hmem 'X' (by simp)).2
  · rfl

end Numerals

section Keys

variable {strtoull : Strtoull} {key : String} {n : UInt64}

theorem decimalKey_digits (n : UInt64) : ∀ d ∈ numeral 10 n.toNat, d < 16 := fun d hd =>
  (numeral_lt (by norm_num) n.toNat d hd).trans (by norm_num)

theorem skip0xPrefix_decimalKey (n : UInt64) :
    skip0xPrefix (decimalKey n).toList = (decimalKey n).toList := by
  rw [decimalKey, String.toList_ofList, skip0xPrefix_digits (decimalKey_digits n)]

theorem digitsOf_decimalKey (n : UInt64) :
    digitsOf (decimalKey n).toList = some (numeral 10 n.toNat) := by
  rw [decimalKey, String.toList_ofList, digitsOf_map_hexChar (decimalKey_digits n)]

theorem parseBlockNumber_hexKey (h : IsHexKey key n) :
    parseBlockNumber strtoull (cString key) = some n := by
  obtain ⟨digits, hkey, hdigits⟩ := h
  have hnumber : hexNumber 16 key.toList = some n.toNat := by
    rw [hkey]
    exact hexNumber_eq_some.mpr ⟨_, hdigits, numeral_ne_nil _ _,
      (numeral_length_le (by norm_num) (by norm_num)).mpr n.toNat_lt, value_numeral _⟩
  rw [parseBlockNumber, hexDecodeU64_eq, (hexNumber_toList.mp hnumber).1, Option.map_some,
    UInt64.ofNat_toNat]

/-- A decimal numeral of at most sixteen digits is read in base 16. -/
theorem parseBlockNumber_decimalKey (hread : ReadsDecimals strtoull) (n : UInt64) :
    parseBlockNumber strtoull (cString (decimalKey n)) =
      some (if n.toNat < 10 ^ 16 then UInt64.ofNat (value (numeral 10 n.toNat)) else n) := by
  have hdigits : digitsOf (skip0xPrefix (decimalKey n).toList) = some (numeral 10 n.toNat) := by
    rw [skip0xPrefix_decimalKey, digitsOf_decimalKey]
  have hstring : cString (decimalKey n) = (decimalKey n).toList :=
    cString_eq (digitsOf_spec (digitsOf_decimalKey n)).2.2
  have hlength : (numeral 10 n.toNat).length ≤ 16 ↔ n.toNat < 10 ^ 16 :=
    numeral_length_le (by norm_num) (by norm_num)
  rw [parseBlockNumber, hexDecodeU64_eq, hstring]
  by_cases hshort : n.toNat < 10 ^ 16
  · have hnumber := hexNumber_eq_some.mpr
      ⟨_, hdigits, numeral_ne_nil _ _, hlength.mpr hshort, rfl⟩
    rw [hnumber, if_pos hshort]
    rfl
  · have hnone : hexNumber 16 (decimalKey n).toList = none := by
      rw [hexNumber, if_pos]
      rw [← (digitsOf_spec hdigits).1]
      exact Or.inr (not_le.mp (mt hlength.mp hshort))
    rw [hnone, hread n, if_neg hshort]
    rfl

theorem parseBlockNumber_decimalKey_iff (hread : ReadsDecimals strtoull) (n : UInt64) :
    parseBlockNumber strtoull (cString (decimalKey n)) = some n ↔
      n.toNat < 10 ∨ 10 ^ 16 ≤ n.toNat := by
  rw [parseBlockNumber_decimalKey hread, Option.some_inj]
  split
  · next hshort =>
    rw [← value_decimal, ← UInt64.toNat_inj, UInt64.toNat_ofNat',
      Nat.mod_eq_of_lt (value_decimal_lt hshort), or_iff_left (not_le.mpr hshort)]
  · next hlong => exact iff_of_true rfl (Or.inr (not_lt.mp hlong))

theorem parseBlockHash_eq_ok {field : String × Json} {hash : Hash} :
    parseBlockHash strtoull field = .ok (n, hash) ↔
      parseBlockNumber strtoull (cString field.1) = some n ∧ jsonValHexHash field.2 = some hash := by
  constructor
  · intro h
    obtain ⟨number, hnumber, h⟩ := bind_eq_ok.mp h
    obtain ⟨hash', hhash, hpair⟩ := bind_eq_ok.mp h
    obtain ⟨rfl, rfl⟩ := Prod.mk.inj (Except.ok.inj hpair)
    exact ⟨required_eq_ok.mp hnumber, required_eq_ok.mp hhash⟩
  · rintro ⟨hnumber, hhash⟩
    exact bind_eq_ok.mpr ⟨n, required_eq_ok.mpr hnumber,
      bind_eq_ok.mpr ⟨hash, required_eq_ok.mpr hhash, rfl⟩⟩

end Keys

section Entries

variable {strtoull : Strtoull} {fields : List (String × Json)} {hashes : List (UInt64 × Hash)}

/-- The entry of a field stands at its index. -/
theorem entry_of_field (h : fields.mapM (parseBlockHash strtoull) = .ok hashes) {i : ℕ}
    {field : String × Json} (hfield : fields[i]? = some field) :
    ∃ n hash, hashes[i]? = some (n, hash) ∧
      parseBlockNumber strtoull (cString field.1) = some n ∧
      jsonValHexHash field.2 = some hash := by
  obtain ⟨hi, rfl⟩ := List.getElem?_eq_some_iff.mp hfield
  obtain ⟨hlength, hget⟩ := List.forall₂_iff_get.mp (mapM_eq_ok.mp h)
  refine ⟨(hashes.get ⟨i, hlength ▸ hi⟩).1, (hashes.get ⟨i, hlength ▸ hi⟩).2,
    List.getElem?_eq_getElem _, parseBlockHash_eq_ok.mp (hget i hi _)⟩

theorem getBlockHashCb_first {i : ℕ} {n : UInt64} {hash : Hash} (hi : hashes[i]? = some (n, hash))
    (hfirst : ∀ entry ∈ hashes.take i, entry.1 ≠ n) : getBlockHashCb hashes n = some hash := by
  unfold getBlockHashCb
  induction hashes generalizing i with
  | nil => exact absurd hi (by simp)
  | cons entry rest ih =>
    cases i with
    | zero =>
      obtain rfl := Option.some.inj hi
      exact List.lookup_cons_self
    | succ i =>
      obtain ⟨hne, hrest⟩ := List.forall_mem_cons.mp hfirst
      rw [List.lookup_cons, beq_eq_false_iff_ne.mpr hne.symm]
      exact ih hi hrest

/-- An array whose elements are all accepted is accepted. -/
theorem mapM_parse_ok (h : ∀ field ∈ fields, ∃ entry, parseBlockHash strtoull field = .ok entry) :
    ∃ hashes, fields.mapM (parseBlockHash strtoull) = .ok hashes := by
  simp only [mapM_eq_ok]
  induction fields with
  | nil => exact ⟨[], .nil⟩
  | cons field rest ih =>
    obtain ⟨⟨entry, hentry⟩, hrest⟩ := List.forall_mem_cons.mp h
    obtain ⟨hashes, hhashes⟩ := ih hrest
    exact ⟨entry :: hashes, .cons hentry hhashes⟩

end Entries

/-- The numerals of block numbers are accepted as keys. They are entered under their numbers
exactly if no decimal one has two to sixteen digits. -/
theorem blockHashes_numbers_iff {strtoull : Strtoull} (hread : ReadsDecimals strtoull)
    (alloc : Alloc) {obj : Json} {fields : List (String × Json)}
    (hobj : obj.get "blockHashes" = some (.obj fields)) :
    ((fields.length * 64 ≠ 0 → alloc (fields.length * 64) = true) →
        (∀ field ∈ fields, (∃ n, field.1 = decimalKey n ∨ IsHexKey field.1 n) ∧
          (jsonValHexHash field.2).isSome) →
        ∃ hashes, parseBlockHashes alloc strtoull obj = .ok hashes) ∧
      ∀ hashes, parseBlockHashes alloc strtoull obj = .ok hashes →
        ((∀ i field n, fields[i]? = some field →
            field.1 = decimalKey n ∨ IsHexKey field.1 n → EnteredUnder hashes i field.2 n) ↔
          ∀ field ∈ fields, ∀ n, field.1 = decimalKey n → n.toNat < 10 ∨ 10 ^ 16 ≤ n.toNat) := by
  rw [parseBlockHashes, hobj]
  constructor
  · intro halloc hfields
    have hall : ∀ field ∈ fields, ∃ entry, parseBlockHash strtoull field = .ok entry := by
      intro field hfield
      obtain ⟨⟨n, hkey⟩, hvalue⟩ := hfields field hfield
      obtain ⟨hash, hhash⟩ := Option.isSome_iff_exists.mp hvalue
      have hnumber : ∃ m, parseBlockNumber strtoull (cString field.1) = some m := by
        rcases hkey with hkey | hkey
        · exact ⟨_, hkey ▸ parseBlockNumber_decimalKey hread n⟩
        · exact ⟨n, parseBlockNumber_hexKey hkey⟩
      obtain ⟨m, hm⟩ := hnumber
      exact ⟨(m, hash), parseBlockHash_eq_ok.mpr ⟨hm, hhash⟩⟩
    obtain ⟨hashes, hhashes⟩ := mapM_parse_ok hall
    exact ⟨hashes, bind_eq_ok.mpr ⟨(), allocArray_ok (by norm_num) halloc, hhashes⟩⟩
  · intro hashes hparse
    obtain ⟨-, -, hmap⟩ := bind_eq_ok.mp hparse
    constructor
    · intro hentered field hfield n hkey
      obtain ⟨i, hi⟩ := List.mem_iff_getElem?.mp hfield
      obtain ⟨hash, -, hentry, -⟩ := hentered i field n hi (Or.inl hkey)
      obtain ⟨m, hash', hentry', hnumber, -⟩ := entry_of_field hmap hi
      obtain ⟨rfl, rfl⟩ := Prod.mk.inj (Option.some.inj (hentry.symm.trans hentry'))
      exact (parseBlockNumber_decimalKey_iff hread n).mp (hkey ▸ hnumber)
    · intro hshort i field n hi hkey
      obtain ⟨m, hash, hentry, hnumber, hhash⟩ := entry_of_field hmap hi
      have hn : parseBlockNumber strtoull (cString field.1) = some n := by
        rcases hkey with hkey | hkey
        · rw [hkey]
          exact (parseBlockNumber_decimalKey_iff hread n).mpr
            (hshort field (List.mem_of_getElem? hi) n hkey)
        · exact parseBlockNumber_hexKey hkey
      obtain rfl := Option.some.inj (hnumber.symm.trans hn)
      exact ⟨hash, hhash, hentry, getBlockHashCb_first hentry⟩

def decimalReader : Strtoull := fun text =>
  (UInt64.ofNat (Nat.ofDigits 10 ((digitsOf text).getD []).reverse), [])

theorem readsDecimals_decimalReader : ReadsDecimals decimalReader := by
  intro n
  rw [decimalReader, digitsOf_decimalKey, Option.getD_some, ofDigits_numeral,
    UInt64.ofNat_toNat]

def someHash : Hash := ⟨List.replicate 32 1, List.length_replicate⟩

def oneBlockHash (key : String) : Json :=
  .obj [("blockHashes", .obj [(key, jsonWriteHexHash someHash)])]

theorem oneBlockHash_get (key : String) : (oneBlockHash key).get "blockHashes" =
    some (.obj [(key, jsonWriteHexHash someHash)]) := rfl

/-- A number of one digit. -/
theorem blockHashes_numbers_iff_digit :
    ∃ hashes, parseBlockHashes arenaAlloc decimalReader (oneBlockHash (decimalKey 7)) = .ok hashes ∧
      EnteredUnder hashes 0 (jsonWriteHexHash someHash) 7 := by
  obtain ⟨haccept, hentered⟩ := blockHashes_numbers_iff readsDecimals_decimalReader arenaAlloc
    (oneBlockHash_get (decimalKey 7))
  have hone : ∀ field ∈ [(decimalKey 7, jsonWriteHexHash someHash)],
      field = (decimalKey 7, jsonWriteHexHash someHash) := fun field => List.eq_of_mem_singleton
  obtain ⟨hashes, hhashes⟩ := haccept (fun _ => by decide) fun field hfield => by
    rw [hone field hfield]
    exact ⟨⟨7, Or.inl rfl⟩, by rw [jsonValHexHash_write]; rfl⟩
  refine ⟨hashes, hhashes, (hentered hashes hhashes).mpr (fun field hfield n hkey => ?_) 0 _ 7 rfl
    (Or.inl rfl)⟩
  rw [hone field hfield] at hkey
  have hread := readsDecimals_decimalReader n
  rw [← hkey, readsDecimals_decimalReader 7] at hread
  rw [← (Prod.mk.inj hread).1]
  exact Or.inl (by decide)

/-- The hash of block 10 is entered under the number 16. -/
theorem ten_read_as_sixteen : decimalKey 10 = "10" ∧
    parseBlockHashes arenaAlloc decimalReader (oneBlockHash "10") = .ok [(16, someHash)] ∧
      getBlockHashCb [(16, someHash)] 10 = none := by
  have hdigits : numeral 10 (10 : UInt64).toNat = [1, 0] := by simp [numeral]
  have hkey : decimalKey 10 = "10" := by
    rw [decimalKey, hdigits]
    decide
  have hnumber := parseBlockNumber_decimalKey readsDecimals_decimalReader 10
  rw [hdigits, hkey, if_pos (by decide)] at hnumber
  refine ⟨hkey, bind_eq_ok.mpr ⟨(), rfl, mapM_eq_ok.mpr (.cons ?_ .nil)⟩, rfl⟩
  exact parseBlockHash_eq_ok.mpr ⟨hnumber, jsonValHexHash_write someHash⟩

end Div0.EnvJson
