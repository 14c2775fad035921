import Div0.BigEndian

/-!
The 256-bit words of the virtual machine: four little-endian limbs of 64 bits.
Addition and subtraction pass a carry from limb to limb, multiplication adds up the
partial products by columns. Each operation has one lemma that says what it does to
the number the limbs stand for.
-/

namespace Div0.Uint256

open BigEndian

/-- `uint256_t`; `limb0` is the least significant limb. -/
@[ext] structure Word where
  limb0 : UInt64
  limb1 : UInt64
  limb2 : UInt64
  limb3 : UInt64
  deriving DecidableEq, Repr, Inhabited

def Word.toNat (a : Word) : ℕ :=
  a.limb0.toNat + 2 ^ 64 * (a.limb1.toNat + 2 ^ 64 * (a.limb2.toNat + 2 ^ 64 * a.limb3.toNat))

def Word.ofNat (n : ℕ) : Word :=
  ⟨UInt64.ofNat n, UInt64.ofNat (n / 2 ^ 64), UInt64.ofNat (n / 2 ^ 128),
    UInt64.ofNat (n / 2 ^ 192)⟩

theorem Word.toNat_lt (a : Word) : a.toNat < 2 ^ 256 := by
  have h0 := a.limb0.toNat_lt
  have h1 := a.limb1.toNat_lt
  have h2 := a.limb2.toNat_lt
  have h3 := a.limb3.toNat_lt
  unfold Word.toNat
  omega

theorem Word.toNat_injective {a b : Word} (h : a.toNat = b.toNat) : a = b := by
  have ha0 := a.limb0.toNat_lt
  have ha1 := a.limb1.toNat_lt
  have ha2 := a.limb2.toNat_lt
  have hb0 := b.limb0.toNat_lt
  have hb1 := b.limb1.toNat_lt
  have hb2 := b.limb2.toNat_lt
  unfold Word.toNat at h
  apply Word.ext <;> apply UInt64.toNat_inj.mp <;> omega

theorem Word.toNat_ofNat (n : ℕ) : (Word.ofNat n).toNat = n % 2 ^ 256 := by
  simp only [Word.toNat, Word.ofNat, UInt64.toNat_ofNat']
  omega

theorem Word.toNat_ofNat_of_lt {n : ℕ} (h : n < 2 ^ 256) : (Word.ofNat n).toNat = n := by
  rw [Word.toNat_ofNat, Nat.mod_eq_of_lt h]

theorem Word.ofNat_toNat (a : Word) : Word.ofNat a.toNat = a :=
  Word.toNat_injective (Word.toNat_ofNat_of_lt a.toNat_lt)

def uint256Zero : Word := ⟨0, 0, 0, 0⟩

def uint256FromU64 (value : UInt64) : Word := ⟨value, 0, 0, 0⟩

def uint256IsZero (a : Word) : Bool := (a.limb0 ||| a.limb1 ||| a.limb2 ||| a.limb3) == 0

def uint256FitsU64 (a : Word) : Bool := (a.limb1 ||| a.limb2 ||| a.limb3) == 0

def uint256ToU64Unsafe (a : Word) : UInt64 := a.limb0

def uint256Eq (a b : Word) : Bool :=
  ((a.limb0 ^^^ b.limb0) ||| (a.limb1 ^^^ b.limb1) ||| (a.limb2 ^^^ b.limb2) |||
    (a.limb3 ^^^ b.limb3)) == 0

def uint256Lt (a b : Word) : Bool :=
  if a.limb3 ≠ b.limb3 then a.limb3 < b.limb3
  else if a.limb2 ≠ b.limb2 then a.limb2 < b.limb2
  else if a.limb1 ≠ b.limb1 then a.limb1 < b.limb1
  else a.limb0 < b.limb0

/-- `__builtin_addcll`: the sum of two limbs and a carry, and the carry out. -/
def addc (a b : UInt64) (carry : ℕ) : UInt64 × ℕ :=
  (UInt64.ofNat (a.toNat + b.toNat + carry), (a.toNat + b.toNat + carry) / 2 ^ 64)

/-- `__builtin_subcll`: the difference of two limbs and a borrow, and the borrow out. -/
def subc (a b : UInt64) (borrow : ℕ) : UInt64 × ℕ :=
  (UInt64.ofNat (a.toNat + 2 ^ 64 - (b.toNat + borrow)),
    if a.toNat < b.toNat + borrow then 1 else 0)

def uint256Add (a b : Word) : Word :=
  let (r0, carry) := addc a.limb0 b.limb0 0
  let (r1, carry) := addc a.limb1 b.limb1 carry
  let (r2, carry) := addc a.limb2 b.limb2 carry
  let (r3, _) := addc a.limb3 b.limb3 carry
  ⟨r0, r1, r2, r3⟩

def uint256Sub (a b : Word) : Word :=
  let (r0, borrow) := subc a.limb0 b.limb0 0
  let (r1, borrow) := subc a.limb1 b.limb1 borrow
  let (r2, borrow) := subc a.limb2 b.limb2 borrow
  let (r3, _) := subc a.limb3 b.limb3 borrow
  ⟨r0, r1, r2, r3⟩

def wideMul (a b : UInt64) : ℕ := a.toNat * b.toNat

def low64 (p : ℕ) : ℕ := p % 2 ^ 64

def high64 (p : ℕ) : ℕ := p / 2 ^ 64

def uint256Mul (a b : Word) : Word :=
  let p00 := wideMul a.limb0 b.limb0
  let p01 := wideMul a.limb0 b.limb1
  let p10 := wideMul a.limb1 b.limb0
  let p02 := wideMul a.limb0 b.limb2
  let p11 := wideMul a.limb1 b.limb1
  let p20 := wideMul a.limb2 b.limb0
  let r0 := UInt64.ofNat p00
  let col1 := high64 p00 + low64 p01 + low64 p10
  let r1 := UInt64.ofNat col1
  let col2 := high64 col1 + high64 p01 + high64 p10 + low64 p02 + low64 p11 + low64 p20
  let r2 := UInt64.ofNat col2
  let r3 := UInt64.ofNat (high64 col2) + UInt64.ofNat (high64 p02) + UInt64.ofNat (high64 p11) +
    UInt64.ofNat (high64 p20) + a.limb0 * b.limb3 + a.limb1 * b.limb2 + a.limb2 * b.limb1 +
    a.limb3 * b.limb0
  ⟨r0, r1, r2, r3⟩

@[simp] theorem toNat_zero : uint256Zero.toNat = 0 := rfl

@[simp] theorem toNat_fromU64 (value : UInt64) : (uint256FromU64 value).toNat = value.toNat := by
  simp [uint256FromU64, Word.toNat]

theorem isZero_iff (a : Word) : uint256IsZero a = true ↔ a.toNat = 0 := by
  simp only [uint256IsZero, beq_iff_eq, UInt64.or_eq_zero_iff, Word.toNat]
  simp only [← UInt64.toNat_inj, UInt64.toNat_zero]
  omega

theorem eq_iff (a b : Word) : uint256Eq a b = true ↔ a = b := by
  simp only [uint256Eq, beq_iff_eq, UInt64.or_eq_zero_iff, UInt64.xor_eq_zero_iff, Word.ext_iff,
    and_assoc]

theorem fitsU64_iff (a : Word) : uint256FitsU64 a = true ↔ a.toNat < 2 ^ 64 := by
  have h0 := a.limb0.toNat_lt
  simp only [uint256FitsU64, beq_iff_eq, UInt64.or_eq_zero_iff, Word.toNat]
  simp only [← UInt64.toNat_inj, UInt64.toNat_zero]
  omega

theorem lt_iff (a b : Word) : uint256Lt a b = true ↔ a.toNat < b.toNat := by
  have ha0 := a.limb0.toNat_lt
  have ha1 := a.limb1.toNat_lt
  have ha2 := a.limb2.toNat_lt
  have hb0 := b.limb0.toNat_lt
  have hb1 := b.limb1.toNat_lt
  have hb2 := b.limb2.toNat_lt
  simp only [uint256Lt, Word.toNat, ne_eq, ← UInt64.toNat_inj, UInt64.lt_iff_toNat_lt]
  split
  · simp only [decide_eq_true_eq]
    omega
  · split
    · simp only [decide_eq_true_eq]
      omega
    · split
      · simp only [decide_eq_true_eq]
        omega
      · simp only [decide_eq_true_eq]
        omega

theorem addc_spec (a b : UInt64) (carry : ℕ) :
    (addc a b carry).1.toNat + 2 ^ 64 * (addc a b carry).2 = a.toNat + b.toNat + carry := by
  simp only [addc, UInt64.toNat_ofNat']
  omega

theorem subc_spec (a b : UInt64) {borrow : ℕ} (h : borrow ≤ 1) :
    (subc a b borrow).1.toNat + b.toNat + borrow = a.toNat + 2 ^ 64 * (subc a b borrow).2 ∧
      (subc a b borrow).2 ≤ 1 := by
  have ha := a.toNat_lt
  have hb := b.toNat_lt
  simp only [subc, UInt64.toNat_ofNat']
  split <;> omega

theorem toNat_add (a b : Word) : (uint256Add a b).toNat = (a.toNat + b.toNat) % 2 ^ 256 := by
  have hlt := (uint256Add a b).toNat_lt
  have h0 := addc_spec a.limb0 b.limb0 0
  have h1 := addc_spec a.limb1 b.limb1 (addc a.limb0 b.limb0 0).2
  have h2 := addc_spec a.limb2 b.limb2 (addc a.limb1 b.limb1 (addc a.limb0 b.limb0 0).2).2
  have h3 := addc_spec a.limb3 b.limb3
    (addc a.limb2 b.limb2 (addc a.limb1 b.limb1 (addc a.limb0 b.limb0 0).2).2).2
  simp only [uint256Add, Word.toNat] at *
  omega

theorem toNat_sub (a b : Word) :
    (uint256Sub a b).toNat = (a.toNat + 2 ^ 256 - b.toNat) % 2 ^ 256 := by
  have hlt := (uint256Sub a b).toNat_lt
  have ha := a.toNat_lt
  have hb := b.toNat_lt
  obtain ⟨h0, hle0⟩ := subc_spec a.limb0 b.limb0 (Nat.zero_le 1)
  obtain ⟨h1, hle1⟩ := subc_spec a.limb1 b.limb1 hle0
  obtain ⟨h2, hle2⟩ := subc_spec a.limb2 b.limb2 hle1
  obtain ⟨h3, hle3⟩ := subc_spec a.limb3 b.limb3 hle2
  simp only [uint256Sub, Word.toNat] at *
  omega

theorem toNat_sub_of_le {a b : Word} (h : b.toNat ≤ a.toNat) :
    (uint256Sub a b).toNat = a.toNat - b.toNat := by
  have ha := a.toNat_lt
  rw [toNat_sub]
  omega

/-- The limbs of a product, by columns. -/
theorem toNat_mul_toNat (a b : Word) : ∃ k, a.toNat * b.toNat =
    wideMul a.limb0 b.limb0 +
    2 ^ 64 * (wideMul a.limb0 b.limb1 + wideMul a.limb1 b.limb0) +
    2 ^ 128 * (wideMul a.limb0 b.limb2 + wideMul a.limb1 b.limb1 + wideMul a.limb2 b.limb0) +
    2 ^ 192 * (wideMul a.limb0 b.limb3 + wideMul a.limb1 b.limb2 + wideMul a.limb2 b.limb1 +
      wideMul a.limb3 b.limb0) + 2 ^ 256 * k := by
  refine ⟨wideMul a.limb1 b.limb3 + wideMul a.limb2 b.limb2 + wideMul a.limb3 b.limb1 +
    2 ^ 64 * (wideMul a.limb2 b.limb3 + wideMul a.limb3 b.limb2) +
    2 ^ 128 * wideMul a.limb3 b.limb3, ?_⟩
  unfold Word.toNat wideMul
  ring

theorem toNat_mul (a b : Word) : (uint256Mul a b).toNat = a.toNat * b.toNat % 2 ^ 256 := by
  obtain ⟨k, hk⟩ := toNat_mul_toNat a b
  rw [hk]
  simp only [uint256Mul, Word.toNat, UInt64.toNat_ofNat', UInt64.toNat_add, UInt64.toNat_mul,
    low64, high64, ← wideMul.eq_1]
  generalize wideMul a.limb0 b.limb0 = p00
  generalize wideMul a.limb0 b.limb1 = p01
  generalize wideMul a.limb1 b.limb0 = p10
  generalize wideMul a.limb0 b.limb2 = p02
  generalize wideMul a.limb1 b.limb1 = p11
  generalize wideMul a.limb2 b.limb0 = p20
  generalize wideMul a.limb0 b.limb3 = p03
  generalize wideMul a.limb1 b.limb2 = p12
  generalize wideMul a.limb2 b.limb1 = p21
  generalize wideMul a.limb3 b.limb0 = p30
  omega

def limbBytes : ℕ → UInt64 → Bytes
  | 0, _ => []
  | n + 1, limb => limbBytes n (limb >>> 8) ++ [(limb &&& 0xff).toUInt8]

def uint256ToBytesBe (value : Word) : Bytes :=
  limbBytes 8 value.limb3 ++ limbBytes 8 value.limb2 ++ limbBytes 8 value.limb1 ++
    limbBytes 8 value.limb0

def pushByte (limb : UInt64) (b : UInt8) : UInt64 := (limb <<< 8) ||| b.toUInt64

def limbOfBytes (bytes : Bytes) : UInt64 := bytes.foldl pushByte 0

/-- `uint256_from_bytes_be`: the last 32 bytes, padded on the left. -/
def uint256FromBytesBe (data : Bytes) : Word :=
  let clamped := data.drop (data.length - 32)
  let padded := List.replicate (32 - clamped.length) 0 ++ clamped
  ⟨limbOfBytes ((padded.drop 24).take 8), limbOfBytes ((padded.drop 16).take 8),
    limbOfBytes ((padded.drop 8).take 8), limbOfBytes (padded.take 8)⟩

theorem limbBytes_length (n : ℕ) (limb : UInt64) : (limbBytes n limb).length = n := by
  induction n generalizing limb with
  | zero => rfl
  | succ n ih => rw [limbBytes, List.length_append, ih, List.length_singleton]

theorem lowByte_toNat (limb : UInt64) : (limb &&& 0xff).toUInt8.toNat = limb.toNat % 256 := by
  have hmask : (limb &&& 0xff).toNat = limb.toNat % 256 := by
    rw [UInt64.toNat_and]
    exact Nat.and_two_pow_sub_one_eq_mod limb.toNat 8
  rw [UInt64.toNat_toUInt8, hmask]
  omega

theorem ofBytes_limbBytes (n : ℕ) (limb : UInt64) :
    ofBytes (limbBytes n limb) = limb.toNat % 256 ^ n := by
  induction n generalizing limb with
  | zero => simp [limbBytes, Nat.mod_one]
  | succ n ih =>
    have hshift : (limb >>> 8).toNat = limb.toNat / 256 := by
      rw [UInt64.toNat_shiftRight]
      exact Nat.shiftRight_eq_div_pow _ 8
    have hbyte : ofBytes [(limb &&& 0xff).toUInt8] = limb.toNat % 256 := by
      rw [ofBytes_cons, lowByte_toNat]
      simp
    rw [limbBytes, ofBytes_append, ih, hshift, hbyte, List.length_singleton, pow_one,
      Nat.pow_succ', Nat.mod_mul]
    ring

theorem toBytesBe_length (value : Word) : (uint256ToBytesBe value).length = 32 := by
  simp [uint256ToBytesBe, limbBytes_length]

/-- The big-endian form is that of the number. -/
theorem ofBytes_toBytesBe (value : Word) : ofBytes (uint256ToBytesBe value) = value.toNat := by
  have h0 := value.limb0.toNat_lt
  have h1 := value.limb1.toNat_lt
  have h2 := value.limb2.toNat_lt
  have h3 := value.limb3.toNat_lt
  simp only [uint256ToBytesBe, ofBytes_append, ofBytes_limbBytes, limbBytes_length, Word.toNat]
  norm_num
  omega

theorem pushByte_toNat (limb : UInt64) (b : UInt8) (h : limb.toNat < 2 ^ 56) :
    (pushByte limb b).toNat = limb.toNat * 256 + b.toNat := by
  have hb : b.toNat < 2 ^ 8 := b.toNat_lt
  have hshift : (limb <<< 8).toNat = limb.toNat <<< 8 := by
    rw [UInt64.toNat_shiftLeft]
    have hlt : limb.toNat <<< 8 < 2 ^ 64 := by
      rw [Nat.shiftLeft_eq]
      omega
    exact Nat.mod_eq_of_lt hlt
  rw [pushByte, UInt64.toNat_or, hshift, UInt8.toNat_toUInt64, ← Nat.shiftLeft_add_eq_or_of_lt hb,
    Nat.shiftLeft_eq]

/-- Shifting in at most eight bytes loses nothing. -/
theorem limbOfBytes_toNat {bytes : Bytes} (h : bytes.length ≤ 8) :
    (limbOfBytes bytes).toNat = ofBytes bytes := by
  have hgeneral : ∀ (bytes : Bytes) (limb : UInt64) (k : ℕ), limb.toNat < 256 ^ k →
      k + bytes.length ≤ 8 →
      (bytes.foldl pushByte limb).toNat =
        limb.toNat * 256 ^ bytes.length + ofBytes bytes := by
    intro bytes
    induction bytes with
    | nil =>
      intro limb k hlimb hlen
      simp
    | cons b rest ih =>
      intro limb k hlimb hlen
      rw [List.length_cons] at hlen
      have hsmall : limb.toNat < 2 ^ 56 :=
        lt_of_lt_of_le hlimb (le_trans (Nat.pow_le_pow_right (by norm_num) (by omega : k ≤ 7))
          (by norm_num))
      have hpush := pushByte_toNat limb b hsmall
      have hb : b.toNat < 256 := b.toNat_lt
      have hnext : (pushByte limb b).toNat < 256 ^ (k + 1) := by
        rw [hpush, pow_succ]
        omega
      rw [List.foldl_cons, ih _ (k + 1) hnext (by omega), hpush, ofBytes_cons, List.length_cons,
        pow_succ]
      ring
  have hall := hgeneral bytes 0 0 (by decide) (by omega)
  simpa [limbOfBytes] using hall

/-- Leading zeros do not count. -/
theorem ofBytes_replicate_zero (n : ℕ) (bytes : Bytes) :
    ofBytes (List.replicate n 0 ++ bytes) = ofBytes bytes := by
  induction n with
  | zero => rfl
  | succ n ih => rw [List.replicate_succ, List.cons_append, ofBytes_cons, ih]; simp

/-- Reading at most 32 bytes gives their value. -/
theorem toNat_fromBytesBe {data : Bytes} (h : data.length ≤ 32) :
    (uint256FromBytesBe data).toNat = ofBytes data := by
  have hclamp : data.drop (data.length - 32) = data := by
    rw [Nat.sub_eq_zero_of_le h, List.drop_zero]
  have hpad := ofBytes_replicate_zero (32 - data.length) data
  unfold uint256FromBytesBe
  simp only [hclamp]
  have hlen : (List.replicate (32 - data.length) (0 : UInt8) ++ data).length = 32 := by
    rw [List.length_append, List.length_replicate]
    omega
  generalize List.replicate (32 - data.length) (0 : UInt8) ++ data = padded at *
  have hsplit : padded = padded.take 8 ++ ((padded.drop 8).take 8 ++
      ((padded.drop 16).take 8 ++ (padded.drop 24).take 8)) := by
    have h24 : (padded.drop 24).take 8 = padded.drop 24 :=
      List.take_of_length_le (by rw [List.length_drop]; omega)
    rw [h24, show padded.drop 24 = (padded.drop 16).drop 8 by rw [List.drop_drop],
      List.take_append_drop, show padded.drop 16 = (padded.drop 8).drop 8 by rw [List.drop_drop],
      List.take_append_drop, List.take_append_drop]
  have hlimb : ∀ n, (limbOfBytes ((padded.drop n).take 8)).toNat =
      ofBytes ((padded.drop n).take 8) := fun n => limbOfBytes_toNat (by simp)
  have hlimb0 : (limbOfBytes (padded.take 8)).toNat = ofBytes (padded.take 8) :=
    limbOfBytes_toNat (by simp)
  have hlens : ∀ n, n + 8 ≤ 32 → ((padded.drop n).take 8).length = 8 := by
    intro n hn
    rw [List.length_take, List.length_drop]
    omega
  rw [← hpad]
  conv_rhs => rw [hsplit]
  simp only [Word.toNat, hlimb, hlimb0, ofBytes_append, List.length_append, hlens 24 (by omega),
    hlens 16 (by omega), hlens 8 (by omega)]
  norm_num
  omega

/-- Writing a word that was read from 32 bytes gives them back. -/
theorem toBytesBe_fromBytesBe {data : Bytes} (h : data.length = 32) :
    uint256ToBytesBe (uint256FromBytesBe data) = data := by
  refine ofBytes_injective_of_length ((toBytesBe_length _).trans h.symm) ?_
  rw [ofBytes_toBytesBe, toNat_fromBytesBe h.le]

/-- `hash_t`. -/
@[ext] structure Hash where
  bytes : Bytes
  size_eq : bytes.length = 32
  deriving DecidableEq

def hashZero : Hash := ⟨List.replicate 32 0, rfl⟩

def Hash.isZero (h : Hash) : Bool := h.bytes.all (· == 0)

/-- `address_t`. -/
@[ext] structure Address where
  bytes : Bytes
  size_eq : bytes.length = 20
  deriving DecidableEq

def addressZero : Address := ⟨List.replicate 20 0, rfl⟩

end Div0.Uint256
