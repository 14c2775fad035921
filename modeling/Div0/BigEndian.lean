import Mathlib.Data.List.Basic
import Mathlib.Data.Nat.Log
import Mathlib.Tactic.Ring

/-!
Big-endian byte strings. `toBytes width value` lists the low `width` bytes of a
number, most significant first, and `ofBytes` reads a byte string back. The
two are inverse up to the width, and `byteLength` is the least width that loses
nothing.
-/

namespace Div0.BigEndian

abbrev Bytes := List UInt8

def toBytes : ℕ → ℕ → Bytes
  | 0, _ => []
  | width + 1, value => UInt8.ofNat (value >>> (8 * width)) :: toBytes width value

def ofBytes : Bytes → ℕ
  | [] => 0
  | b :: rest => b.toNat * 256 ^ rest.length + ofBytes rest

def byteLength (value : ℕ) : ℕ :=
  if value = 0 then 0 else Nat.log2 value / 8 + 1

@[simp] theorem toBytes_length (width value : ℕ) : (toBytes width value).length = width := by
  induction width with
  | zero => rfl
  | succ width ih => simp only [toBytes, List.length_cons, ih]

@[simp] theorem ofBytes_nil : ofBytes [] = 0 := rfl

theorem ofBytes_cons (b : UInt8) (rest : Bytes) :
    ofBytes (b :: rest) = b.toNat * 256 ^ rest.length + ofBytes rest := rfl

theorem ofBytes_append (a b : Bytes) :
    ofBytes (a ++ b) = ofBytes a * 256 ^ b.length + ofBytes b := by
  induction a with
  | nil => simp
  | cons x rest ih =>
    rw [List.cons_append, ofBytes_cons, ofBytes_cons, ih, List.length_append, pow_add]
    ring

theorem ofBytes_lt (bytes : Bytes) : ofBytes bytes < 256 ^ bytes.length := by
  induction bytes with
  | nil => simp
  | cons b rest ih =>
    have hb : b.toNat < 256 := b.toNat_lt
    calc ofBytes (b :: rest) < b.toNat * 256 ^ rest.length + 256 ^ rest.length := by
          rw [ofBytes_cons]; omega
      _ = (b.toNat + 1) * 256 ^ rest.length := by ring
      _ ≤ 256 * 256 ^ rest.length := Nat.mul_le_mul_right _ (by omega)
      _ = 256 ^ (b :: rest).length := by rw [List.length_cons, pow_succ]; ring

/-- The byte written at position `width`, counted from the least significant one. -/
theorem toNat_byte (width value : ℕ) :
    (UInt8.ofNat (value >>> (8 * width))).toNat = value / 256 ^ width % 256 := by
  rw [UInt8.toNat_ofNat', Nat.shiftRight_eq_div_pow, pow_mul]
  norm_num

/-- Reading back what was written keeps the low bytes of the value. -/
theorem ofBytes_toBytes (width value : ℕ) :
    ofBytes (toBytes width value) = value % 256 ^ width := by
  induction width with
  | zero => simp [toBytes, Nat.mod_one]
  | succ width ih =>
    rw [toBytes, ofBytes_cons, toBytes_length, toNat_byte, ih, pow_succ, Nat.mod_mul]
    ring

theorem ofBytes_toBytes_of_lt {width value : ℕ} (h : value < 256 ^ width) :
    ofBytes (toBytes width value) = value := by
  rw [ofBytes_toBytes, Nat.mod_eq_of_lt h]

/-- Writing a number modulo the width changes nothing. -/
theorem toBytes_add_mul (width value k : ℕ) :
    toBytes width (k * 256 ^ width + value) = toBytes width value := by
  induction width generalizing k with
  | zero => rfl
  | succ width ih =>
    have hstep : k * 256 ^ (width + 1) + value = (k * 256) * 256 ^ width + value := by
      rw [pow_succ]; ring
    simp only [toBytes]
    congr 1
    · apply UInt8.toNat_inj.mp
      have hpos : 0 < 256 ^ width := Nat.pow_pos (by norm_num)
      rw [toNat_byte, toNat_byte, hstep, Nat.add_comm, Nat.add_mul_div_right _ _ hpos,
        Nat.add_mul_mod_self_right]
    · rw [hstep, ih]

/-- Every byte string is the big-endian form, at its own length, of its value. -/
theorem toBytes_ofBytes (bytes : Bytes) : toBytes bytes.length (ofBytes bytes) = bytes := by
  induction bytes with
  | nil => rfl
  | cons b rest ih =>
    have hrest := ofBytes_lt rest
    have hb : b.toNat < 256 := b.toNat_lt
    simp only [List.length_cons, toBytes]
    congr 1
    · apply UInt8.toNat_inj.mp
      have hpos : 0 < 256 ^ rest.length := Nat.pow_pos (by norm_num)
      rw [toNat_byte, ofBytes_cons, Nat.add_comm, Nat.add_mul_div_right _ _ hpos,
        Nat.div_eq_of_lt hrest, Nat.zero_add, Nat.mod_eq_of_lt hb]
    · rw [ofBytes_cons, toBytes_add_mul, ih]

/-- Byte strings of one length are told apart by their values. -/
theorem ofBytes_injective_of_length {a b : Bytes} (hlen : a.length = b.length)
    (h : ofBytes a = ofBytes b) : a = b := by
  rw [← toBytes_ofBytes a, ← toBytes_ofBytes b, hlen, h]

@[simp] theorem byteLength_zero : byteLength 0 = 0 := rfl

variable {value : ℕ}

theorem byteLength_pos (h : value ≠ 0) : 0 < byteLength value := by
  simp [byteLength, h]

theorem lt_pow_byteLength (value : ℕ) : value < 256 ^ byteLength value := by
  by_cases h : value = 0
  · simp [h]
  · rw [byteLength, if_neg h, show (256 : ℕ) = 2 ^ 8 from rfl, ← pow_mul]
    exact (Nat.log2_lt h).mp (by omega)

theorem pow_byteLength_le (h : value ≠ 0) : 256 ^ (byteLength value - 1) ≤ value := by
  rw [byteLength, if_neg h, show (256 : ℕ) = 2 ^ 8 from rfl, ← pow_mul]
  exact (Nat.le_log2 h).mp (by omega)

theorem byteLength_le_of_lt_pow {value width : ℕ} (h : value < 256 ^ width) :
    byteLength value ≤ width := by
  by_cases hz : value = 0
  · simp [hz]
  · by_contra hlt
    have hle : 256 ^ width ≤ 256 ^ (byteLength value - 1) :=
      Nat.pow_le_pow_right (by norm_num) (by omega)
    have := pow_byteLength_le hz
    omega

theorem byteLength_le_iff {value width : ℕ} : byteLength value ≤ width ↔ value < 256 ^ width :=
  ⟨fun h => (lt_pow_byteLength value).trans_le (Nat.pow_le_pow_right (by norm_num) h),
    byteLength_le_of_lt_pow⟩

/-- Bytes below a nonzero number add their count. -/
theorem byteLength_mul_add {high low k : ℕ} (hhigh : high ≠ 0) (hlow : low < 256 ^ k) :
    byteLength (high * 256 ^ k + low) = k + byteLength high := by
  have hpos := byteLength_pos hhigh
  apply le_antisymm
  · rw [byteLength_le_iff]
    calc high * 256 ^ k + low < (high + 1) * 256 ^ k := by rw [Nat.succ_mul]; omega
      _ ≤ 256 ^ byteLength high * 256 ^ k := Nat.mul_le_mul_right _ (lt_pow_byteLength high)
      _ = 256 ^ (k + byteLength high) := by rw [← pow_add, Nat.add_comm]
  · have hge : 256 ^ (byteLength high - 1) * 256 ^ k ≤ high * 256 ^ k :=
      Nat.mul_le_mul_right _ (pow_byteLength_le hhigh)
    have hlt : k + (byteLength high - 1) < byteLength (high * 256 ^ k + low) := by
      rw [← not_le, byteLength_le_iff, Nat.add_comm k, pow_add]
      omega
    omega

theorem byteLength_digit {b : ℕ} (hzero : b ≠ 0) (hb : b < 256) : byteLength b = 1 :=
  le_antisymm (byteLength_le_of_lt_pow (by omega)) (byteLength_pos hzero)

theorem byteLength_mono {a b : ℕ} (h : a ≤ b) : byteLength a ≤ byteLength b :=
  byteLength_le_of_lt_pow (lt_of_le_of_lt h (lt_pow_byteLength b))

theorem byteLength_le_eight (h : value < 2 ^ 64) : byteLength value ≤ 8 :=
  byteLength_le_of_lt_pow (by norm_num; omega)

/-- A number fits its own minimal form. -/
theorem ofBytes_toBytes_byteLength (value : ℕ) :
    ofBytes (toBytes (byteLength value) value) = value :=
  ofBytes_toBytes_of_lt (lt_pow_byteLength value)

/-- A byte string without a leading zero is the minimal form of its value. -/
theorem byteLength_ofBytes {b : UInt8} {rest : Bytes} (hb : b ≠ 0) :
    byteLength (ofBytes (b :: rest)) = (b :: rest).length := by
  have hne : b.toNat ≠ 0 := fun hz => hb (UInt8.toNat_inj.mp hz)
  rw [ofBytes_cons, byteLength_mul_add hne (ofBytes_lt rest), byteLength_digit hne b.toNat_lt,
    List.length_cons]

/-- The minimal form of a positive number starts with a nonzero byte. -/
theorem toBytes_byteLength_head (h : value ≠ 0) :
    ∃ (b : UInt8) (rest : Bytes), toBytes (byteLength value) value = b :: rest ∧ b ≠ 0 := by
  have hval := ofBytes_toBytes_byteLength value
  cases hform : toBytes (byteLength value) value with
  | nil =>
    rw [hform] at hval
    exact absurd hval.symm h
  | cons b rest =>
    refine ⟨b, rest, rfl, ?_⟩
    rintro rfl
    have hlen : byteLength value = rest.length + 1 := by
      rw [← toBytes_length (byteLength value) value, hform, List.length_cons]
    have hlow := pow_byteLength_le h
    rw [hform, ofBytes_cons] at hval
    have hrest := ofBytes_lt rest
    simp only [UInt8.toNat_zero, Nat.zero_mul, Nat.zero_add] at hval
    rw [hlen, Nat.add_sub_cancel] at hlow
    omega

end Div0.BigEndian
