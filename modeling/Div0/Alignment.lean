import Mathlib.Data.Nat.Bitwise
import Mathlib.Tactic.NormNum

/-!
Rounding up to a multiple of a power of two with a mask, in 64 bits. The sum with the mask
may wrap; since the power divides the modulus, the result is still the rounded number
modulo `2 ^ 64`.
-/

namespace Div0.Alignment

section Padding

variable {a x y : ℕ}

def padding (a x : ℕ) : ℕ := (a - x % a) % a

theorem padding_lt (ha : 0 < a) : padding a x < a := Nat.mod_lt _ ha

theorem padding_of_dvd (h : a ∣ x) : padding a x = 0 := by
  rw [padding, Nat.mod_eq_zero_of_dvd h, Nat.sub_zero, Nat.mod_self]

theorem padding_of_pos (ha : 0 < a) (h : 0 < x % a) : padding a x = a - x % a :=
  Nat.mod_eq_of_lt (by omega)

theorem dvd_add_padding (ha : 0 < a) : a ∣ x + padding a x := by
  rcases Nat.eq_zero_or_pos (x % a) with hzero | hpos
  · rw [padding_of_dvd (Nat.dvd_of_mod_eq_zero hzero)]
    exact Nat.dvd_of_mod_eq_zero hzero
  · have hlt := Nat.mod_lt x ha
    have hsplit := Nat.div_add_mod x a
    refine ⟨x / a + 1, ?_⟩
    rw [padding_of_pos ha hpos, Nat.mul_succ]
    omega

/-- Adding a multiple of `a`, and in particular reducing modulo one, changes nothing. -/
theorem padding_mod (h : a ∣ y) : padding a (x % y) = padding a x := by
  rw [padding, Nat.mod_mod_of_dvd x h, ← padding]

theorem div_mul_of_add_pred (ha : 0 < a) : (x + (a - 1)) / a * a = x + padding a x := by
  obtain ⟨q, hq⟩ := dvd_add_padding (x := x) ha
  have hlt := padding_lt (x := x) ha
  have hdiv : (x + (a - 1)) / a = q := by
    rw [Nat.div_eq_iff ha]
    have hcomm : a * q = q * a := Nat.mul_comm a q
    have hsucc : (q + 1) * a = q * a + a := Nat.succ_mul q a
    omega
  rw [hdiv, hq, Nat.mul_comm]

end Padding

section Masks

variable {k : ℕ} {mask : UInt64}

/-- Clearing the low bits rounds down. -/
theorem and_not_toNat (hmask : mask.toNat = 2 ^ k - 1) (x : UInt64) :
    (x &&& ~~~mask).toNat = x.toNat / 2 ^ k * 2 ^ k := by
  have hlt : 2 ^ k - 1 < 2 ^ 64 := hmask ▸ mask.toNat_lt
  have hnot : (~~~mask).toNat = 2 ^ 64 - (2 ^ k - 1 + 1) := by
    rw [UInt64.toNat_not, hmask, UInt64.size]
    omega
  apply Nat.eq_of_testBit_eq
  intro i
  rw [UInt64.toNat_and, hnot, Nat.testBit_and, Nat.testBit_two_pow_sub_succ hlt,
    Nat.testBit_two_pow_sub_one, Nat.testBit_mul_two_pow, Nat.testBit_div_two_pow]
  by_cases hi : k ≤ i
  · by_cases hhigh : i < 64
    · simp [hi, hhigh, Nat.not_lt.mpr hi]
    · have hbit : x.toNat.testBit i = false :=
        Nat.testBit_lt_two_pow (lt_of_lt_of_le x.toNat_lt
          (Nat.pow_le_pow_right (by norm_num) (Nat.not_lt.mp hhigh)))
      simp [hi, hbit]
  · simp [hi, Nat.not_le.mp hi]

def alignUp (x mask : UInt64) : UInt64 := (x + mask) &&& ~~~mask

theorem alignUp_toNat (hk : k ≤ 64) (hmask : mask.toNat = 2 ^ k - 1) (x : UInt64) :
    (alignUp x mask).toNat = (x.toNat + padding (2 ^ k) x.toNat) % 2 ^ 64 := by
  have hdvd : 2 ^ k ∣ 2 ^ 64 := Nat.pow_dvd_pow 2 hk
  obtain ⟨c, hc⟩ := hdvd
  rw [alignUp, and_not_toNat hmask, UInt64.toNat_add, hmask, hc, Nat.mod_mul_right_div_self,
    Nat.mul_comm, ← Nat.mul_mod_mul_left, Nat.mul_comm (2 ^ k) (_ / _),
    div_mul_of_add_pred (Nat.two_pow_pos k)]

/-- What the test for a power of two lets through. -/
theorem exists_pow_of_and_pred {a : UInt64} (hzero : a ≠ 0) (hand : a &&& (a - 1) = 0) :
    ∃ k < 64, a.toNat = 2 ^ k ∧ (a - 1).toNat = 2 ^ k - 1 := by
  have hpos : a.toNat ≠ 0 := fun h => hzero (UInt64.toNat_inj.mp h)
  have hpred : (a - 1).toNat = a.toNat - 1 :=
    UInt64.toNat_sub_of_le _ _ (UInt64.le_iff_toNat_le.mpr (show 1 ≤ a.toNat by omega))
  have hnat : a.toNat &&& (a.toNat - 1) = 0 := by
    rw [← hpred, ← UInt64.toNat_and, hand]
    rfl
  obtain ⟨k, hk⟩ := (Nat.and_sub_one_eq_zero_iff_isPowerOfTwo hpos).mp hnat
  refine ⟨k, ?_, hk, by rw [hpred, hk]⟩
  by_contra hlarge
  have hle : 2 ^ 64 ≤ 2 ^ k := Nat.pow_le_pow_right (by norm_num) (Nat.not_lt.mp hlarge)
  have hlt := a.toNat_lt
  omega

end Masks

end Div0.Alignment
