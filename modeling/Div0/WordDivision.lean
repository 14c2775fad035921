import Div0.Reciprocal

/-!
Division and modular arithmetic of words, against the integers. `uint256Divmod` takes one of
five paths; all of them give the integer quotient and remainder. Modular multiplication
reduces the full product, modular addition a sum of 257 bits, and the signed operations
divide absolute values.
-/

namespace Div0.WordDivision

open Uint256 Uint256Ops Uint256Div LimbDivision Reciprocal

/-! ### Quotient and remainder -/

variable {b : Word}

/-- The limbs of a divisor up to the highest that is not zero. -/
theorem divisor_limbs (hb : b.toNat ≠ 0) :
    ∃ low top, (limbs b).take (topLimbIndex b + 1) = low ++ [top] ∧
      low.length = topLimbIndex b ∧ top ≠ 0 ∧ value (low ++ [top]) = b.toNat := by
  have hvalue := value_limbs b
  unfold topLimbIndex
  unfold limbs at *
  split
  · next h3 => exact ⟨[b.limb0, b.limb1, b.limb2], b.limb3, rfl, rfl, h3, hvalue⟩
  · next h3 =>
    rw [not_not] at h3
    split
    · next h2 =>
      exact ⟨[b.limb0, b.limb1], b.limb2, rfl, rfl, h2, by rw [← hvalue, h3]; simp⟩
    · next h2 =>
      rw [not_not] at h2
      split
      · next h1 => exact ⟨[b.limb0], b.limb1, rfl, rfl, h1, by rw [← hvalue, h3, h2]; simp⟩
      · next h1 =>
        rw [not_not] at h1
        have hlow : value ([] ++ [b.limb0]) = b.toNat := by rw [← hvalue, h3, h2, h1]; simp
        refine ⟨[], b.limb0, rfl, rfl, ?_, hlow⟩
        intro h0
        rw [h0] at hlow
        exact hb (by simpa using hlow.symm)

theorem topLimbIndex_le (b : Word) : topLimbIndex b ≤ 3 := by
  unfold topLimbIndex
  split_ifs <;> omega

theorem toNat_of_fitsU64 {a : Word} (h : uint256FitsU64 a = true) : a.toNat = a.limb0.toNat := by
  have hlt := (fitsU64_iff a).mp h
  unfold Word.toNat at *
  omega

theorem toNat_of_topLimbIndex (h : topLimbIndex b = 0) : b.toNat = b.limb0.toNat := by
  unfold topLimbIndex at h
  split_ifs at h with h3 h2 h1
  simp only [not_not] at h3 h2 h1
  simp [Word.toNat, h3, h2, h1]

/-- All paths of the division are exact. -/
theorem uint256Divmod_spec (a : Word) (hb : b.toNat ≠ 0) :
    (uint256Divmod a b).1.toNat = a.toNat / b.toNat ∧
      (uint256Divmod a b).2.toNat = a.toNat % b.toNat := by
  unfold uint256Divmod
  split
  · next hzero => exact absurd ((isZero_iff b).mp hzero) hb
  split
  · next hless =>
    have hlt := (lt_iff a b).mp hless
    rw [Nat.div_eq_of_lt hlt, Nat.mod_eq_of_lt hlt]
    exact ⟨rfl, rfl⟩
  split
  · next hfits =>
    rw [toNat_of_fitsU64 hfits.1, toNat_of_fitsU64 hfits.2, toNat_fromU64, toNat_fromU64,
      UInt64.toNat_div, UInt64.toNat_mod]
    exact ⟨rfl, rfl⟩
  split
  · next hsingle =>
    rw [toNat_of_topLimbIndex hsingle] at hb ⊢
    refine divmodSingleLimb_spec a ?_
    intro hzero
    exact hb (by rw [hzero]; rfl)
  · obtain ⟨low, top, htake, hlength, htop, hvalue⟩ := divisor_limbs hb
    have hle := topLimbIndex_le b
    obtain ⟨hqlen, hrlen, hq, hr⟩ := knuthDivide_spec (limbs a) htop
      (by change low.length < 4; omega)
    rw [htake]
    dsimp only
    rw [value_limbs, hvalue] at hq hr
    rw [toNat_fromLimbs, toNat_fromLimbs, List.take_of_length_le, List.take_of_length_le]
    · exact ⟨hq, hr⟩
    · omega
    · rw [hqlen]
      exact Nat.sub_le 4 _

theorem uint256Divmod_zero (a : Word) (hb : b.toNat = 0) :
    uint256Divmod a b = (uint256Zero, uint256Zero) := by
  rw [uint256Divmod, if_pos ((isZero_iff b).mpr hb)]

theorem toNat_mod (a : Word) (hb : b.toNat ≠ 0) :
    (uint256Mod a b).toNat = a.toNat % b.toNat := (uint256Divmod_spec a hb).2

theorem toNat_mod_lt (a : Word) (hb : b.toNat ≠ 0) : (uint256Mod a b).toNat < b.toNat := by
  rw [toNat_mod a hb]
  exact Nat.mod_lt _ (Nat.pos_of_ne_zero hb)

/-- Division is exact on every path, and division by zero gives zero. -/
theorem div_mod_exact (a b : Word) :
    (uint256Div a b).toNat = (if b.toNat = 0 then 0 else a.toNat / b.toNat) ∧
      (uint256Mod a b).toNat = (if b.toNat = 0 then 0 else a.toNat % b.toNat) := by
  unfold uint256Div uint256Mod
  split
  · next hb =>
    rw [uint256Divmod_zero a hb]
    exact ⟨rfl, rfl⟩
  · next hb => exact uint256Divmod_spec a hb

/-! ### Modular multiplication -/

/-- A row adds a limb times the word to what the result holds. -/
theorem mulRow_value (a : UInt64) {rs bs : Limbs} (hlen : rs.length = bs.length) {carry : ℕ}
    (hcarry : carry < 2 ^ 64) :
    (mulRow a carry rs bs).length = bs.length + 1 ∧
      value (mulRow a carry rs bs) = a.toNat * value bs + value rs + carry := by
  induction rs generalizing bs carry with
  | nil =>
    have hnil : bs = [] := List.length_eq_zero_iff.mp hlen.symm
    subst hnil
    have hnat : (UInt64.ofNat carry).toNat = carry := UInt64.toNat_ofNat_of_lt' hcarry
    simp [mulRow, hnat]
  | cons r rs ih =>
    cases bs with
    | nil => simp at hlen
    | cons b bs =>
      have hprod : wideMul a b ≤ (2 ^ 64 - 1) * (2 ^ 64 - 1) :=
        Nat.mul_le_mul (Nat.le_sub_one_of_lt a.toNat_lt) (Nat.le_sub_one_of_lt b.toNat_lt)
      have hr := r.toNat_lt
      have hhigh : high64 (wideMul a b + r.toNat + carry) < 2 ^ 64 := by
        unfold high64
        omega
      obtain ⟨hlength, hvalue⟩ := ih (by simpa using hlen) hhigh
      have hdigit : (UInt64.ofNat (wideMul a b + r.toNat + carry)).toNat +
          2 ^ 64 * high64 (wideMul a b + r.toNat + carry) = a.toNat * b.toNat + r.toNat + carry := by
        rw [UInt64.toNat_ofNat', high64, Nat.mod_add_div, wideMul]
      rw [mulRow]
      refine ⟨congrArg (· + 1) hlength, ?_⟩
      rw [value_cons, value_cons, value_cons, hvalue]
      linear_combination hdigit

/-- The rows add up to the product. -/
theorem mulRows_value {b : Limbs} (as acc : Limbs) (hlen : acc.length = b.length) :
    (mulRows b as acc).length = as.length + b.length ∧
      value (mulRows b as acc) = value as * value b + value acc := by
  induction as generalizing acc with
  | nil => simp [mulRows, hlen]
  | cons a as ih =>
    obtain ⟨hlength, hvalue⟩ := mulRow_value a hlen (by norm_num : 0 < 2 ^ 64)
    rw [mulRows]
    cases hrow : mulRow a 0 acc b with
    | nil =>
      rw [hrow] at hlength
      simp at hlength
    | cons r rest =>
      rw [hrow] at hlength hvalue
      obtain ⟨hlength', hvalue'⟩ := ih rest (by simpa using hlength)
      refine ⟨by simp only [List.length_cons, hlength']; omega, ?_⟩
      rw [value_cons, value_cons, hvalue']
      rw [value_cons] at hvalue
      linear_combination hvalue

theorem uint256MulFull_value (a b : Word) :
    (uint256MulFull a b).length = 8 ∧ value (uint256MulFull a b) = a.toNat * b.toNat := by
  obtain ⟨hlength, hvalue⟩ := mulRows_value (b := limbs b) (limbs a) [0, 0, 0, 0] rfl
  refine ⟨hlength, ?_⟩
  rw [uint256MulFull, hvalue, value_limbs, value_limbs]
  simp

/-- A number of eight limbs whose upper four are zero is a word. -/
theorem toNat_fromLimbs_of_zero {l : Limbs} (h : (l.drop 4).all (· == 0) = true) :
    (fromLimbs l).toNat = value l := by
  have hzero : value (l.drop 4) = 0 := by
    rw [value_eq_zero_iff]
    simpa using h
  rw [toNat_fromLimbs]
  conv_rhs => rw [← List.take_append_drop 4 l, value_append, hzero, Nat.mul_zero, Nat.add_zero]

/-- `uint512_mod_256` is exact. -/
theorem uint512Mod256_spec {a : Limbs} (hlen : a.length = 8) (hb : b.toNat ≠ 0) :
    (uint512Mod256 a b).toNat = value a % b.toNat := by
  unfold uint512Mod256
  split
  · next hzero => exact absurd ((isZero_iff b).mp hzero) hb
  split
  · next hzero =>
    have hvalue : value a = 0 := by
      rw [value_eq_zero_iff]
      simpa using hzero
    rw [hvalue, Nat.zero_mod, toNat_zero]
  split
  · next hsmall => rw [toNat_mod _ hb, toNat_fromLimbs_of_zero hsmall]
  · obtain ⟨low, top, htake, hlength, htop, hvalue⟩ := divisor_limbs hb
    have hle := topLimbIndex_le b
    have hshort : low.length < a.length := by omega
    obtain ⟨-, hrlen, -, hr⟩ := knuthDivide_spec a htop hshort
    rw [htake, toNat_fromLimbs, List.take_of_length_le (by omega), hr, hvalue]

/-- Modular multiplication is exact over the full product. -/
theorem mulmod_exact (a b n : Word) :
    (uint256Mulmod a b n).toNat = (if n.toNat = 0 then 0 else a.toNat * b.toNat % n.toNat) := by
  unfold uint256Mulmod
  obtain ⟨hlength, hvalue⟩ := uint256MulFull_value a b
  split
  · next hzero => rw [if_pos ((isZero_iff n).mp hzero), toNat_zero]
  · next hzero =>
    have hn : n.toNat ≠ 0 := fun h => hzero ((isZero_iff n).mpr h)
    rw [if_neg hn]
    split
    · next hfactor =>
      have hprod : a.toNat * b.toNat = 0 := by
        rw [Bool.or_eq_true, isZero_iff, isZero_iff] at hfactor
        exact Nat.mul_eq_zero.mpr hfactor
      rw [hprod, Nat.zero_mod, toNat_zero]
    · dsimp only
      split
      · next hsmall => rw [toNat_mod _ hn, toNat_fromLimbs_of_zero hsmall, hvalue]
      · rw [uint512Mod256_spec hlength hn, hvalue]

/-! ### Modular addition -/

def sumCarry (a b : Word) : ℕ :=
  (addc a.limb3 b.limb3 (addc a.limb2 b.limb2 (addc a.limb1 b.limb1
    (addc a.limb0 b.limb0 0).2).2).2).2

theorem sumCarry_eq (a b : Word) :
    (uint256Add a b).toNat + 2 ^ 256 * sumCarry a b = a.toNat + b.toNat := by
  have h0 := addc_spec a.limb0 b.limb0 0
  have h1 := addc_spec a.limb1 b.limb1 (addc a.limb0 b.limb0 0).2
  have h2 := addc_spec a.limb2 b.limb2 (addc a.limb1 b.limb1 (addc a.limb0 b.limb0 0).2).2
  have h3 := addc_spec a.limb3 b.limb3
    (addc a.limb2 b.limb2 (addc a.limb1 b.limb1 (addc a.limb0 b.limb0 0).2).2).2
  simp only [uint256Add, Word.toNat, sumCarry] at *
  omega

def pow256ModN (n : Word) : Word :=
  uint256Mod (uint256Add (uint256Sub minusOne n) (uint256FromU64 1)) n

/-- `partial`: what `uint256_addmod` computes after a carry. -/
def partialSum (a b n : Word) : Word :=
  uint256Add (pow256ModN n) (uint256Mod (uint256Add a b) n)

theorem uint256Addmod_eq (a b n : Word) : uint256Addmod a b n =
    if uint256IsZero n then uint256Zero
    else if sumCarry a b = 0 then uint256Mod (uint256Add a b) n
    else if uint256Lt (partialSum a b n) (pow256ModN n) then uint256Mod (partialSum a b n) n
    else if !uint256Lt (partialSum a b n) n then uint256Sub (partialSum a b n) n
    else partialSum a b n := rfl

theorem toNat_pow256ModN {n : Word} (hn : n.toNat ≠ 0) :
    (pow256ModN n).toNat = (2 ^ 256 - n.toNat) % n.toNat := by
  have hlt := n.toNat_lt
  have hmax : minusOne.toNat = 2 ^ 256 - 1 := by decide
  have hone : (uint256FromU64 1).toNat = 1 := toNat_fromU64 1
  rw [pow256ModN, toNat_mod _ hn, toNat_add, toNat_sub, hmax, hone]
  congr 1
  omega

/-- The two parts of a sum of 257 bits never overflow a word: with a modulus above `2 ^ 255`
the first part is `2 ^ 256 - n`, otherwise both are below `2 ^ 255`. -/
theorem parts_lt (a b : Word) {n : Word} (hn : n.toNat ≠ 0) :
    (pow256ModN n).toNat + (uint256Mod (uint256Add a b) n).toNat < 2 ^ 256 := by
  have hlt := n.toNat_lt
  have hsum := toNat_mod_lt (uint256Add a b) hn
  rw [toNat_pow256ModN hn]
  rcases le_or_gt n.toNat (2 ^ 255) with hsmall | hbig
  · have hpow := Nat.mod_lt (2 ^ 256 - n.toNat) (Nat.pos_of_ne_zero hn)
    omega
  · rw [Nat.mod_eq_of_lt (by omega)]
    omega

theorem toNat_partialSum (a b : Word) {n : Word} (hn : n.toNat ≠ 0) :
    (partialSum a b n).toNat =
      (pow256ModN n).toNat + (uint256Mod (uint256Add a b) n).toNat := by
  rw [partialSum, toNat_add, Nat.mod_eq_of_lt (parts_lt a b hn)]

/-- The overflow of the partial sum does not happen. -/
theorem partialSum_not_lt (a b n : Word) :
    uint256Lt (partialSum a b n) (pow256ModN n) = false := by
  rw [← Bool.not_eq_true, lt_iff]
  by_cases hn : n.toNat = 0
  · have hmod : ∀ x, uint256Mod x n = uint256Zero := fun x => by
      rw [uint256Mod, uint256Divmod_zero x hn]
    simp [partialSum, pow256ModN, hmod]
  · rw [toNat_partialSum a b hn]
    omega

/-- Modular addition is exact, and its overflow branch is dead. -/
theorem addmod_exact (a b n : Word) :
    (uint256Addmod a b n).toNat =
        (if n.toNat = 0 then 0 else (a.toNat + b.toNat) % n.toNat) ∧
      uint256Lt (partialSum a b n) (pow256ModN n) = false := by
  refine ⟨?_, partialSum_not_lt a b n⟩
  rw [uint256Addmod_eq, partialSum_not_lt a b n]
  have hsum := sumCarry_eq a b
  split
  · next hzero => rw [if_pos ((isZero_iff n).mp hzero), toNat_zero]
  · next hzero =>
    have hn : n.toNat ≠ 0 := fun h => hzero ((isZero_iff n).mpr h)
    rw [if_neg hn]
    split
    · next hcarry =>
      rw [hcarry, Nat.mul_zero, Nat.add_zero] at hsum
      rw [toNat_mod _ hn, hsum]
    · next hcarry =>
      have hlta := a.toNat_lt
      have hltb := b.toNat_lt
      have hltn := n.toNat_lt
      have hpow := Nat.mod_lt (2 ^ 256 - n.toNat) (Nat.pos_of_ne_zero hn)
      have hrest := toNat_mod_lt (uint256Add a b) hn
      have htotal : (a.toNat + b.toNat) % n.toNat = (partialSum a b n).toNat % n.toNat := by
        have hsplit : a.toNat + b.toNat =
            2 ^ 256 - n.toNat + (uint256Add a b).toNat + n.toNat := by omega
        rw [hsplit, Nat.add_mod_right, Nat.add_mod, toNat_partialSum a b hn, toNat_pow256ModN hn,
          toNat_mod _ hn]
      have htwo : (partialSum a b n).toNat < n.toNat + n.toNat := by
        rw [toNat_partialSum a b hn, toNat_pow256ModN hn]
        omega
      rw [htotal, if_neg Bool.false_ne_true]
      split
      · next hge =>
        rw [Bool.not_eq_true', ← Bool.not_eq_true, lt_iff, not_lt] at hge
        rw [toNat_sub_of_le hge, Nat.mod_eq_sub_mod hge, Nat.mod_eq_of_lt (by omega)]
      · next hlt =>
        rw [Bool.not_eq_true', Bool.not_eq_false, lt_iff] at hlt
        rw [Nat.mod_eq_of_lt hlt]

/-! ### Signed division -/

def toInt (a : Word) : ℤ := if a.toNat < 2 ^ 255 then a.toNat else a.toNat - 2 ^ 256

theorem isNegative_iff (a : Word) : uint256IsNegative a = true ↔ 2 ^ 255 ≤ a.toNat := by
  have h0 := a.limb0.toNat_lt
  have h1 := a.limb1.toNat_lt
  have h2 := a.limb2.toNat_lt
  have hshift : (a.limb3 >>> 63).toNat = a.limb3.toNat / 2 ^ 63 :=
    toNat_shiftRight_ofNat a.limb3 (by norm_num)
  rw [uint256IsNegative, bne_iff_ne, ne_eq, ← UInt64.toNat_inj, hshift, UInt64.toNat_zero]
  unfold Word.toNat
  omega

theorem toNat_not (a : Word) : (uint256Not a).toNat = 2 ^ 256 - 1 - a.toNat := by
  have h0 := a.limb0.toNat_lt
  have h1 := a.limb1.toNat_lt
  have h2 := a.limb2.toNat_lt
  have h3 := a.limb3.toNat_lt
  simp only [uint256Not, ofLimbs, limb, Word.toNat, UInt64.toNat_not, UInt64.size]
  omega

theorem toNat_negate (a : Word) : (uint256Negate a).toNat = (2 ^ 256 - a.toNat) % 2 ^ 256 := by
  have hlt := a.toNat_lt
  have hone : (uint256FromU64 1).toNat = 1 := toNat_fromU64 1
  rw [uint256Negate, toNat_add, toNat_not, hone]
  congr 1
  omega

theorem toInt_of_lt {a : Word} (h : a.toNat < 2 ^ 255) : toInt a = a.toNat := if_pos h

/-- Negation up to the smallest value. -/
theorem toInt_negate {a : Word} (h : a.toNat ≤ 2 ^ 255) : toInt (uint256Negate a) = -a.toNat := by
  rw [toInt, toNat_negate]
  split <;> omega

theorem toNat_absolute_le (a : Word) : (absolute a).toNat ≤ 2 ^ 255 := by
  have hlt := a.toNat_lt
  unfold absolute
  split
  · next hneg =>
    rw [isNegative_iff] at hneg
    rw [toNat_negate]
    omega
  · next hpos =>
    rw [isNegative_iff] at hpos
    omega

/-- Sign and absolute value. -/
theorem toInt_eq (a : Word) :
    toInt a = if uint256IsNegative a then -((absolute a).toNat : ℤ) else (absolute a).toNat := by
  have hlt := a.toNat_lt
  have hneg := isNegative_iff a
  unfold absolute
  split
  · next h =>
    have hge := hneg.mp h
    rw [toInt, toNat_negate, if_neg (by omega)]
    omega
  · next h =>
    rw [hneg, not_le] at h
    exact toInt_of_lt h

theorem toInt_eq_zero_iff (a : Word) : toInt a = 0 ↔ a.toNat = 0 := by
  have hlt := a.toNat_lt
  unfold toInt
  split <;> omega

theorem absolute_ne_zero (hb : toInt b ≠ 0) : (absolute b).toNat ≠ 0 := by
  intro hzero
  apply hb
  rw [toInt_eq, hzero]
  simp

/-- The unsigned part of `uint256_sdiv`: both its paths divide the absolute values. -/
theorem absQuotient_spec (a b : Word) (hb : b.toNat ≠ 0) :
    (if uint256FitsU64 a ∧ uint256FitsU64 b then uint256FromU64 (a.limb0 / b.limb0)
      else uint256Div a b).toNat = a.toNat / b.toNat := by
  split
  · next hfits =>
    rw [toNat_fromU64, UInt64.toNat_div, toNat_of_fitsU64 hfits.1, toNat_of_fitsU64 hfits.2]
  · exact (uint256Divmod_spec a hb).1

theorem absRemainder_spec (a b : Word) (hb : b.toNat ≠ 0) :
    (if uint256FitsU64 a ∧ uint256FitsU64 b then uint256FromU64 (a.limb0 % b.limb0)
      else uint256Mod a b).toNat = a.toNat % b.toNat := by
  split
  · next hfits =>
    rw [toNat_fromU64, UInt64.toNat_mod, toNat_of_fitsU64 hfits.1, toNat_of_fitsU64 hfits.2]
  · exact toNat_mod a hb

theorem toInt_minNegativeValue : toInt minNegativeValue = -2 ^ 255 := by decide

theorem toInt_minusOne : toInt minusOne = -1 := by decide

theorem toInt_injective {a b : Word} (h : toInt a = toInt b) : a = b := by
  have ha := a.toNat_lt
  have hb := b.toNat_lt
  apply Word.toNat_injective
  unfold toInt at h
  split_ifs at h <;> omega

/-- The quotient is truncated toward zero. -/
theorem toInt_sdiv (a : Word) (hb : toInt b ≠ 0) :
    toInt (uint256Sdiv a b) =
      if toInt a = -2 ^ 255 ∧ toInt b = -1 then -2 ^ 255 else (toInt a).tdiv (toInt b) := by
  have hzero : ¬ uint256IsZero b = true := by rwa [isZero_iff, ← toInt_eq_zero_iff]
  have habs := absolute_ne_zero hb
  have hquot := absQuotient_spec (absolute a) (absolute b) habs
  have hle : (absolute a).toNat / (absolute b).toNat ≤ 2 ^ 255 :=
    (Nat.div_le_self _ _).trans (toNat_absolute_le a)
  have hspecial : (uint256Eq a minNegativeValue && uint256Eq b minusOne) = true ↔
      toInt a = -2 ^ 255 ∧ toInt b = -1 := by
    rw [Bool.and_eq_true, eq_iff, eq_iff, ← toInt_minNegativeValue, ← toInt_minusOne]
    exact and_congr ⟨congrArg toInt, toInt_injective⟩ ⟨congrArg toInt, toInt_injective⟩
  unfold uint256Sdiv
  rw [if_neg hzero]
  by_cases hmin : toInt a = -2 ^ 255 ∧ toInt b = -1
  · rw [if_pos (hspecial.mpr hmin), if_pos hmin, toInt_minNegativeValue]
  · rw [if_neg (hspecial.not.mpr hmin), if_neg hmin]
    dsimp only
    generalize (if uint256FitsU64 (absolute a) ∧ uint256FitsU64 (absolute b) then
      uint256FromU64 ((absolute a).limb0 / (absolute b).limb0)
      else uint256Div (absolute a) (absolute b)) = q at *
    have hqle : q.toNat ≤ 2 ^ 255 := hquot ▸ hle
    -- equal signs leave the quotient below `2 ^ 255`, the excluded case apart
    have hsmall (hsame : uint256IsNegative a = uint256IsNegative b) : q.toNat < 2 ^ 255 := by
      by_contra hbig
      have hmul : 2 ^ 255 * (absolute b).toNat ≤ (absolute a).toNat :=
        (Nat.le_div_iff_mul_le (Nat.pos_of_ne_zero habs)).mp (by omega)
      have hA := toNat_absolute_le a
      have hneg : uint256IsNegative a = true := by
        by_contra hpos
        have hval := toInt_eq a
        rw [if_neg hpos] at hval
        rw [isNegative_iff] at hpos
        rw [toInt_of_lt (by omega)] at hval
        omega
      apply hmin
      rw [toInt_eq a, toInt_eq b, ← hsame, if_pos hneg, if_pos hneg]
      omega
    have hcast : ((absolute a).toNat : ℤ).tdiv (absolute b).toNat = q.toNat := by
      rw [hquot, Int.ofNat_tdiv]
    rw [toInt_eq a, toInt_eq b]
    cases ha : uint256IsNegative a with
    | false =>
      cases hb : uint256IsNegative b with
      | false => simpa [hcast] using toInt_of_lt (hsmall (ha.trans hb.symm))
      | true => simpa [hcast, Int.tdiv_neg] using toInt_negate hqle
    | true =>
      cases hb : uint256IsNegative b with
      | false => simpa [hcast, Int.neg_tdiv] using toInt_negate hqle
      | true =>
        simpa [hcast, Int.neg_tdiv, Int.tdiv_neg] using toInt_of_lt (hsmall (ha.trans hb.symm))

/-- The remainder has the sign of the dividend. -/
theorem toInt_smod (a : Word) (hb : toInt b ≠ 0) :
    toInt (uint256Smod a b) = (toInt a).tmod (toInt b) := by
  have hzero : ¬ uint256IsZero b = true := by rwa [isZero_iff, ← toInt_eq_zero_iff]
  have habs := absolute_ne_zero hb
  have hrem := absRemainder_spec (absolute a) (absolute b) habs
  have hlt := Nat.mod_lt (absolute a).toNat (Nat.pos_of_ne_zero habs)
  have hle := toNat_absolute_le b
  unfold uint256Smod
  rw [if_neg hzero]
  dsimp only
  generalize (if uint256FitsU64 (absolute a) ∧ uint256FitsU64 (absolute b) then
    uint256FromU64 ((absolute a).limb0 % (absolute b).limb0)
    else uint256Mod (absolute a) (absolute b)) = r at *
  have hsign : ((absolute a).toNat : ℤ).tmod (toInt b) = r.toNat := by
    rw [toInt_eq b, hrem]
    split
    · rw [Int.tmod_neg, Int.ofNat_tmod]
    · rw [Int.ofNat_tmod]
  rw [toInt_eq a]
  split
  · rw [Int.neg_tmod, hsign, toInt_negate (by omega)]
  · rw [hsign, toInt_of_lt (by omega)]

/-- Signed division and remainder over two's complement integers. -/
theorem signed_division (a b : Word) :
    (toInt b = 0 → uint256Sdiv a b = uint256Zero ∧ uint256Smod a b = uint256Zero) ∧
      (toInt b ≠ 0 →
        toInt (uint256Sdiv a b) =
            (if toInt a = -2 ^ 255 ∧ toInt b = -1 then -2 ^ 255
              else (toInt a).tdiv (toInt b)) ∧
          toInt (uint256Smod a b) = (toInt a).tmod (toInt b) ∧
          |toInt (uint256Smod a b)| < |toInt b| ∧
          (0 ≤ toInt a → 0 ≤ toInt (uint256Smod a b)) ∧
          (toInt a ≤ 0 → toInt (uint256Smod a b) ≤ 0) ∧
          toInt a ≡ toInt (uint256Sdiv a b) * toInt b + toInt (uint256Smod a b)
            [ZMOD 2 ^ 256]) := by
  refine ⟨fun hb => ?_, fun hb => ⟨toInt_sdiv a hb, toInt_smod a hb, ?_, ?_, ?_, ?_⟩⟩
  · have hzero : uint256IsZero b = true := by rwa [isZero_iff, ← toInt_eq_zero_iff]
    rw [uint256Sdiv, uint256Smod, if_pos hzero, if_pos hzero]
    exact ⟨rfl, rfl⟩
  · rw [toInt_smod a hb]
    have hlt := Nat.mod_lt (toInt a).natAbs (Int.natAbs_pos.mpr hb)
    rw [← Int.natAbs_tmod] at hlt
    rw [Int.abs_eq_natAbs, Int.abs_eq_natAbs]
    exact_mod_cast hlt
  · intro ha
    rw [toInt_smod a hb]
    exact Int.tmod_nonneg _ ha
  · intro ha
    rw [toInt_smod a hb]
    have hneg := Int.tmod_nonneg (toInt b) (neg_nonneg.mpr ha)
    rw [Int.neg_tmod] at hneg
    exact neg_nonneg.mp hneg
  · rw [toInt_sdiv a hb, toInt_smod a hb]
    split
    · next hmin =>
      rw [hmin.1, hmin.2]
      decide
    · rw [Int.tdiv_mul_add_tmod]

end Div0.WordDivision
