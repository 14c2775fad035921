import Div0.LimbDivision

/-!
Division by one limb. The reciprocal of a normalised limb is computed from a table of short
approximations by three steps of Newton's iteration and a last correction. The steps are
first followed on numbers, where the residue of every approximation is bounded; then the
limb arithmetic is seen to compute the same numbers.
-/

namespace Div0.Reciprocal

open Uint256 Uint256Div LimbDivision

def approx0 (d : ℕ) : ℕ := 523520 / (d / 2 ^ 55)

def lead40 (d : ℕ) : ℕ := d / 2 ^ 24 + 1

def approx1 (d : ℕ) : ℕ := 2 ^ 11 * approx0 d - approx0 d ^ 2 * lead40 d / 2 ^ 40 - 1

def approx2 (d : ℕ) : ℕ :=
  2 ^ 13 * approx1 d + approx1 d * (2 ^ 60 - approx1 d * lead40 d) / 2 ^ 47

def residue2 (d : ℕ) : ℕ := 2 ^ 97 - approx2 d * d

def approx3 (d : ℕ) : ℕ := 2 ^ 31 * approx2 d + approx2 d * (residue2 d / 2) / 2 ^ 65

section Approximations

variable {d : ℕ}

section

variable (hd : 2 ^ 63 ≤ d)
include hd

theorem lead40_bounds (hlt : d < 2 ^ 64) :
    2 ^ 39 < lead40 d ∧ lead40 d ≤ 2 ^ 40 ∧ d < lead40 d * 2 ^ 24 ∧
      lead40 d * 2 ^ 24 ≤ d + 2 ^ 24 := by
  unfold lead40
  omega

/-- The entry of the table is off by less than 1279 parts in `2 ^ 19`. -/
theorem approx0_bounds (hlt : d < 2 ^ 64) :
    approx0 d ≤ 2045 ∧ 1024 ≤ approx0 d ∧ approx0 d * lead40 d < 2 ^ 50 + 1279 * 2 ^ 31 ∧
      2 ^ 50 < approx0 d * lead40 d + 1279 * 2 ^ 31 := by
  have hd9 : 256 ≤ d / 2 ^ 55 ∧ d / 2 ^ 55 ≤ 511 := by omega
  have hlead : d / 2 ^ 55 * 2 ^ 31 < lead40 d ∧ lead40 d ≤ (d / 2 ^ 55 + 1) * 2 ^ 31 := by
    unfold lead40
    omega
  have hdiv := Nat.div_add_mod 523520 (d / 2 ^ 55)
  have hmod := Nat.mod_lt 523520 (by omega : 0 < d / 2 ^ 55)
  have hmax : approx0 d ≤ 2045 := Nat.div_le_of_le_mul (by omega)
  have hmin : 1024 ≤ approx0 d := (Nat.le_div_iff_mul_le (by omega)).mpr (by omega)
  have hlow : approx0 d * (d / 2 ^ 55 * 2 ^ 31) ≤ approx0 d * lead40 d :=
    Nat.mul_le_mul_left _ hlead.1.le
  have hhigh : approx0 d * lead40 d ≤ approx0 d * ((d / 2 ^ 55 + 1) * 2 ^ 31) :=
    Nat.mul_le_mul_left _ hlead.2
  unfold approx0 at *
  refine ⟨hmax, hmin, ?_, ?_⟩
  · have hprod : 523520 / (d / 2 ^ 55) * ((d / 2 ^ 55 + 1) * 2 ^ 31) =
        d / 2 ^ 55 * (523520 / (d / 2 ^ 55)) * 2 ^ 31 + 523520 / (d / 2 ^ 55) * 2 ^ 31 := by
      ring
    omega
  · have hprod : 523520 / (d / 2 ^ 55) * (d / 2 ^ 55 * 2 ^ 31) =
        d / 2 ^ 55 * (523520 / (d / 2 ^ 55)) * 2 ^ 31 := by ring
    omega

/-- What the rounding of the first step costs. -/
theorem approx1_eq (hlt : d < 2 ^ 64) :
    ∃ k, 0 < k ∧ k ≤ 2 ^ 40 ∧
      2 ^ 40 * approx1 d + approx0 d ^ 2 * lead40 d + k = 2 ^ 51 * approx0 d := by
  obtain ⟨hmax, hmin, -, -⟩ := approx0_bounds hd hlt
  obtain ⟨-, hlead, -, -⟩ := lead40_bounds hd hlt
  have hsquare : approx0 d ^ 2 * lead40 d ≤ approx0 d * (2045 * 2 ^ 40) := by
    rw [pow_two, Nat.mul_assoc]
    exact Nat.mul_le_mul_left _ (Nat.mul_le_mul hmax hlead)
  refine ⟨2 ^ 40 - approx0 d ^ 2 * lead40 d % 2 ^ 40, by omega, by omega, ?_⟩
  unfold approx1
  omega

/-- The first step leaves a residue below `2 ^ 43`. -/
theorem approx1_bounds (hlt : d < 2 ^ 64) :
    approx1 d * lead40 d < 2 ^ 60 ∧ 2 ^ 60 < approx1 d * lead40 d + 7970000000000 := by
  obtain ⟨k, hk, hkle, hnext⟩ := approx1_eq hd hlt
  obtain ⟨hmax, hmin, habove, hbelow⟩ := approx0_bounds hd hlt
  obtain ⟨hlead, hlead', -, -⟩ := lead40_bounds hd hlt
  generalize approx1 d = v1 at *
  generalize approx0 d = v0 at *
  generalize lead40 d = d40 at *
  zify at *
  have hstep := LongDivision.newton_step (w := v0) (x := v1) (d := d40) (t := 2 ^ 40) (k := k)
    (e := 2 ^ 50 - v0 * d40) (n := 2 ^ 50) (by ring) (by linear_combination hnext)
  have hsquare : (2 ^ 50 - (v0 : ℤ) * d40) ^ 2 ≤ (1279 * 2 ^ 31) ^ 2 := by
    apply sq_le_sq' <;> linarith
  have hpos : 0 ≤ (2 ^ 50 - (v0 : ℤ) * d40) ^ 2 := sq_nonneg _
  have hcost : 0 < (k : ℤ) * d40 := by positivity
  have hcost' : (k : ℤ) * d40 ≤ 2 ^ 40 * 2 ^ 40 := mul_le_mul hkle hlead' (by positivity)
      (by positivity)
  constructor <;> linarith

/-- The second step leaves a residue that exceeds `d` by less than `2 ^ 63`. -/
theorem approx2_bounds (hlt : d < 2 ^ 64) :
    approx2 d < 2 ^ 34 ∧ approx2 d * d < 2 ^ 97 ∧
      2 ^ 97 < approx2 d * d + d + 7900000000000000000 := by
  obtain ⟨hbelow, habove⟩ := approx1_bounds hd hlt
  obtain ⟨hlead, hlead', hup, hdown⟩ := lead40_bounds hd hlt
  obtain ⟨e, he⟩ := Nat.exists_eq_add_of_lt hbelow
  have hnext : 2 ^ 47 * approx2 d + approx1 d * (e + 1) % 2 ^ 47 =
      (2 ^ 60 + (e + 1)) * approx1 d := by
    have hres : 2 ^ 60 - approx1 d * lead40 d = e + 1 := by omega
    have hdiv := Nat.div_add_mod (approx1 d * (e + 1)) (2 ^ 47)
    unfold approx2
    rw [hres]
    linear_combination hdiv
  have hround := Nat.mod_lt (approx1 d * (e + 1)) (by norm_num : 0 < 2 ^ 47)
  generalize approx1 d * (e + 1) % 2 ^ 47 = k at *
  generalize approx2 d = v2 at *
  generalize approx1 d = v1 at *
  generalize lead40 d = d40 at *
  zify at *
  have hstep := LongDivision.newton_step (w := v1) (x := v2) (d := d40) (t := 2 ^ 47) (k := k)
    (e := e + 1) (n := 2 ^ 60) (by linarith) hnext
  have hsquare : ((e : ℤ) + 1) ^ 2 ≤ 7970000000000 ^ 2 := by
    apply sq_le_sq' <;> linarith
  have hsquare' : 0 < ((e : ℤ) + 1) ^ 2 := by positivity
  have hcost : 0 ≤ (k : ℤ) * d40 := by positivity
  have hcost' : (k : ℤ) * d40 ≤ 2 ^ 47 * d40 :=
    mul_le_mul_of_nonneg_right hround.le (by positivity)
  have hv2 : (v2 : ℤ) < 2 ^ 34 := by
    by_contra hge
    have : (2 : ℤ) ^ 34 * d40 ≤ v2 * d40 :=
      mul_le_mul_of_nonneg_right (not_lt.mp hge) (by positivity)
    linarith
  have hpos : (0 : ℤ) < v2 := by
    by_contra hzero
    have hv0 : (v2 : ℤ) = 0 := by omega
    rw [hv0] at hstep
    linarith
  have hvup : (v2 : ℤ) * d < v2 * (d40 * 2 ^ 24) := mul_lt_mul_of_pos_left hup hpos
  have hvdown : (v2 : ℤ) * (d40 * 2 ^ 24) ≤ v2 * (d + 2 ^ 24) :=
    mul_le_mul_of_nonneg_left hdown (by positivity)
  refine ⟨hv2, by linarith, by linarith⟩

/-- The third step leaves a residue below twice `d`. -/
theorem approx3_bounds (hlt : d < 2 ^ 64) :
    approx3 d * d < 2 ^ 128 ∧ 2 ^ 128 < approx3 d * d + 2 * d := by
  obtain ⟨hsmall, hbelow, habove⟩ := approx2_bounds hd hlt
  obtain ⟨e, he⟩ := Nat.exists_eq_add_of_lt hbelow
  have hres : residue2 d = e + 1 := by
    unfold residue2
    omega
  have hnext : 2 ^ 66 * approx3 d + (2 * (approx2 d * ((e + 1) / 2) % 2 ^ 65) +
      approx2 d * ((e + 1) % 2)) = (2 ^ 97 + (e + 1)) * approx2 d := by
    have hdiv := Nat.div_add_mod (approx2 d * ((e + 1) / 2)) (2 ^ 65)
    have hpar := congrArg (approx2 d * ·) (Nat.div_add_mod (e + 1) 2)
    unfold approx3
    rw [hres]
    linear_combination 2 * hdiv + hpar
  have hround : 2 * (approx2 d * ((e + 1) / 2) % 2 ^ 65) + approx2 d * ((e + 1) % 2) ≤
      2 ^ 66 + 2 ^ 34 := by
    have hmod := Nat.mod_lt (approx2 d * ((e + 1) / 2)) (by norm_num : 0 < 2 ^ 65)
    have hone : approx2 d * ((e + 1) % 2) ≤ 2 ^ 34 * 1 := Nat.mul_le_mul hsmall.le (by omega)
    omega
  generalize 2 * (approx2 d * ((e + 1) / 2) % 2 ^ 65) + approx2 d * ((e + 1) % 2) = k at *
  generalize approx3 d = v3 at *
  generalize approx2 d = v2 at *
  zify at *
  have hstep := LongDivision.newton_step (w := v2) (x := v3) (d := d) (t := 2 ^ 66) (k := k)
    (e := e + 1) (n := 2 ^ 97) (by linarith) hnext
  have hsquare' : 0 < ((e : ℤ) + 1) ^ 2 := by positivity
  have hsquare : ((e : ℤ) + 1) ^ 2 ≤ (d + 7900000000000000000) ^ 2 := by
    apply sq_le_sq' <;> linarith
  have hcost : 0 ≤ (k : ℤ) * d := by positivity
  have hcost' : (k : ℤ) * d ≤ (2 ^ 66 + 2 ^ 34) * d :=
    mul_le_mul_of_nonneg_right hround (by positivity)
  -- the square stays below `2 ^ 66 * d` over the whole range of `d`
  have hrange : 0 ≤ ((d : ℤ) - 2 ^ 63) * (2 ^ 64 - d) :=
    mul_nonneg (by linarith) (by linarith)
  constructor <;> linarith

end

end Approximations

/-! ### The limb arithmetic -/

theorem reciprocalTable_eq : ∀ i : Fin 256,
    (reciprocalTable.getD i 0).toNat = 523520 / (256 + i.val) := by
  decide +kernel

theorem toNat_and_low32 (x : UInt64) : (x &&& 0xffffffff).toNat = x.toNat % 2 ^ 32 := by
  rw [UInt64.toNat_and]
  exact Nat.and_two_pow_sub_one_eq_mod x.toNat 32

variable {d : UInt64}

/-- `d40`. -/
theorem toNat_d40 (d : UInt64) : ((d >>> 24) + 1).toNat = lead40 d.toNat := by
  have hlt := d.toNat_lt
  have hshift : (d >>> 24).toNat = d.toNat / 2 ^ 24 := toNat_shiftRight_ofNat d (by norm_num)
  rw [UInt64.toNat_add, hshift, UInt64.toNat_one, lead40]
  omega

section Steps

variable (hd : 2 ^ 63 ≤ d.toNat)
include hd

/-- `v0`. -/
theorem toNat_v0 : (reciprocalTable.getD ((d >>> 55) - 256).toNat 0).toNat = approx0 d.toNat := by
  have hlt := d.toNat_lt
  have h9 : (d >>> 55).toNat = d.toNat / 2 ^ 55 := toNat_shiftRight_ofNat d (by norm_num)
  have hindex : ((d >>> 55) - 256).toNat = d.toNat / 2 ^ 55 - 256 := by
    rw [UInt64.toNat_sub_of_le, h9]
    · rfl
    · rw [UInt64.le_iff_toNat_le, h9]
      change 256 ≤ _
      omega
  have hentry : (reciprocalTable.getD (d.toNat / 2 ^ 55 - 256) 0).toNat =
      523520 / (256 + (d.toNat / 2 ^ 55 - 256)) :=
    reciprocalTable_eq ⟨d.toNat / 2 ^ 55 - 256, by omega⟩
  rw [hindex, hentry, approx0, Nat.add_sub_of_le (by omega)]

/-- `v1`. -/
theorem toNat_v1 {v0 d40 : UInt64} (h0 : v0.toNat = approx0 d.toNat)
    (h40 : d40.toNat = lead40 d.toNat) :
    ((v0 <<< 11) - ((((v0 * v0 &&& 0xffffffff) * d40) >>> 40) &&& 0xffffffff) - 1).toNat =
      approx1 d.toNat := by
  have hlt := d.toNat_lt
  obtain ⟨hmax, hmin, -, -⟩ := approx0_bounds hd hlt
  obtain ⟨-, hlead, -, -⟩ := lead40_bounds hd hlt
  obtain ⟨k, hk, hkle, hnext⟩ := approx1_eq hd hlt
  have hsquare : approx0 d.toNat ^ 2 ≤ 2045 ^ 2 := Nat.pow_le_pow_left hmax 2
  have hprod : approx0 d.toNat ^ 2 * lead40 d.toNat ≤ 2045 ^ 2 * 2 ^ 40 :=
    Nat.mul_le_mul hsquare hlead
  have hsq : (v0 * v0 &&& 0xffffffff).toNat = approx0 d.toNat ^ 2 := by
    rw [toNat_and_low32, UInt64.toNat_mul, h0, ← pow_two]
    omega
  have hmul : (((v0 * v0 &&& 0xffffffff) * d40) >>> 40).toNat =
      approx0 d.toNat ^ 2 * lead40 d.toNat / 2 ^ 40 := by
    have hshift := toNat_shiftRight_ofNat ((v0 * v0 &&& 0xffffffff) * d40) (s := 40) (by norm_num)
    rw [UInt64.toNat_mul, hsq, h40, Nat.mod_eq_of_lt (by omega)] at hshift
    exact hshift
  have hshift : (v0 <<< 11).toNat = v0.toNat * 2 ^ 11 % 2 ^ 64 :=
    toNat_shiftLeft_ofNat v0 (by norm_num)
  rw [UInt64.toNat_sub, UInt64.toNat_sub, toNat_and_low32, hmul, hshift, h0, UInt64.toNat_one]
  unfold approx1
  omega

/-- `v2`. -/
theorem toNat_v2 {v1 d40 : UInt64} (h1 : v1.toNat = approx1 d.toNat)
    (h40 : d40.toNat = lead40 d.toNat) :
    ((v1 <<< 13) + ((v1 * (0x1000000000000000 - v1 * d40)) >>> 47)).toNat = approx2 d.toNat := by
  have hlt := d.toNat_lt
  obtain ⟨hbelow, habove⟩ := approx1_bounds hd hlt
  obtain ⟨hsmall, -, -⟩ := approx2_bounds hd hlt
  obtain ⟨hlead, -, -, -⟩ := lead40_bounds hd hlt
  have hv1 : approx1 d.toNat < 2 ^ 21 := by
    by_contra hge
    have := Nat.mul_le_mul (not_lt.mp hge) hlead.le
    omega
  have hres : (0x1000000000000000 - v1 * d40).toNat =
      2 ^ 60 - approx1 d.toNat * lead40 d.toNat := by
    have hlit : (0x1000000000000000 : UInt64).toNat = 2 ^ 60 := by decide
    rw [UInt64.toNat_sub, UInt64.toNat_mul, h1, h40, hlit]
    omega
  have hprod : approx1 d.toNat * (2 ^ 60 - approx1 d.toNat * lead40 d.toNat) ≤
      2 ^ 21 * 7970000000000 := Nat.mul_le_mul hv1.le (by omega)
  have hmul : ((v1 * (0x1000000000000000 - v1 * d40)) >>> 47).toNat =
      approx1 d.toNat * (2 ^ 60 - approx1 d.toNat * lead40 d.toNat) / 2 ^ 47 := by
    have hshift := toNat_shiftRight_ofNat (v1 * (0x1000000000000000 - v1 * d40)) (s := 47)
      (by norm_num)
    rw [UInt64.toNat_mul, hres, h1, Nat.mod_eq_of_lt (by omega)] at hshift
    exact hshift
  have hshift : (v1 <<< 13).toNat = v1.toNat * 2 ^ 13 % 2 ^ 64 :=
    toNat_shiftLeft_ofNat v1 (by norm_num)
  rw [UInt64.toNat_add, hmul, hshift, h1]
  unfold approx2 at *
  omega

/-- `e`: half of the residue, rounded down. -/
theorem toNat_e {v2 : UInt64} (h2 : v2.toNat = approx2 d.toNat) :
    (((v2 >>> 1) &&& (0 - (d &&& 1) : UInt64)) - v2 * ((d >>> 1) + (d &&& 1))).toNat =
      residue2 d.toNat / 2 := by
  have hlt := d.toNat_lt
  obtain ⟨hsmall, hbelow, habove⟩ := approx2_bounds hd hlt
  have hbit : (d &&& 1).toNat = d.toNat % 2 := by
    rw [UInt64.toNat_and]
    exact Nat.and_two_pow_sub_one_eq_mod d.toNat 1
  have hhalf : (v2 >>> 1).toNat = v2.toNat / 2 ^ 1 := toNat_shiftRight_ofNat v2 (by norm_num)
  have hd2 : (d >>> 1).toNat = d.toNat / 2 ^ 1 := toNat_shiftRight_ofNat d (by norm_num)
  have hd63 : ((d >>> 1) + (d &&& 1)).toNat = (d.toNat + 1) / 2 := by
    rw [UInt64.toNat_add, hd2, hbit]
    omega
  have hmask : ((v2 >>> 1) &&& (0 - (d &&& 1) : UInt64)).toNat = v2.toNat / 2 * (d.toNat % 2) := by
    rcases Nat.mod_two_eq_zero_or_one d.toNat with hzero | hone
    · have hd0 : d &&& 1 = 0 := UInt64.toNat_inj.mp (hbit.trans hzero)
      rw [hd0, hzero]
      simp
    · have hd0 : d &&& 1 = 1 := UInt64.toNat_inj.mp (hbit.trans hone)
      have hones : (0 : UInt64) - 1 = -1 := by decide
      rw [hd0, hone, hones, UInt64.and_neg_one, hhalf]
      omega
  rw [UInt64.toNat_sub, hmask, UInt64.toNat_mul, hd63, h2]
  unfold residue2
  have hwhole : approx2 d.toNat * d.toNat + approx2 d.toNat * (d.toNat % 2) =
      2 * (approx2 d.toNat * ((d.toNat + 1) / 2)) := by
    rw [← Nat.mul_add, Nat.mul_left_comm]
    congr 1
    omega
  generalize approx2 d.toNat * ((d.toNat + 1) / 2) = p at *
  rcases Nat.mod_two_eq_zero_or_one d.toNat with hzero | hone
  · rw [hzero] at hwhole ⊢
    omega
  · rw [hone] at hwhole ⊢
    omega

theorem approx3_range : 2 ^ 64 ≤ approx3 d.toNat ∧ approx3 d.toNat < 2 ^ 65 := by
  have hlt := d.toNat_lt
  obtain ⟨hbelow, habove⟩ := approx3_bounds hd hlt
  constructor
  · by_contra hsmall
    have hmul : (approx3 d.toNat + 2) * d.toNat ≤ (2 ^ 64 + 1) * (2 ^ 64 - 1) :=
      Nat.mul_le_mul (by omega) (by omega)
    rw [Nat.add_mul] at hmul
    omega
  · by_contra hbig
    have hmul : 2 ^ 65 * 2 ^ 63 ≤ approx3 d.toNat * d.toNat := Nat.mul_le_mul (not_lt.mp hbig) hd
    omega

/-- `v3`, without the leading bit. -/
theorem toNat_v3 {v2 e : UInt64} (h2 : v2.toNat = approx2 d.toNat)
    (he : e.toNat = residue2 d.toNat / 2) :
    ((UInt64.ofNat (high64 (wideMul v2 e)) >>> 1) + (v2 <<< 31)).toNat + 2 ^ 64 =
      approx3 d.toNat := by
  have hlt := d.toNat_lt
  obtain ⟨hsmall, -, -⟩ := approx2_bounds hd hlt
  obtain ⟨hmin, hmax⟩ := approx3_range hd
  have hprod : v2.toNat * e.toNat < 2 ^ 64 * 2 ^ 64 :=
    Nat.mul_lt_mul'' v2.toNat_lt e.toNat_lt
  have hhigh : (UInt64.ofNat (high64 (wideMul v2 e)) >>> 1).toNat =
      approx2 d.toNat * (residue2 d.toNat / 2) / 2 ^ 65 := by
    rw [wideMul, h2, he] at *
    calc _ = (UInt64.ofNat (high64 (approx2 d.toNat * (residue2 d.toNat / 2)))).toNat / 2 ^ 1 :=
          toNat_shiftRight_ofNat _ (by norm_num)
      _ = approx2 d.toNat * (residue2 d.toNat / 2) / 2 ^ 64 / 2 ^ 1 := by
          rw [UInt64.toNat_ofNat', high64, Nat.mod_eq_of_lt (by omega)]
      _ = _ := by rw [Nat.div_div_eq_div_mul, ← pow_add]
  have hshift : (v2 <<< 31).toNat = v2.toNat * 2 ^ 31 % 2 ^ 64 :=
    toNat_shiftLeft_ofNat v2 (by norm_num)
  rw [UInt64.toNat_add, hhigh, hshift, h2]
  unfold approx3 at *
  omega

/-- The last correction. -/
theorem toNat_v4 {v3 : UInt64} (h3 : v3.toNat + 2 ^ 64 = approx3 d.toNat) :
    ∃ k, 1 ≤ k ∧ k ≤ d.toNat ∧
      (2 ^ 64 + (v3 - UInt64.ofNat (high64 ((wideMul v3 d + d.toNat) % 2 ^ 128)) - d).toNat) *
        d.toNat + k = 2 ^ 128 := by
  have hlt := d.toNat_lt
  have hv3 := v3.toNat_lt
  obtain ⟨hbelow, habove⟩ := approx3_bounds hd hlt
  obtain ⟨hmin, hmax⟩ := approx3_range hd
  rw [← h3, Nat.add_mul] at hbelow habove
  have hprod : v3.toNat * d.toNat ≤ (2 ^ 64 - 1) * d.toNat :=
    Nat.mul_le_mul_right _ (by omega)
  rw [Nat.sub_mul] at hprod
  have hwide : (wideMul v3 d + d.toNat) % 2 ^ 128 = v3.toNat * d.toNat + d.toNat := by
    rw [wideMul]
    omega
  rw [hwide]
  rcases le_or_gt (2 ^ 128) (v3.toNat * d.toNat + 2 ^ 64 * d.toNat + d.toNat) with hexact | hshort
  · have hhigh : high64 (v3.toNat * d.toNat + d.toNat) = 2 ^ 64 - d.toNat := by
      apply Nat.div_eq_of_lt_le <;> omega
    have hv4 : (v3 - UInt64.ofNat (high64 (v3.toNat * d.toNat + d.toNat)) - d).toNat =
        v3.toNat := by
      rw [UInt64.toNat_sub, UInt64.toNat_sub, UInt64.toNat_ofNat', hhigh]
      omega
    refine ⟨2 ^ 128 - (v3.toNat * d.toNat + 2 ^ 64 * d.toNat), by omega, by omega, ?_⟩
    rw [hv4, Nat.add_mul]
    omega
  · have hhigh : high64 (v3.toNat * d.toNat + d.toNat) = 2 ^ 64 - d.toNat - 1 := by
      apply Nat.div_eq_of_lt_le <;> omega
    have hv4 : (v3 - UInt64.ofNat (high64 (v3.toNat * d.toNat + d.toNat)) - d).toNat =
        v3.toNat + 1 := by
      have hroom : v3.toNat + 1 < 2 ^ 64 := by
        by_contra hfull
        have hmul : (2 ^ 64 - 1) * d.toNat ≤ v3.toNat * d.toNat :=
          Nat.mul_le_mul_right _ (by omega)
        rw [Nat.sub_mul] at hmul
        omega
      rw [UInt64.toNat_sub, UInt64.toNat_sub, UInt64.toNat_ofNat', hhigh]
      omega
    refine ⟨2 ^ 128 - (v3.toNat * d.toNat + 2 ^ 64 * d.toNat + d.toNat), by omega, by omega, ?_⟩
    rw [hv4, Nat.add_mul, Nat.add_mul]
    omega

/-- The reciprocal is exact: one more would be too much. -/
theorem reciprocal2by1_spec : ∃ k, 1 ≤ k ∧ k ≤ d.toNat ∧
    (2 ^ 64 + (reciprocal2by1 d).toNat) * d.toNat + k = 2 ^ 128 := by
  have h1 := toNat_v1 hd (toNat_v0 hd) (toNat_d40 d)
  have h2 := toNat_v2 hd h1 (toNat_d40 d)
  exact toNat_v4 hd (toNat_v3 hd h2 (toNat_e hd h2))

end Steps

/-- `v` is the reciprocal of the normalised limb `d`. -/
structure IsReciprocal (d v : UInt64) : Prop where
  normalised : 2 ^ 63 ≤ d.toNat
  exact : ∃ k, 1 ≤ k ∧ k ≤ d.toNat ∧ (2 ^ 64 + v.toNat) * d.toNat + k = 2 ^ 128

theorem isReciprocal_reciprocal2by1 (hd : 2 ^ 63 ≤ d.toNat) :
    IsReciprocal d (reciprocal2by1 d) := ⟨hd, reciprocal2by1_spec hd⟩

/-- A digit that is right up to multiples of the base is the quotient. -/
theorem digit_of_mod {u d q : ℕ} {digit r : UInt64} (hdigit : digit.toNat = q % 2 ^ 64)
    (hu : r.toNat + d * q = u) (hr : r.toNat < d) (hlt : u < 2 ^ 64 * d) :
    digit.toNat = u / d ∧ r.toNat = u % d := by
  obtain ⟨hq, hrem⟩ := (Nat.div_mod_unique (by omega : 0 < d)).mpr ⟨hu, hr⟩
  have hsmall : q < 2 ^ 64 := by
    rw [← hq]
    exact Nat.div_lt_of_lt_mul (by rwa [Nat.mul_comm])
  rw [hdigit, hq, hrem, Nat.mod_eq_of_lt hsmall]
  exact ⟨rfl, rfl⟩

section Digit

variable {uLo uHi d v : UInt64}

def guess (uLo uHi v : UInt64) : ℕ := (2 ^ 64 + v.toNat) * uHi.toNat + uLo.toNat

theorem guess_lt (uLo : UInt64) (h : IsReciprocal d v) (hu : uHi < d) : guess uLo uHi v < 2 ^ 128 := by
  obtain ⟨k, hk, -, hv⟩ := h.exact
  rw [UInt64.lt_iff_toNat_lt] at hu
  have hlo := uLo.toNat_lt
  have hmul : (2 ^ 64 + v.toNat) * (uHi.toNat + 1) ≤ (2 ^ 64 + v.toNat) * d.toNat :=
    Nat.mul_le_mul_left _ hu
  unfold guess
  rw [Nat.mul_succ] at hmul
  omega

/-- The bounds on what the digit after the guess leaves. -/
theorem guess_bounds (h : IsReciprocal d v) (hu : uHi < d) {q1 q0 : ℕ}
    (hq : 2 ^ 64 * q1 + q0 = guess uLo uHi v) (hq0 : q0 < 2 ^ 64) {r : ℤ}
    (hr : r = 2 ^ 64 * uHi.toNat + uLo.toNat - (q1 + 1) * d.toNat) :
    -d.toNat ≤ r ∧ q0 - 2 ^ 64 < r ∧ (r < 2 ^ 64 - d.toNat ∨ r < q0) := by
  obtain ⟨k, hk, hkd, hv⟩ := h.exact
  rw [UInt64.lt_iff_toNat_lt] at hu
  have hlo := uLo.toNat_lt
  have hd := d.toNat_lt
  rw [guess] at hq
  rw [hr]
  zify at *
  exact LongDivision.remainder_bounds (v := v.toNat) (k := k) (by linarith) (by linarith) hk hkd hd
    (by positivity) hu (by positivity) hlo (by positivity) hq0

def correct (qLo qHi r d : UInt64) : UInt64 × UInt64 :=
  let lowered := if r > qLo then (qHi - 1, r + d) else (qHi, r)
  if lowered.2 ≥ d then (lowered.1 + 1, lowered.2 - d) else lowered

theorem udivrem2by1_eq {q : ℕ}
    (hq : (wideMul v uHi + uLo.toNat + uHi.toNat * 2 ^ 64) % 2 ^ 128 = q) :
    udivrem2by1 uLo uHi d v = correct (UInt64.ofNat q) (UInt64.ofNat (high64 q) + 1)
      (uLo - (UInt64.ofNat (high64 q) + 1) * d) d := by
  subst hq
  rfl

/-- The corrections find the quotient, from a remainder that the limb holds modulo the
base. -/
theorem correct_spec {qLo qHi r d : UInt64} {u q1 : ℕ} {rest : ℤ} (hd : 2 ^ 63 ≤ d.toNat)
    (hqHi : qHi.toNat = (q1 + 1) % 2 ^ 64) (hr : (r.toNat : ℤ) = rest % 2 ^ 64)
    (hrest : rest = u - (q1 + 1) * d.toNat) (hu : u < 2 ^ 64 * d.toNat) (hlow : -d.toNat ≤ rest)
    (hneg : qLo.toNat - 2 ^ 64 < rest) (hhigh : rest < 2 ^ 64 - d.toNat ∨ rest < qLo.toNat) :
    (correct qLo qHi r d).1.toNat = u / d.toNat ∧ (correct qLo qHi r d).2.toNat = u % d.toNat := by
  have hlt := d.toNat_lt
  have hqlt := qLo.toNat_lt
  have hzero : (u : ℤ) = rest + d.toNat + d.toNat * q1 := by rw [hrest]; ring
  unfold correct
  by_cases hsign : rest < 0
  · have hbig : r > qLo := by
      rw [gt_iff_lt, UInt64.lt_iff_toNat_lt]
      omega
    have hsum : ((r + d).toNat : ℤ) = rest + d.toNat := by
      rw [UInt64.toNat_add]
      omega
    have hdone : ¬ r + d ≥ d := by
      rw [ge_iff_le, UInt64.le_iff_toNat_le]
      omega
    simp only [if_pos hbig, if_neg hdone]
    apply digit_of_mod (q := q1)
    · rw [UInt64.toNat_sub, hqHi, UInt64.toNat_one]
      omega
    · zify
      rw [hsum, hzero]
    · omega
    · exact hu
  · have hexact : (r.toNat : ℤ) = rest := by omega
    by_cases hbig : r > qLo
    · have hgap : (qLo.toNat : ℤ) < rest := by
        rw [gt_iff_lt, UInt64.lt_iff_toNat_lt] at hbig
        omega
      have hsum : (r + d).toNat = r.toNat + d.toNat := by
        rw [UInt64.toNat_add]
        omega
      have hmore : r + d ≥ d := by
        rw [ge_iff_le, UInt64.le_iff_toNat_le]
        omega
      simp only [if_pos hbig, if_pos hmore]
      rw [UInt64.sub_add_cancel, UInt64.add_sub_cancel]
      apply digit_of_mod hqHi _ (by omega) hu
      zify
      linear_combination hexact + hrest
    · have hgap : rest ≤ qLo.toNat := by
        rw [gt_iff_lt, UInt64.lt_iff_toNat_lt] at hbig
        omega
      by_cases hmore : r ≥ d
      · simp only [if_neg hbig, if_pos hmore]
        have hsub : (r - d).toNat = r.toNat - d.toNat := UInt64.toNat_sub_of_le _ _ hmore
        rw [ge_iff_le, UInt64.le_iff_toNat_le] at hmore
        apply digit_of_mod (q := q1 + 2) _ _ (by omega) hu
        · rw [UInt64.toNat_add, hqHi, UInt64.toNat_one]
          omega
        · rw [hsub]
          zify [hmore]
          linear_combination hexact + hrest
      · simp only [if_neg hbig, if_neg hmore]
        rw [ge_iff_le, UInt64.le_iff_toNat_le] at hmore
        apply digit_of_mod hqHi _ (by omega) hu
        zify
        linear_combination hexact + hrest

/-- Quotient and remainder of two limbs by one. -/
theorem udivrem2by1_spec (uLo : UInt64) (h : IsReciprocal d v) (hu : uHi < d) :
    (udivrem2by1 uLo uHi d v).1.toNat = (2 ^ 64 * uHi.toNat + uLo.toNat) / d.toNat ∧
      (udivrem2by1 uLo uHi d v).2.toNat = (2 ^ 64 * uHi.toNat + uLo.toNat) % d.toNat := by
  have hq := Nat.div_add_mod (guess uLo uHi v) (2 ^ 64)
  have hq0 := Nat.mod_lt (guess uLo uHi v) (by norm_num : 0 < 2 ^ 64)
  have hguess := guess_lt uLo h hu
  have hwide : (wideMul v uHi + uLo.toNat + uHi.toNat * 2 ^ 64) % 2 ^ 128 = guess uLo uHi v := by
    rw [← Nat.mod_eq_of_lt hguess, guess, wideMul]
    congr 1
    ring
  obtain ⟨hlow, hneg, hhigh⟩ := guess_bounds h hu hq hq0 rfl
  rw [udivrem2by1_eq hwide]
  have hqLo : (UInt64.ofNat (guess uLo uHi v)).toNat = guess uLo uHi v % 2 ^ 64 :=
    UInt64.toNat_ofNat'
  have hqHi : (UInt64.ofNat (high64 (guess uLo uHi v)) + 1).toNat =
      (guess uLo uHi v / 2 ^ 64 + 1) % 2 ^ 64 := by
    rw [UInt64.toNat_add, UInt64.toNat_ofNat', UInt64.toNat_one, high64]
    omega
  rw [UInt64.lt_iff_toNat_lt] at hu
  have hlo := uLo.toNat_lt
  refine correct_spec h.normalised hqHi ?_ rfl (by omega) (by exact_mod_cast hlow)
    (by rw [hqLo]; exact_mod_cast hneg) (by rw [hqLo]; exact_mod_cast hhigh)
  rw [UInt64.toNat_sub, UInt64.toNat_mul, hqHi, Nat.mod_mul_mod]
  have hcast : ((guess uLo uHi v / 2 ^ 64 : ℕ) + 1 : ℤ) * d.toNat =
      ((guess uLo uHi v / 2 ^ 64 + 1) * d.toNat : ℕ) := by push_cast; rfl
  rw [hcast]
  generalize (guess uLo uHi v / 2 ^ 64 + 1) * d.toNat = p
  omega

end Digit

/-- The kernel of the division: the reciprocal is the quotient of `2 ^ 128 - 1` without its
leading bit, and dividing with it is exact. -/
theorem reciprocal_kernel_exact {d : UInt64} (hd : 2 ^ 63 ≤ d.toNat) :
    ((reciprocal2by1 d).toNat : ℤ) = (2 ^ 128 - 1) / d.toNat - 2 ^ 64 ∧
      ∀ uHi uLo : UInt64, uHi < d →
        (udivrem2by1 uLo uHi d (reciprocal2by1 d)).1.toNat =
            (uHi.toNat * 2 ^ 64 + uLo.toNat) / d.toNat ∧
          (udivrem2by1 uLo uHi d (reciprocal2by1 d)).2.toNat =
            (uHi.toNat * 2 ^ 64 + uLo.toNat) % d.toNat := by
  have hv := isReciprocal_reciprocal2by1 hd
  constructor
  · obtain ⟨k, hk, hkd, hexact⟩ := hv.exact
    have hquot : (2 ^ 128 - 1) / d.toNat = 2 ^ 64 + (reciprocal2by1 d).toNat := by
      refine Nat.div_eq_of_lt_le (by omega) ?_
      rw [Nat.succ_mul]
      omega
    have hcast : (2 ^ 128 - 1 : ℤ) / d.toNat = ((2 ^ 128 - 1) / d.toNat : ℕ) := by norm_num
    rw [hcast, hquot]
    omega
  · intro uHi uLo hu
    rw [Nat.mul_comm uHi.toNat]
    exact udivrem2by1_spec uLo hv hu

/-- The smallest normalised limb. -/
theorem reciprocal_kernel_exact_least :
    ((reciprocal2by1 0x8000000000000000).toNat : ℤ) =
        (2 ^ 128 - 1) / (0x8000000000000000 : UInt64).toNat - 2 ^ 64 ∧
      (udivrem2by1 5 1 0x8000000000000000 (reciprocal2by1 0x8000000000000000)).1.toNat =
        ((1 : UInt64).toNat * 2 ^ 64 + (5 : UInt64).toNat) / (0x8000000000000000 : UInt64).toNat :=
  have hkernel := reciprocal_kernel_exact (d := 0x8000000000000000) (by decide)
  ⟨hkernel.1, (hkernel.2 1 5 (by decide)).1⟩

/-- The limbs are divided one after the other, the highest first. -/
theorem divLimbs_value {d v : UInt64} (h : IsReciprocal d v) {rem : UInt64} (hrem : rem < d)
    (us : Limbs) :
    (divLimbs d v us rem).1.length = us.length ∧ (divLimbs d v us rem).2 < d ∧
      value (divLimbs d v us rem).1 * d.toNat + (divLimbs d v us rem).2.toNat =
        value us + (2 ^ 64) ^ us.length * rem.toNat := by
  induction us with
  | nil => simpa [divLimbs] using hrem
  | cons u us ih =>
    obtain ⟨hlength, habove, hvalue⟩ := ih
    rw [divLimbs]
    obtain ⟨hdigit, hleft⟩ := udivrem2by1_spec u h habove
    have hpos : 0 < d.toNat := lt_of_lt_of_le (by norm_num) h.normalised
    have hsplit := Nat.div_add_mod (2 ^ 64 * (divLimbs d v us rem).2.toNat + u.toNat) d.toNat
    rw [← hdigit, ← hleft] at hsplit
    refine ⟨congrArg (· + 1) hlength, ?_, ?_⟩
    · rw [UInt64.lt_iff_toNat_lt, hleft]
      exact Nat.mod_lt _ hpos
    · rw [value_cons, value_cons, List.length_cons, pow_succ]
      linear_combination hsplit + 2 ^ 64 * hvalue

/-- Division by one limb. -/
theorem divmodSingleLimb_spec (dividend : Word) {divisor : UInt64} (hne : divisor ≠ 0) :
    (divmodSingleLimb dividend divisor).1.toNat = dividend.toNat / divisor.toNat ∧
      (divmodSingleLimb dividend divisor).2.toNat = dividend.toNat % divisor.toNat := by
  obtain ⟨hs, hge, hlt⟩ := clz_spec hne
  have hnorm : (divisor <<< UInt64.ofNat (clz divisor)).toNat =
      divisor.toNat * 2 ^ clz divisor := by
    rw [toNat_shiftLeft_ofNat _ hs, Nat.mod_eq_of_lt hlt]
  have hrec := isReciprocal_reciprocal2by1 (hnorm.symm ▸ hge)
  obtain ⟨hvalue, hout⟩ := shiftLimbs_value hs (limbs dividend)
  have htop : (shiftLimbs (clz divisor) (limbs dividend)).2 <
      divisor <<< UInt64.ofNat (clz divisor) := by
    rw [UInt64.lt_iff_toNat_lt, hnorm]
    have hpow : 2 ^ clz divisor ≤ 2 ^ 63 := Nat.pow_le_pow_right (by norm_num) (by omega)
    omega
  obtain ⟨hlength, hrem, hdiv⟩ := divLimbs_value hrec htop
    (shiftLimbs (clz divisor) (limbs dividend)).1
  rw [shiftLimbs_length] at hlength hdiv
  rw [hvalue, value_limbs, hnorm] at hdiv
  rw [UInt64.lt_iff_toNat_lt, hnorm] at hrem
  unfold divmodSingleLimb
  dsimp only
  generalize divLimbs (divisor <<< UInt64.ofNat (clz divisor))
    (reciprocal2by1 (divisor <<< UInt64.ofNat (clz divisor)))
    (shiftLimbs (clz divisor) (limbs dividend)).1
    (shiftLimbs (clz divisor) (limbs dividend)).2 = out at *
  have hfour : out.1.take 4 = out.1 := List.take_of_length_le hlength.le
  have hsum : out.2.toNat + divisor.toNat * 2 ^ clz divisor * value out.1 =
      dividend.toNat * 2 ^ clz divisor := by
    rw [← hdiv]
    ring
  obtain ⟨hq, hr⟩ := (Nat.div_mod_unique (by omega)).mpr ⟨hsum, hrem⟩
  rw [Nat.mul_div_mul_right _ _ (by positivity)] at hq
  rw [Nat.mul_mod_mul_right] at hr
  refine ⟨?_, ?_⟩
  · rw [toNat_fromLimbs, hfour, hq]
  · rw [toNat_fromU64, toNat_shiftRight_ofNat _ hs, ← hr, Nat.mul_div_cancel _ (by positivity)]

end Div0.Reciprocal
