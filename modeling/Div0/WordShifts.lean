import Div0.WordDivision

/-!
Exponentiation, shifts, sign extension and bytes of words, against the integers.
Exponentiation is square and multiply; what is still to be multiplied is a power of the
multiplier. Shifts and sign extension are compared bit by bit: bit `i` of a word is bit
`i % 64` of its limb `i / 64`.
-/

namespace Div0.WordShifts

open BigEndian Uint256 Uint256Ops LimbDivision WordDivision

/-! ### Exponentiation -/

theorem toNat_halve (e : Word) : (halve e).toNat = e.toNat / 2 := by
  have h0 := e.limb0.toNat_lt
  have h1 := e.limb1.toNat_lt
  have h2 := e.limb2.toNat_lt
  have hpair : ∀ x y : UInt64, ((x >>> 1) ||| (y <<< 63)).toNat =
      x.toNat / 2 ^ 1 + y.toNat * 2 ^ 63 % 2 ^ 64 :=
    fun x y => toNat_or_carry_high x y (by norm_num) (by norm_num)
  have hlast : (e.limb3 >>> 1).toNat = e.limb3.toNat / 2 ^ 1 :=
    toNat_shiftRight_ofNat e.limb3 (by norm_num)
  simp only [halve, Word.toNat, hpair, hlast]
  omega

theorem low_bit (e : Word) : e.limb0 &&& 1 = 0 ↔ e.toNat % 2 = 0 := by
  have hbit : (e.limb0 &&& 1).toNat = e.limb0.toNat % 2 := by
    rw [UInt64.toNat_and]
    exact Nat.and_two_pow_sub_one_eq_mod e.limb0.toNat 1
  rw [← UInt64.toNat_inj, hbit, UInt64.toNat_zero, Word.toNat]
  omega

/-- What one round multiplies in. -/
theorem toNat_round (result multiplier e : Word) :
    (if e.limb0 &&& 1 ≠ 0 then uint256Mul result multiplier else result).toNat % 2 ^ 256 =
      result.toNat * multiplier.toNat ^ (e.toNat % 2) % 2 ^ 256 := by
  split
  · next hodd =>
    have hone : e.toNat % 2 = 1 := by
      have := (low_bit e).not.mp hodd
      omega
    rw [hone, pow_one, toNat_mul, Nat.mod_mod]
  · next heven =>
    rw [not_not, low_bit] at heven
    rw [heven, pow_zero, Nat.mul_one]

/-- The loop multiplies the result by the multiplier to the power of the exponent. -/
theorem expLoop_spec {rounds : ℕ} {result multiplier e : Word} (he : e.toNat < 2 ^ rounds) :
    (expLoop rounds result multiplier e).toNat =
      result.toNat * multiplier.toNat ^ e.toNat % 2 ^ 256 := by
  induction rounds generalizing result multiplier e with
  | zero =>
    have hzero : e.toNat = 0 := by omega
    rw [expLoop, hzero, pow_zero, Nat.mul_one, Nat.mod_eq_of_lt result.toNat_lt]
  | succ rounds ih =>
    rw [expLoop]
    split
    · next hzero =>
      rw [(isZero_iff e).mp hzero, pow_zero, Nat.mul_one, Nat.mod_eq_of_lt result.toNat_lt]
    · have hhalf : (halve e).toNat < 2 ^ rounds := by
        rw [toNat_halve]
        rw [pow_succ] at he
        omega
      have hsplit : e.toNat = e.toNat % 2 + 2 * (e.toNat / 2) := (Nat.mod_add_div _ 2).symm
      rw [ih hhalf, toNat_halve, toNat_mul, Nat.mul_mod, toNat_round, ← Nat.pow_mod, ← Nat.mul_mod]
      conv_rhs => rw [hsplit, pow_add, pow_mul, pow_two]
      rw [Nat.mul_assoc]

theorem toNat_halve_iterate (n : ℕ) (e : Word) : (halve^[n] e).toNat = e.toNat / 2 ^ n := by
  induction n generalizing e with
  | zero => simp
  | succ n ih =>
    rw [Function.iterate_succ_apply, ih, toNat_halve, Nat.div_div_eq_div_mul, pow_succ']

/-- An even base to a power above 255 is a multiple of `2 ^ 256`. -/
theorem even_pow_mod {base exponent : ℕ} (heven : base % 2 = 0) (hbig : 255 < exponent) :
    base ^ exponent % 2 ^ 256 = 0 := by
  apply Nat.mod_eq_zero_of_dvd
  calc 2 ^ 256 ∣ 2 ^ exponent := pow_dvd_pow 2 hbig
    _ ∣ base ^ exponent := pow_dvd_pow_of_dvd (Nat.dvd_of_mod_eq_zero heven) exponent

theorem exponent_gt {exponent : Word} (h : exponent.limb0 > 255 ∨ exponent.limb1 ≠ 0 ∨
    exponent.limb2 ≠ 0 ∨ exponent.limb3 ≠ 0) : 255 < exponent.toNat := by
  have hlit : (255 : UInt64).toNat = 255 := rfl
  simp only [gt_iff_lt, UInt64.lt_iff_toNat_lt, ne_eq, ← UInt64.toNat_inj, UInt64.toNat_zero,
    hlit] at h
  unfold Word.toNat
  omega

/-- Product and power modulo `2 ^ 256`; the exponent of the loop is used up after at most
256 rounds. -/
theorem mul_exp_exact (a b base exponent : Word) :
    (uint256Mul a b).toNat = a.toNat * b.toNat % 2 ^ 256 ∧
      (uint256Exp base exponent).toNat = base.toNat ^ exponent.toNat % 2 ^ 256 ∧
      uint256IsZero (halve^[256] exponent) = true := by
  refine ⟨toNat_mul a b, ?_, ?_⟩
  · have hone : (uint256FromU64 1).toNat = 1 := toNat_fromU64 1
    unfold uint256Exp
    split
    · next hzero =>
      rw [(isZero_iff exponent).mp hzero, pow_zero, hone]
      norm_num
    · next hexp =>
      rw [isZero_iff] at hexp
      split
      · next hzero =>
        rw [(isZero_iff base).mp hzero, zero_pow hexp, Nat.zero_mod, toNat_zero]
      · split
        · next heq =>
          rw [(eq_iff base _).mp heq, hone, one_pow]
          norm_num
        · split
          · next hshort =>
            rw [even_pow_mod ((low_bit base).mp hshort.1) (exponent_gt hshort.2), toNat_zero]
          · rw [expLoop_spec exponent.toNat_lt, hone, Nat.one_mul]
  · rw [isZero_iff, toNat_halve_iterate]
    exact Nat.div_eq_of_lt exponent.toNat_lt

/-! ### Words as bits -/

theorem testBit_step (x : UInt64) (n i : ℕ) :
    (x.toNat + 2 ^ 64 * n).testBit i = if i < 64 then x.toNat.testBit i else n.testBit (i - 64) := by
  rw [Nat.add_comm, Nat.testBit_two_pow_mul_add n x.toNat_lt]

theorem testBit_limb_ge (x : UInt64) {i : ℕ} (h : 64 ≤ i) : x.toNat.testBit i = false :=
  Nat.testBit_lt_two_pow (lt_of_lt_of_le x.toNat_lt (Nat.pow_le_pow_right (by norm_num) h))

/-- Bit `i` of a word is bit `i % 64` of its limb `i / 64`. -/
theorem testBit_toNat (a : Word) {i : ℕ} (hi : i < 256) :
    a.toNat.testBit i = (limb a (i / 64)).toNat.testBit (i % 64) := by
  rw [Word.toNat, testBit_step, testBit_step, testBit_step]
  split
  · next h0 => rw [Nat.div_eq_of_lt h0, Nat.mod_eq_of_lt h0, limb]
  · split
    · rw [show i / 64 = 1 by omega, show i % 64 = i - 64 by omega, limb]
    · split
      · rw [show i / 64 = 2 by omega, show i % 64 = i - 64 - 64 by omega, limb]
      · rw [show i / 64 = 3 by omega, show i % 64 = i - 64 - 64 - 64 by omega]
        rfl

theorem testBit_toNat_ge (a : Word) {i : ℕ} (hi : 256 ≤ i) : a.toNat.testBit i = false :=
  Nat.testBit_lt_two_pow (lt_of_lt_of_le a.toNat_lt (Nat.pow_le_pow_right (by norm_num) hi))

theorem limb_ofLimbs (f : ℕ → UInt64) {k : ℕ} (hk : k < 4) : limb (ofLimbs f) k = f k := by
  interval_cases k <;> rfl

/-- A word and a number below `2 ^ 256` are equal when they agree bit by bit. -/
theorem toNat_eq_of_testBit {f : ℕ → UInt64} {n : ℕ} (hn : n < 2 ^ 256)
    (h : ∀ k j, k < 4 → j < 64 → (f k).toNat.testBit j = n.testBit (64 * k + j)) :
    (ofLimbs f).toNat = n := by
  apply Nat.eq_of_testBit_eq
  intro i
  rcases lt_or_ge i 256 with hi | hi
  · rw [testBit_toNat _ hi, limb_ofLimbs f (by omega), h _ _ (by omega) (by omega),
      Nat.div_add_mod]
  · rw [testBit_toNat_ge _ hi,
      Nat.testBit_lt_two_pow (lt_of_lt_of_le hn (Nat.pow_le_pow_right (by norm_num) hi))]

/-- The bits of a limb, by their position in the word. -/
theorem testBit_limb (a : Word) {k j : ℕ} (hk : k < 4) (hj : j < 64) :
    (limb a k).toNat.testBit j = a.toNat.testBit (64 * k + j) := by
  rw [testBit_toNat a (by omega), show (64 * k + j) / 64 = k by omega,
    show (64 * k + j) % 64 = j by omega]

variable {j : ℕ}

theorem testBit_shiftLeft_limb (x s : UInt64) (hs : s.toNat < 64) (hj : j < 64) :
    (x <<< s).toNat.testBit j = (decide (s.toNat ≤ j) && x.toNat.testBit (j - s.toNat)) := by
  rw [UInt64.toNat_shiftLeft, Nat.mod_eq_of_lt hs, Nat.testBit_mod_two_pow, Nat.testBit_shiftLeft]
  simp [hj]

theorem testBit_shiftRight_limb (x s : UInt64) (hs : s.toNat < 64) :
    (x >>> s).toNat.testBit j = x.toNat.testBit (s.toNat + j) := by
  rw [UInt64.toNat_shiftRight, Nat.mod_eq_of_lt hs, Nat.testBit_shiftRight]

/-! ### Shifts -/

variable {shift : Word}

theorem shift_of_large (h : (!uint256FitsU64 shift || decide (shift.limb0 ≥ 256)) = true) :
    256 ≤ shift.toNat := by
  have hlit : (256 : UInt64).toNat = 256 := rfl
  rw [Bool.or_eq_true, Bool.not_eq_true', ← Bool.not_eq_true, fitsU64_iff, decide_eq_true_eq,
    ge_iff_le, UInt64.le_iff_toNat_le, hlit] at h
  unfold Word.toNat at *
  omega

theorem shift_of_small (h : ¬ (!uint256FitsU64 shift || decide (shift.limb0 ≥ 256)) = true) :
    shift.toNat = shift.limb0.toNat ∧ shift.toNat < 256 := by
  have hlit : (256 : UInt64).toNat = 256 := rfl
  rw [Bool.or_eq_true, Bool.not_eq_true', ← Bool.not_eq_true, decide_eq_true_eq, not_or, not_not,
    ge_iff_le, UInt64.le_iff_toNat_le, hlit] at h
  have heq := toNat_of_fitsU64 h.1
  omega

/-- Two neighbouring limbs shifted together give 64 bits of the word in a row. -/
theorem testBit_joined (value : Word) {s t : UInt64} {a j : ℕ} (hs : 0 < s.toNat)
    (ht : 0 < t.toNat) (hst : s.toNat + t.toNat = 64) (ha : a + 1 < 4) (hj : j < 64) :
    ((limb value (a + 1) <<< s) ||| (limb value a >>> t)).toNat.testBit j =
      value.toNat.testBit (64 * a + t.toNat + j) := by
  rw [UInt64.toNat_or, Nat.testBit_or, testBit_shiftRight_limb _ _ (by omega : t.toNat < 64)]
  rcases Nat.lt_or_ge (t.toNat + j) 64 with hlow | hhigh
  · rw [testBit_limb value (by omega) hlow, testBit_shiftLeft_limb _ _ (by omega) hj,
      decide_eq_false (by omega), Bool.false_and, Bool.false_or, Nat.add_assoc]
  · rw [testBit_limb_ge _ hhigh, Bool.or_false, testBit_shiftLeft_limb _ _ (by omega) hj,
      decide_eq_true (by omega), Bool.true_and, testBit_limb value ha (by omega)]
    congr 1
    omega

theorem toNat_bitShift (hs : shift.toNat = shift.limb0.toNat) :
    (shift.limb0 % 64).toNat = shift.toNat % 64 := by
  rw [hs, UInt64.toNat_mod]
  rfl

/-- `64 - bit_shift`. -/
theorem toNat_invBitShift (hs : shift.toNat = shift.limb0.toNat) :
    (64 - shift.limb0 % 64).toNat = 64 - shift.toNat % 64 := by
  have hbit := toNat_bitShift hs
  have hle : shift.limb0 % 64 ≤ 64 := by
    rw [UInt64.le_iff_toNat_le, hbit]
    exact (Nat.mod_lt _ (by norm_num)).le
  rw [UInt64.toNat_sub_of_le _ _ hle, hbit]
  rfl

/-- Shift to the left. -/
theorem toNat_shl (shift value : Word) :
    (uint256Shl shift value).toNat = value.toNat * 2 ^ shift.toNat % 2 ^ 256 := by
  unfold uint256Shl
  split
  · next hlarge =>
    rw [toNat_zero, eq_comm]
    apply Nat.mod_eq_zero_of_dvd
    exact Dvd.dvd.mul_left (pow_dvd_pow 2 (shift_of_large hlarge)) _
  · next hsmall =>
    obtain ⟨hs, hlt⟩ := shift_of_small hsmall
    have hbit := toNat_bitShift hs
    have hinv := toNat_invBitShift hs
    have hbits : ∀ n, n < 256 → (value.toNat * 2 ^ shift.toNat % 2 ^ 256).testBit n =
        (decide (shift.toNat ≤ n) && value.toNat.testBit (n - shift.toNat)) := by
      intro n hn
      rw [Nat.testBit_mod_two_pow, ← Nat.shiftLeft_eq, Nat.testBit_shiftLeft]
      simp [hn]
    split
    · next hzero =>
      have hnone : shift.toNat = 0 := by rw [hs, hzero]; rfl
      rw [hnone, pow_zero, Nat.mul_one, Nat.mod_eq_of_lt value.toNat_lt]
    · dsimp only
      rw [← hs]
      split
      · next hwhole =>
        rw [← UInt64.toNat_inj, hbit, UInt64.toNat_zero] at hwhole
        apply toNat_eq_of_testBit (Nat.mod_lt _ (by norm_num))
        intro k j hk hj
        rw [hbits _ (by omega)]
        split
        · next hbelow =>
          rw [decide_eq_false (by omega), Bool.false_and, UInt64.toNat_zero, Nat.zero_testBit]
        · rw [testBit_limb value (by omega) hj, decide_eq_true (by omega), Bool.true_and]
          congr 1
          omega
      · next hpart =>
        rw [← UInt64.toNat_inj, hbit, UInt64.toNat_zero] at hpart
        apply toNat_eq_of_testBit (Nat.mod_lt _ (by norm_num))
        intro k j hk hj
        rw [hbits _ (by omega)]
        split
        · rw [decide_eq_false (by omega), Bool.false_and, UInt64.toNat_zero, Nat.zero_testBit]
        · split
          · next hfirst =>
            rw [testBit_shiftLeft_limb _ _ (by omega) hj, hbit]
            rcases Nat.lt_or_ge j (shift.toNat % 64) with hlow | hhigh
            · rw [decide_eq_false (by omega), decide_eq_false (by omega), Bool.false_and,
                Bool.false_and]
            · rw [decide_eq_true (by omega), decide_eq_true (by omega), Bool.true_and,
                Bool.true_and, testBit_limb value (by omega) (by omega)]
              congr 1
              omega
          · next hlater =>
            obtain ⟨a, ha⟩ : ∃ a, k - shift.toNat / 64 = a + 1 :=
              ⟨k - shift.toNat / 64 - 1, by omega⟩
            rw [ha, Nat.add_sub_cancel, testBit_joined value (by omega) (by omega) (by omega)
              (by omega) hj, decide_eq_true (by omega), Bool.true_and]
            congr 1
            omega

/-- Shift to the right. -/
theorem toNat_shr (shift value : Word) :
    (uint256Shr shift value).toNat = value.toNat / 2 ^ shift.toNat := by
  unfold uint256Shr
  split
  · next hlarge =>
    have hpow : 2 ^ 256 ≤ 2 ^ shift.toNat :=
      Nat.pow_le_pow_right (by norm_num) (shift_of_large hlarge)
    rw [toNat_zero, Nat.div_eq_of_lt (lt_of_lt_of_le value.toNat_lt hpow)]
  · next hsmall =>
    obtain ⟨hs, hlt⟩ := shift_of_small hsmall
    have hbit := toNat_bitShift hs
    have hinv := toNat_invBitShift hs
    have hbits : ∀ n, (value.toNat / 2 ^ shift.toNat).testBit n =
        value.toNat.testBit (shift.toNat + n) := by
      intro n
      rw [← Nat.shiftRight_eq_div_pow, Nat.testBit_shiftRight]
    have hbound : value.toNat / 2 ^ shift.toNat < 2 ^ 256 :=
      lt_of_le_of_lt (Nat.div_le_self _ _) value.toNat_lt
    split
    · next hzero =>
      have hnone : shift.toNat = 0 := by rw [hs, hzero]; rfl
      rw [hnone, pow_zero, Nat.div_one]
    · dsimp only
      rw [← hs]
      split
      · next hwhole =>
        rw [← UInt64.toNat_inj, hbit, UInt64.toNat_zero] at hwhole
        apply toNat_eq_of_testBit hbound
        intro k j hk hj
        rw [hbits]
        split
        · rw [testBit_limb value (by omega) hj]
          congr 1
          omega
        · rw [testBit_toNat_ge value (by omega), UInt64.toNat_zero, Nat.zero_testBit]
      · next hpart =>
        rw [← UInt64.toNat_inj, hbit, UInt64.toNat_zero] at hpart
        apply toNat_eq_of_testBit hbound
        intro k j hk hj
        rw [hbits]
        split
        · rw [UInt64.or_comm, testBit_joined value (by omega) (by omega) (by omega)
            (by omega) hj, hbit]
          congr 1
          omega
        · split
          · next hlast =>
            rw [testBit_shiftRight_limb _ _ (by omega), hbit]
            rcases Nat.lt_or_ge (shift.toNat % 64 + j) 64 with hlow | hhigh
            · rw [testBit_limb value (by omega) hlow]
              congr 1
              omega
            · rw [testBit_limb_ge _ hhigh, testBit_toNat_ge value (by omega)]
          · rw [testBit_toNat_ge value (by omega), UInt64.toNat_zero, Nat.zero_testBit]

theorem testBit_highMask {bit : UInt64} (hb : bit.toNat < 64) (hj : j < 64) :
    (highMask bit).toNat.testBit j = decide (bit.toNat ≤ j) := by
  have hpow : 2 ^ bit.toNat < 2 ^ 64 := Nat.pow_lt_pow_right (by norm_num) hb
  have hshift : (1 <<< bit : UInt64).toNat = 2 ^ bit.toNat := by
    rw [UInt64.toNat_shiftLeft, Nat.mod_eq_of_lt hb, UInt64.toNat_one, Nat.shiftLeft_eq,
      Nat.one_mul, Nat.mod_eq_of_lt hpow]
  have hone : (1 : UInt64) ≤ 1 <<< bit := by
    rw [UInt64.le_iff_toNat_le, hshift, UInt64.toNat_one]
    exact Nat.one_le_two_pow
  have hmask : (highMask bit).toNat = 2 ^ 64 - (2 ^ bit.toNat - 1 + 1) := by
    rw [highMask, UInt64.toNat_not, UInt64.toNat_sub_of_le _ _ hone, hshift, UInt64.toNat_one,
      UInt64.size]
    omega
  rw [hmask, Nat.testBit_two_pow_sub_succ (by omega), Nat.testBit_two_pow_sub_one,
    decide_eq_true hj, Bool.true_and]
  rcases Nat.lt_or_ge j bit.toNat with hlow | hhigh
  · rw [decide_eq_true hlow, decide_eq_false (Nat.not_le.mpr hlow), Bool.not_true]
  · rw [decide_eq_false (Nat.not_lt.mpr hhigh), decide_eq_true hhigh, Bool.not_false]

theorem testBit_allOnes (hj : j < 64) : allOnes.toNat.testBit j = true := by
  rw [show allOnes.toNat = 2 ^ 64 - 1 from rfl, Nat.testBit_two_pow_sub_one]
  simpa using hj

/-- The bits that `uint256_sar` fills in after the shift of a negative value. -/
theorem toNat_filled (result : Word) {s : ℕ} (hpos : 0 < s) (hs : s < 256)
    (hresult : result.toNat < 2 ^ (256 - s)) :
    (ofLimbs fun i =>
      if i < (255 - s + 1) / 64 then limb result i
      else if i = (255 - s + 1) / 64 ∧ 0 < (255 - s + 1) % 64 then
        limb result i ||| highMask (UInt64.ofNat ((255 - s + 1) % 64))
      else allOnes).toNat = 2 ^ (256 - s) * (2 ^ s - 1) + result.toNat := by
  have hfirst : 255 - s + 1 = 256 - s := by omega
  have htotal : 2 ^ (256 - s) * 2 ^ s = 2 ^ 256 := by
    rw [← pow_add]
    congr 1
    omega
  rw [hfirst]
  apply toNat_eq_of_testBit
  · have hle : 2 ^ (256 - s) ≤ 2 ^ 256 := Nat.pow_le_pow_right (by norm_num) (by omega)
    rw [Nat.mul_sub, htotal, Nat.mul_one]
    omega
  · intro k j hk hj
    rw [Nat.testBit_two_pow_mul_add _ hresult, Nat.testBit_two_pow_sub_one]
    split
    · rw [if_pos (by omega), testBit_limb result hk hj]
    · split
      · next hlimb =>
        have hnat : (UInt64.ofNat ((256 - s) % 64)).toNat = (256 - s) % 64 :=
          UInt64.toNat_ofNat_of_lt' (lt_of_lt_of_le (Nat.mod_lt _ (by norm_num)) (by decide))
        rw [UInt64.toNat_or, Nat.testBit_or, testBit_highMask (by omega) hj, hnat,
          testBit_limb result hk hj]
        split
        · rw [decide_eq_false (by omega), Bool.or_false]
        · rw [decide_eq_true (by omega), decide_eq_true (by omega), Bool.or_true]
      · rw [testBit_allOnes hj, if_neg (by omega), decide_eq_true (by omega)]

theorem toInt_of_negative {a : Word} (h : uint256IsNegative a = true) :
    toInt a = (a.toNat : ℤ) - 2 ^ 256 := if_neg (not_lt.mpr ((isNegative_iff a).mp h))

theorem toInt_of_not_negative {a : Word} (h : ¬ uint256IsNegative a = true) :
    toInt a = a.toNat := if_pos (not_le.mp (mt (isNegative_iff a).mpr h))

/-- Shifting a negative value and filling in the sign. -/
theorem toInt_filled {value filled : Word} {s : ℕ} (hpos : 0 < s) (hs : s < 256)
    (hneg : uint256IsNegative value = true)
    (hfilled : filled.toNat = 2 ^ (256 - s) * (2 ^ s - 1) + value.toNat / 2 ^ s) :
    toInt filled = toInt value / 2 ^ s := by
  have htotal : 2 ^ (256 - s) * 2 ^ s = 2 ^ 256 := by
    rw [← pow_add]
    congr 1
    omega
  have hhalf : 2 ^ (256 - s) ≤ 2 ^ 255 := Nat.pow_le_pow_right (by norm_num) (by omega)
  rw [Nat.mul_sub, htotal, Nat.mul_one] at hfilled
  have hfilledNeg : uint256IsNegative filled = true := by
    rw [isNegative_iff, hfilled]
    exact le_trans (by omega) (Nat.le_add_right _ _)
  have hdiv : ((value.toNat : ℤ) - 2 ^ 256) / 2 ^ s =
      (value.toNat / 2 ^ s : ℕ) - (2 ^ (256 - s) : ℕ) := by
    have hsub : (value.toNat : ℤ) - 2 ^ 256 = value.toNat + -(2 ^ (256 - s) : ℕ) * 2 ^ s := by
      have hcast : ((2 ^ (256 - s) * 2 ^ s : ℕ) : ℤ) = 2 ^ 256 := by exact_mod_cast htotal
      rw [← hcast]
      push_cast
      ring
    rw [hsub, Int.add_mul_ediv_right _ _ (by positivity)]
    push_cast
    ring
  rw [toInt_of_negative hfilledNeg, toInt_of_negative hneg, hdiv, hfilled]
  omega

/-- Arithmetic shift to the right rounds down. -/
theorem toInt_sar (shift value : Word) :
    toInt (uint256Sar shift value) = (toInt value).fdiv (2 ^ shift.toNat) := by
  have hlt := value.toNat_lt
  rw [Int.fdiv_eq_ediv_of_nonneg _ (by positivity)]
  unfold uint256Sar
  dsimp only
  split
  · next hlarge =>
    have hpow : (2 : ℤ) ^ 256 ≤ 2 ^ shift.toNat :=
      pow_le_pow_right₀ (by norm_num) (shift_of_large hlarge)
    generalize (2 : ℤ) ^ shift.toNat = p at *
    split
    · next hneg =>
      have hones : toInt (ofLimbs fun _ => allOnes) = -1 := toInt_minusOne
      have hge := (isNegative_iff value).mp hneg
      rw [hones, toInt_of_negative hneg, Int.ediv_eq_neg_one_of_neg_of_le (by omega) (by omega)]
    · next hpos =>
      rw [toInt_of_not_negative hpos, Int.ediv_eq_zero_of_lt (by positivity) (by omega)]
      rfl
  · next hsmall =>
    obtain ⟨hs, hs256⟩ := shift_of_small hsmall
    split
    · next hzero =>
      have hnone : shift.toNat = 0 := by rw [hs, hzero]; rfl
      rw [hnone, pow_zero, Int.ediv_one]
    · next hne =>
      have hpos : 0 < shift.toNat := by
        rw [← UInt64.toNat_inj, UInt64.toNat_zero] at hne
        omega
      have hshr := toNat_shr shift value
      split
      · next hneg =>
        have hbound : (uint256Shr shift value).toNat < 2 ^ (256 - shift.toNat) := by
          rw [hshr]
          apply Nat.div_lt_of_lt_mul
          rw [← pow_add, Nat.add_sub_of_le hs256.le]
          exact hlt
        have hfilled := toNat_filled _ hpos hs256 hbound
        rw [hshr] at hfilled
        rw [← hs]
        exact toInt_filled hpos hs256 hneg hfilled
      · next hnonneg =>
        have hsmaller : (uint256Shr shift value).toNat < 2 ^ 255 := by
          rw [hshr]
          exact lt_of_le_of_lt (Nat.div_le_self _ _)
            (not_le.mp (mt (isNegative_iff value).mpr hnonneg))
        rw [toInt_of_lt hsmaller, hshr, toInt_of_not_negative hnonneg]
        push_cast
        rfl

/-! ### Sign extension -/

def twosComplement (width n : ℕ) : ℤ :=
  if n % 2 ^ width < 2 ^ (width - 1) then (n % 2 ^ width : ℕ)
  else (n % 2 ^ width : ℕ) - 2 ^ width

theorem testBit_iff_le_mod (n i : ℕ) : n.testBit i = true ↔ 2 ^ i ≤ n % 2 ^ (i + 1) := by
  have hmod := Nat.mod_lt n (Nat.two_pow_pos i)
  rw [Nat.testBit_eq_decide_div_mod_eq, decide_eq_true_eq, Nat.mod_pow_succ]
  rcases Nat.mod_two_eq_zero_or_one (n / 2 ^ i) with hzero | hone
  · rw [hzero]
    omega
  · rw [hone]
    omega

/-- The sign bit that `uint256_signextend` reads. -/
theorem signBit_eq (x : Word) {bit : ℕ} (hbit : bit < 256) :
    (((limb x (bit / 64) >>> UInt64.ofNat (bit % 64)) &&& 1) != 0) = x.toNat.testBit bit := by
  have hnat : (UInt64.ofNat (bit % 64)).toNat = bit % 64 :=
    UInt64.toNat_ofNat_of_lt' (lt_of_lt_of_le (Nat.mod_lt _ (by norm_num)) (by decide))
  have hand : ((limb x (bit / 64) >>> UInt64.ofNat (bit % 64)) &&& 1).toNat =
      (limb x (bit / 64) >>> UInt64.ofNat (bit % 64)).toNat % 2 := by
    rw [UInt64.toNat_and]
    exact Nat.and_two_pow_sub_one_eq_mod _ 1
  have hfirst := testBit_shiftRight_limb (limb x (bit / 64)) (UInt64.ofNat (bit % 64)) (j := 0)
    (by omega)
  rw [hnat, Nat.add_zero, ← testBit_toNat x hbit, Nat.testBit_zero] at hfirst
  rw [← hfirst, Bool.eq_iff_iff, bne_iff_ne, ne_eq, ← UInt64.toNat_inj, hand, UInt64.toNat_zero,
    decide_eq_true_eq]
  omega

theorem testBit_not_limb (m : UInt64) (hj : j < 64) :
    (~~~m).toNat.testBit j = !m.toNat.testBit j := by
  have hnot : (~~~m).toNat = 2 ^ 64 - (m.toNat + 1) := by
    rw [UInt64.toNat_not, UInt64.size]
    omega
  rw [hnot, Nat.testBit_two_pow_sub_succ m.toNat_lt, decide_eq_true hj, Bool.true_and]

/-- The bits above position `bit` of its limb. -/
theorem testBit_above {bit j : ℕ} (hj : j < 64) :
    (if bit % 64 = 63 then 0 else highMask (UInt64.ofNat (bit % 64 + 1))).toNat.testBit j =
      decide (bit % 64 < j) := by
  split
  · rw [decide_eq_false (by omega), UInt64.toNat_zero, Nat.zero_testBit]
  · have hnat : (UInt64.ofNat (bit % 64 + 1)).toNat = bit % 64 + 1 :=
      UInt64.toNat_ofNat_of_lt' (by rw [UInt64.size]; omega)
    rw [testBit_highMask (by omega) hj, hnat]
    rfl

/-- Sign extension from bit `bit` keeps the bits up to there and repeats the last. -/
theorem toNat_extended (x : Word) (bit : ℕ) (hbit : bit < 255) :
    (ofLimbs fun i =>
      if i < bit / 64 then limb x i
      else if i = bit / 64 then
        if x.toNat.testBit bit then
          limb x i ||| (if bit % 64 = 63 then 0 else highMask (UInt64.ofNat (bit % 64 + 1)))
        else limb x i &&& ~~~(if bit % 64 = 63 then 0
          else highMask (UInt64.ofNat (bit % 64 + 1)))
      else if x.toNat.testBit bit then allOnes else 0).toNat =
    2 ^ (bit + 1) * (if x.toNat.testBit bit then 2 ^ (255 - bit) - 1 else 0) +
      x.toNat % 2 ^ (bit + 1) := by
  have hlow := Nat.mod_lt x.toNat (Nat.two_pow_pos (bit + 1))
  have htotal : 2 ^ (bit + 1) * 2 ^ (255 - bit) = 2 ^ 256 := by
    rw [← pow_add]
    congr 1
    omega
  have hle : 2 ^ (bit + 1) ≤ 2 ^ 256 := Nat.pow_le_pow_right (by norm_num) (by omega)
  apply toNat_eq_of_testBit
  · split
    · rw [Nat.mul_sub, htotal]
      omega
    · omega
  · intro k j hk hj
    rw [Nat.testBit_two_pow_mul_add _ hlow, Nat.testBit_mod_two_pow]
    split
    · rw [if_pos (by omega), decide_eq_true (by omega), Bool.true_and, testBit_limb x hk hj]
    · split
      · next hlimb =>
        cases hsign : x.toNat.testBit bit with
        | true =>
          rw [if_pos rfl, if_pos rfl, UInt64.toNat_or, Nat.testBit_or, testBit_above hj,
            testBit_limb x hk hj, Nat.testBit_two_pow_sub_one]
          split
          · rw [decide_eq_false (by omega), Bool.or_false, decide_eq_true (by omega),
              Bool.true_and]
          · rw [decide_eq_true (by omega), Bool.or_true, decide_eq_true (by omega)]
        | false =>
          rw [if_neg Bool.false_ne_true, if_neg Bool.false_ne_true, UInt64.toNat_and,
            Nat.testBit_and, testBit_not_limb _ hj, testBit_above hj, testBit_limb x hk hj,
            Nat.zero_testBit]
          split
          · rw [decide_eq_false (by omega), Bool.not_false, Bool.and_true,
              decide_eq_true (by omega), Bool.true_and]
          · rw [decide_eq_true (by omega), Bool.not_true, Bool.and_false]
      · next hhigh =>
        rw [if_neg (by omega : ¬ 64 * k + j < bit + 1)]
        cases hsign : x.toNat.testBit bit with
        | true =>
          rw [if_pos rfl, if_pos rfl, testBit_allOnes hj, Nat.testBit_two_pow_sub_one,
            decide_eq_true (by omega)]
        | false => simp

/-- Sign extension at a position below 31. -/
theorem toInt_signextend (x : Word) {position : Word} (hsmall : position.toNat < 31) :
    toInt (uint256Signextend position x) =
      twosComplement (8 * (position.toNat + 1)) x.toNat := by
  have hlit : (31 : UInt64).toNat = 31 := rfl
  have hfits := toNat_of_fitsU64 ((fitsU64_iff position).mpr (by omega))
  have hnone : ¬ (position.limb1 ≠ 0 ∨ position.limb2 ≠ 0 ∨ position.limb3 ≠ 0 ∨
      position.limb0 ≥ 31) := by
    simp only [ge_iff_le, UInt64.le_iff_toNat_le, ne_eq, ← UInt64.toNat_inj, UInt64.toNat_zero,
      hlit]
    unfold Word.toNat at hsmall
    omega
  have hextended := toNat_extended x (8 * position.toNat + 7) (by omega)
  have hsign := testBit_iff_le_mod x.toNat (8 * position.toNat + 7)
  have hlow := Nat.mod_lt x.toNat (Nat.two_pow_pos (8 * position.toNat + 7 + 1))
  have htotal : 2 ^ (8 * position.toNat + 7 + 1) * 2 ^ (255 - (8 * position.toNat + 7)) =
      2 ^ 256 := by
    rw [← pow_add]
    congr 1
    omega
  have hwide : 2 ^ (8 * position.toNat + 7 + 1) ≤ 2 ^ 248 :=
    Nat.pow_le_pow_right (by norm_num) (by omega)
  rw [uint256Signextend, if_neg hnone, ← hfits]
  dsimp only
  rw [signBit_eq x (by omega : 8 * position.toNat + 7 < 256), twosComplement,
    show 8 * (position.toNat + 1) = 8 * position.toNat + 7 + 1 by omega, Nat.add_sub_cancel]
  rw [toInt, hextended]
  have hpow : ((2 ^ (8 * position.toNat + 7 + 1) : ℕ) : ℤ) = 2 ^ (8 * position.toNat + 7 + 1) := by
    push_cast
    rfl
  cases hbit : x.toNat.testBit (8 * position.toNat + 7) with
  | true =>
    have hge := hsign.mp hbit
    rw [if_pos rfl, Nat.mul_sub, htotal, Nat.mul_one, if_neg (by omega), if_neg (by omega), ← hpow]
    omega
  | false =>
    have hlt := hsign.not.mp (by rw [hbit]; exact Bool.false_ne_true)
    rw [if_neg Bool.false_ne_true, Nat.mul_zero, Nat.zero_add, if_pos (by omega),
      if_pos (by omega)]

theorem signextend_of_le (x : Word) {position : Word} (hlarge : 31 ≤ position.toNat) :
    uint256Signextend position x = x := by
  have hlit : (31 : UInt64).toNat = 31 := rfl
  rw [uint256Signextend, if_pos]
  simp only [ge_iff_le, UInt64.le_iff_toNat_le, ne_eq, ← UInt64.toNat_inj, UInt64.toNat_zero, hlit]
  unfold Word.toNat at hlarge
  omega

/-- Shifts and sign extension over the integers. -/
theorem shifts_signextend_exact (s x k : Word) :
    (uint256Shl s x).toNat = x.toNat * 2 ^ s.toNat % 2 ^ 256 ∧
      (uint256Shr s x).toNat = x.toNat / 2 ^ s.toNat ∧
      toInt (uint256Sar s x) = (toInt x).fdiv (2 ^ s.toNat) ∧
      (31 ≤ k.toNat → uint256Signextend k x = x) ∧
      (k.toNat < 31 →
        toInt (uint256Signextend k x) = twosComplement (8 * (k.toNat + 1)) x.toNat) :=
  ⟨toNat_shl s x, toNat_shr s x, toInt_sar s x, signextend_of_le x, toInt_signextend x⟩

/-! ### Big-endian bytes -/

/-- Only the last 32 bytes count. -/
theorem toNat_fromBytesBe_mod (data : Bytes) :
    (uint256FromBytesBe data).toNat = ofBytes data % 2 ^ 256 := by
  have hlen : (data.drop (data.length - 32)).length ≤ 32 := by
    rw [List.length_drop]
    omega
  have hclamp : uint256FromBytesBe data = uint256FromBytesBe (data.drop (data.length - 32)) := by
    simp only [uint256FromBytesBe, Nat.sub_eq_zero_of_le hlen, List.drop_zero]
  have hlow := ofBytes_lt (data.drop (data.length - 32))
  rw [hclamp, toNat_fromBytesBe hlen]
  conv_rhs => rw [← List.take_append_drop (data.length - 32) data, ofBytes_append]
  rw [List.length_drop] at *
  rcases Nat.lt_or_ge data.length 32 with hshort | hlong
  · have hpow : 256 ^ (data.length - (data.length - 32)) ≤ 256 ^ 32 :=
      Nat.pow_le_pow_right (by norm_num) hlen
    rw [Nat.sub_eq_zero_of_le hshort.le] at *
    rw [List.take_zero, ofBytes_nil, Nat.zero_mul, Nat.zero_add, Nat.mod_eq_of_lt (by omega)]
  · rw [show data.length - (data.length - 32) = 32 by omega] at *
    omega

/-- The bytes of a limb above position `n` do not count. -/
theorem limbByteLength_eq (value : UInt64) {n : ℕ} (hn : n ≤ 8) :
    limbByteLength value n = byteLength (value.toNat % 256 ^ n) := by
  induction n with
  | zero => rw [pow_zero, Nat.mod_one]; rfl
  | succ n ih =>
    have hbyte : (value >>> UInt64.ofNat (n * 8)) &&& 0xff = 0 ↔
        value.toNat / 256 ^ n % 256 = 0 := by
      rw [← UInt64.toNat_inj, UInt64.toNat_and, toNat_shiftRight_ofNat value (by omega),
        Nat.mul_comm n 8, pow_mul]
      exact iff_of_eq (congrArg (· = 0) (Nat.and_two_pow_sub_one_eq_mod _ 8))
    have hsplit : value.toNat % 256 ^ (n + 1) =
        value.toNat / 256 ^ n % 256 * 256 ^ n + value.toNat % 256 ^ n := by
      rw [pow_succ, Nat.mod_mul]
      ring
    rw [limbByteLength, hsplit]
    split
    · next hzero => rw [ih (by omega), hbyte.mp hzero, Nat.zero_mul, Nat.zero_add]
    · next hsome =>
      have hne := mt hbyte.mpr hsome
      rw [byteLength_mul_add hne (Nat.mod_lt _ (by positivity)),
        byteLength_digit hne (Nat.mod_lt _ (by norm_num))]

/-- The highest limb that is not zero counts, and the ones below it. -/
theorem byteLength_word (value : Word) : uint256ByteLength value = byteLength value.toNat := by
  have hlimb : ∀ x : UInt64, limbByteLength x 8 = byteLength x.toNat := by
    intro x
    rw [limbByteLength_eq x le_rfl, Nat.mod_eq_of_lt (by have := x.toNat_lt; omega)]
  have hzero : ∀ x : UInt64, ¬ x ≠ 0 → x.toNat = 0 := fun x hx =>
    congrArg UInt64.toNat (not_not.mp hx)
  have htop : ∀ (x : UInt64) (low k : ℕ), x ≠ 0 → low < 256 ^ k →
      value.toNat = x.toNat * 256 ^ k + low →
      k + byteLength x.toNat = byteLength value.toNat := by
    intro x low k hx hlow hvalue
    rw [hvalue, byteLength_mul_add (fun hz => hx (UInt64.toNat_inj.mp hz)) hlow]
  have h0 := value.limb0.toNat_lt
  have h1 := value.limb1.toNat_lt
  have h2 := value.limb2.toNat_lt
  simp only [uint256ByteLength, hlimb]
  split_ifs with h3 h2' h1' h0'
  · exact htop value.limb3 (value.limb0.toNat + 2 ^ 64 * (value.limb1.toNat +
      2 ^ 64 * value.limb2.toNat)) 24 h3 (by omega) (by unfold Word.toNat; omega)
  · have hz3 := hzero _ h3
    exact htop value.limb2 (value.limb0.toNat + 2 ^ 64 * value.limb1.toNat) 16 h2' (by omega)
      (by unfold Word.toNat; omega)
  · have hz3 := hzero _ h3
    have hz2 := hzero _ h2'
    exact htop value.limb1 value.limb0.toNat 8 h1' (by omega) (by unfold Word.toNat; omega)
  all_goals
    have hz3 := hzero _ h3
    have hz2 := hzero _ h2'
    have hz1 := hzero _ h1'
    rw [Word.toNat, hz3, hz2, hz1]
  · rfl
  · rw [hzero _ h0']
    rfl

/-- Reading and writing big-endian bytes, and the length of the shortest form. -/
theorem bytesBe_exact :
    (∀ data : Bytes, (uint256FromBytesBe data).toNat = ofBytes data % 2 ^ 256) ∧
      (∀ data : Bytes, data.length = 32 → uint256ToBytesBe (uint256FromBytesBe data) = data) ∧
      (∀ value : Word, (uint256ToBytesBe value).length = 32 ∧
        uint256FromBytesBe (uint256ToBytesBe value) = value) ∧
      ∀ value : Word, IsLeast {k | value.toNat < 2 ^ (8 * k)} (uint256ByteLength value) := by
  refine ⟨toNat_fromBytesBe_mod, fun data => toBytesBe_fromBytesBe, fun value => ?_,
    fun value => ?_⟩
  · have hlen := toBytesBe_length value
    refine ⟨hlen, Word.toNat_injective ?_⟩
    rw [toNat_fromBytesBe hlen.le, ofBytes_toBytesBe]
  · have hpow : ∀ k, value.toNat < 2 ^ (8 * k) ↔ uint256ByteLength value ≤ k := by
      intro k
      rw [byteLength_word, byteLength_le_iff, pow_mul]
      exact Iff.rfl
    exact ⟨(hpow _).mpr le_rfl, fun k hk => (hpow k).mp hk⟩

/-- The bytes of the number one. -/
theorem bytesBe_exact_one :
    uint256ToBytesBe (uint256FromBytesBe (List.replicate 31 0 ++ [1])) =
      List.replicate 31 0 ++ [1] :=
  bytesBe_exact.2.1 _ (by rw [List.length_append, List.length_replicate]; rfl)

end Div0.WordShifts
