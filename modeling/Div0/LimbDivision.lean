import Div0.LongDivision
import Div0.Uint256Div
import Mathlib.Data.Nat.Digits.Lemmas

/-!
The two division loops on limbs compute quotient and remainder. Every loop over limbs has
one equation between the numbers that its input and its output stand for; the bounds of
`LongDivision` then say that a round of algorithm D leaves the remainder of its window, and
that the reciprocal of a limb is exact.
-/

namespace Div0.LimbDivision

open Uint256 Uint256Div

/-! ### The number of an array of limbs -/

def value (l : Limbs) : ℕ := Nat.ofDigits (2 ^ 64) (l.map UInt64.toNat)

@[simp] theorem value_nil : value [] = 0 := rfl

@[simp] theorem value_cons (x : UInt64) (l : Limbs) :
    value (x :: l) = x.toNat + 2 ^ 64 * value l := Nat.ofDigits_cons

theorem value_append (l k : Limbs) : value (l ++ k) = value l + (2 ^ 64) ^ l.length * value k := by
  unfold value
  rw [List.map_append, Nat.ofDigits_append, List.length_map]

theorem value_lt (l : Limbs) : value l < (2 ^ 64) ^ l.length := by
  have h := Nat.ofDigits_lt_base_pow_length (b := 2 ^ 64) (l := l.map UInt64.toNat) (by norm_num)
    (by simpa using fun x _ => x.toNat_lt)
  rwa [List.length_map] at h

theorem value_limbs (a : Word) : value (limbs a) = a.toNat := by
  simp [limbs, Word.toNat]

theorem value_eq_zero_iff (l : Limbs) : value l = 0 ↔ ∀ x ∈ l, x = 0 := by
  induction l with
  | nil => simp
  | cons x l ih =>
    rw [value_cons, List.forall_mem_cons, ← ih, ← UInt64.toNat_inj, UInt64.toNat_zero]
    omega

/-- Limbs above a bound on the number are zero. -/
theorem value_take_of_lt {l : Limbs} {n : ℕ} (hn : n ≤ l.length) (h : value l < (2 ^ 64) ^ n) :
    value (l.take n) = value l ∧ value (l.drop n) = 0 := by
  have hsplit := value_append (l.take n) (l.drop n)
  rw [List.take_append_drop, List.length_take, min_eq_left hn] at hsplit
  have hzero : value (l.drop n) = 0 := by
    by_contra hne
    have := Nat.le_mul_of_pos_right ((2 ^ 64) ^ n) (Nat.pos_of_ne_zero hne)
    omega
  rw [hzero, Nat.mul_zero] at hsplit
  exact ⟨hsplit.symm, hzero⟩

theorem toNat_fromLimbs (l : Limbs) : (fromLimbs l).toNat = value (l.take 4) := by
  match l with
  | [] => rfl
  | [a] => simp [fromLimbs, Uint256Ops.ofLimbs, Word.toNat]
  | [a, b] => simp [fromLimbs, Uint256Ops.ofLimbs, Word.toNat]
  | [a, b, c] => simp [fromLimbs, Uint256Ops.ofLimbs, Word.toNat]
  | a :: b :: c :: d :: rest => simp [fromLimbs, Uint256Ops.ofLimbs, Word.toNat]

/-! ### Shifts -/

variable {s : ℕ}

theorem toNat_shiftLeft_ofNat (x : UInt64) (hs : s < 64) :
    (x <<< UInt64.ofNat s).toNat = x.toNat * 2 ^ s % 2 ^ 64 := by
  rw [UInt64.toNat_shiftLeft, UInt64.toNat_ofNat', Nat.shiftLeft_eq]
  rw [Nat.mod_eq_of_lt (by omega : s < 2 ^ 64), Nat.mod_eq_of_lt hs]

theorem toNat_shiftRight_ofNat (x : UInt64) (hs : s < 64) :
    (x >>> UInt64.ofNat s).toNat = x.toNat / 2 ^ s := by
  rw [UInt64.toNat_shiftRight, UInt64.toNat_ofNat', Nat.shiftRight_eq_div_pow]
  rw [Nat.mod_eq_of_lt (by omega : s < 2 ^ 64), Nat.mod_eq_of_lt hs]

theorem pow_split (hs : s ≤ 64) : 2 ^ s * 2 ^ (64 - s) = 2 ^ 64 := by
  rw [← pow_add]
  congr 1
  omega

/-- A shift to the left splits a limb into what stays and what falls out. -/
theorem shift_split (x : ℕ) (hs : s ≤ 64) :
    x * 2 ^ s = x * 2 ^ s % 2 ^ 64 + 2 ^ 64 * (x / 2 ^ (64 - s)) := by
  have hdiv : x * 2 ^ s / 2 ^ 64 = x / 2 ^ (64 - s) := by
    rw [← pow_split hs, Nat.mul_comm x, Nat.mul_div_mul_left _ _ (by positivity)]
  rw [← hdiv, Nat.mod_add_div]

/-- The bits that a shift brings in do not meet those of the limb. -/
theorem toNat_or_carry (x c : UInt64) (hs : s < 64) (hc : c.toNat < 2 ^ s) :
    ((x <<< UInt64.ofNat s) ||| c).toNat = x.toNat * 2 ^ s % 2 ^ 64 + c.toNat := by
  have hmod : x.toNat * 2 ^ s % 2 ^ 64 = (x.toNat % 2 ^ (64 - s)) <<< s := by
    rw [Nat.shiftLeft_eq, ← pow_split hs.le, Nat.mul_comm x.toNat, Nat.mul_mod_mul_left,
      Nat.mul_comm]
  rw [UInt64.toNat_or, toNat_shiftLeft_ofNat x hs, hmod, Nat.shiftLeft_add_eq_or_of_lt hc]

theorem shiftLoop_length (s : ℕ) (c : UInt64) (l : Limbs) :
    (shiftLoop s c l).1.length = l.length := by
  induction l generalizing c with
  | nil => rfl
  | cons x l ih => rw [shiftLoop, List.length_cons, List.length_cons, ih]

/-- Shifting by limbs multiplies the number; the bits that fall out at the top are the
carry. -/
theorem shiftLoop_value (hpos : 0 < s) (hs : s < 64) {c : UInt64} (l : Limbs)
    (hc : c.toNat < 2 ^ s) :
    value (shiftLoop s c l).1 + (2 ^ 64) ^ l.length * (shiftLoop s c l).2.toNat =
      value l * 2 ^ s + c.toNat ∧ (shiftLoop s c l).2.toNat < 2 ^ s := by
  induction l generalizing c with
  | nil => simpa [shiftLoop] using hc
  | cons x l ih =>
    have hout : (x >>> UInt64.ofNat (64 - s)).toNat = x.toNat / 2 ^ (64 - s) :=
      toNat_shiftRight_ofNat x (by omega)
    have hlt : (x >>> UInt64.ofNat (64 - s)).toNat < 2 ^ s := by
      rw [hout]
      apply Nat.div_lt_of_lt_mul
      rw [Nat.mul_comm, pow_split hs.le]
      exact x.toNat_lt
    obtain ⟨hvalue, hbound⟩ := ih hlt
    refine ⟨?_, hbound⟩
    have hsplit := shift_split x.toNat hs.le
    rw [shiftLoop, value_cons, value_cons, toNat_or_carry x c hs hc, List.length_cons, pow_succ]
    rw [hout] at hvalue
    generalize x.toNat * 2 ^ s % 2 ^ 64 = low at hsplit ⊢
    calc _ = low + c.toNat + 2 ^ 64 *
          (value (shiftLoop s (x >>> UInt64.ofNat (64 - s)) l).1 + (2 ^ 64) ^ l.length *
            (shiftLoop s (x >>> UInt64.ofNat (64 - s)) l).2.toNat) := by ring
      _ = low + 2 ^ 64 * (x.toNat / 2 ^ (64 - s)) + 2 ^ 64 * (value l * 2 ^ s) + c.toNat := by
        rw [hvalue]
        ring
      _ = _ := by
        rw [← hsplit]
        ring

theorem shiftLimbs_length (s : ℕ) (l : Limbs) : (shiftLimbs s l).1.length = l.length := by
  unfold shiftLimbs
  split
  · rfl
  · exact shiftLoop_length s 0 l

theorem shiftLimbs_value (hs : s < 64) (l : Limbs) :
    value (shiftLimbs s l).1 + (2 ^ 64) ^ l.length * (shiftLimbs s l).2.toNat =
      value l * 2 ^ s ∧ (shiftLimbs s l).2.toNat < 2 ^ s := by
  unfold shiftLimbs
  split
  · next hzero => simp [hzero]
  · next hne =>
    have h := shiftLoop_value (Nat.pos_of_ne_zero hne) hs (c := 0) l (by simp)
    simpa using h

theorem unshiftLimbs_length (s : ℕ) (l : Limbs) : (unshiftLimbs s l).length = l.length := by
  fun_induction unshiftLimbs s l with
  | case1 => rfl
  | case2 => rfl
  | case3 x y rest ih => rw [List.length_cons, ih, List.length_cons, List.length_cons,
      List.length_cons]

theorem toNat_or_carry_high (x y : UInt64) (hpos : 0 < s) (hs : s < 64) :
    ((x >>> UInt64.ofNat s) ||| (y <<< UInt64.ofNat (64 - s))).toNat =
      x.toNat / 2 ^ s + y.toNat * 2 ^ (64 - s) % 2 ^ 64 := by
  have hlow : (x >>> UInt64.ofNat s).toNat < 2 ^ (64 - s) := by
    rw [toNat_shiftRight_ofNat x hs]
    apply Nat.div_lt_of_lt_mul
    rw [pow_split hs.le]
    exact x.toNat_lt
  rw [UInt64.or_comm, toNat_or_carry y _ (by omega) hlow, toNat_shiftRight_ofNat x hs,
    Nat.add_comm]

/-- Shifting back divides the number. -/
theorem unshiftLimbs_value (hpos : 0 < s) (hs : s < 64) (l : Limbs) :
    value (unshiftLimbs s l) = value l / 2 ^ s := by
  fun_induction unshiftLimbs s l with
  | case1 => simp
  | case2 x => simp [toNat_shiftRight_ofNat x hs]
  | case3 x y rest ih =>
    have hsplit : y.toNat * 2 ^ (64 - s) =
        y.toNat * 2 ^ (64 - s) % 2 ^ 64 + 2 ^ 64 * (y.toNat / 2 ^ s) := by
      have h := shift_split y.toNat (by omega : 64 - s ≤ 64)
      rwa [show 64 - (64 - s) = s by omega] at h
    have hhead : ∀ (x : UInt64) (l : Limbs),
        value (x :: l) / 2 ^ s = x.toNat / 2 ^ s + 2 ^ (64 - s) * value l := by
      intro x l
      rw [value_cons, ← pow_split hs.le, Nat.mul_assoc, Nat.add_mul_div_left _ _ (by positivity)]
    rw [hhead, value_cons, ih, toNat_or_carry_high x y hpos hs, hhead, value_cons]
    calc _ = x.toNat / 2 ^ s + (y.toNat * 2 ^ (64 - s) % 2 ^ 64 + 2 ^ 64 * (y.toNat / 2 ^ s)) +
          2 ^ 64 * 2 ^ (64 - s) * value rest := by ring
      _ = _ := by rw [← hsplit]; ring

/-- After the shift by the leading zeros the top bit is set. -/
theorem clz_spec {x : UInt64} (hx : x ≠ 0) :
    clz x < 64 ∧ 2 ^ 63 ≤ x.toNat * 2 ^ clz x ∧ x.toNat * 2 ^ clz x < 2 ^ 64 := by
  have hne : x.toNat ≠ 0 := by
    rw [← UInt64.toNat_zero]
    exact mt UInt64.toNat_inj.mp hx
  have hlog : Nat.log2 x.toNat < 64 := (Nat.log2_lt hne).mpr x.toNat_lt
  have hle : 2 ^ Nat.log2 x.toNat ≤ x.toNat := Nat.log2_self_le hne
  have hlt : x.toNat < 2 ^ (Nat.log2 x.toNat + 1) := Nat.lt_log2_self
  have hpow : 2 ^ 63 = 2 ^ Nat.log2 x.toNat * 2 ^ clz x := by
    rw [← pow_add, clz]
    congr 1
    omega
  refine ⟨by unfold clz; omega, ?_, ?_⟩
  · rw [hpow]
    exact Nat.mul_le_mul_right _ hle
  · calc x.toNat * 2 ^ clz x < 2 ^ (Nat.log2 x.toNat + 1) * 2 ^ clz x :=
        Nat.mul_lt_mul_of_pos_right hlt (by positivity)
      _ = 2 ^ 63 * 2 := by rw [hpow, pow_succ]; ring
      _ = 2 ^ 64 := by norm_num

/-! ### Algorithm D -/

section Estimate

variable {vTop vNext uNext tmp digit : ℕ}

/-- Once the remainder of an estimate leaves 64 bits the estimate fits its digit and the
heads. -/
theorem settled_of_le (hTmp : tmp < (vTop + 1) * 2 ^ 64) (hNext : vNext < 2 ^ 64) {qHat rHat : ℕ}
    (hq : qHat * vTop + rHat = tmp) (hr : 2 ^ 64 ≤ rHat) :
    qHat < 2 ^ 64 ∧ qHat * (vTop * 2 ^ 64 + vNext) ≤ tmp * 2 ^ 64 + uNext := by
  have hlt : qHat < 2 ^ 64 := by
    by_contra hle
    have hmul : 2 ^ 64 * vTop ≤ qHat * vTop := Nat.mul_le_mul_right vTop (not_lt.mp hle)
    rw [Nat.add_mul] at hTmp
    omega
  refine ⟨hlt, ?_⟩
  have hprod : qHat * vNext ≤ 2 ^ 64 * 2 ^ 64 := Nat.mul_le_mul hlt.le hNext.le
  calc qHat * (vTop * 2 ^ 64 + vNext) = qHat * vTop * 2 ^ 64 + qHat * vNext := by ring
    _ ≤ qHat * vTop * 2 ^ 64 + rHat * 2 ^ 64 :=
      Nat.add_le_add_left (hprod.trans (Nat.mul_le_mul_right _ hr)) _
    _ = tmp * 2 ^ 64 := by rw [← Nat.add_mul, hq]
    _ ≤ tmp * 2 ^ 64 + uNext := Nat.le_add_right _ _

/-- The loop ends with an estimate that fits the heads and is not too small. -/
theorem refineQHat_spec (hTmp : tmp < (vTop + 1) * 2 ^ 64) (hNext : vNext < 2 ^ 64)
    (hdigit : digit < 2 ^ 64)
    (hheads : ∀ q, tmp * 2 ^ 64 + uNext < q * (vTop * 2 ^ 64 + vNext) → digit < q)
    {rounds qHat rHat : ℕ} (hq : qHat * vTop + rHat = tmp) (hle : digit ≤ qHat)
    (hrounds : 2 ^ 64 ≤ rHat + rounds * vTop) :
    digit ≤ refineQHat vTop vNext uNext rounds qHat rHat ∧
      refineQHat vTop vNext uNext rounds qHat rHat < 2 ^ 64 ∧
      refineQHat vTop vNext uNext rounds qHat rHat * (vTop * 2 ^ 64 + vNext) ≤
        tmp * 2 ^ 64 + uNext := by
  induction rounds generalizing qHat rHat with
  | zero =>
    rw [refineQHat]
    exact ⟨hle, settled_of_le hTmp hNext hq (by omega)⟩
  | succ rounds ih =>
    have hhead : qHat * (vTop * 2 ^ 64 + vNext) + rHat * 2 ^ 64 =
        tmp * 2 ^ 64 + qHat * vNext := by
      rw [← hq]
      ring
    rw [refineQHat]
    split
    · next htest =>
      -- the test refutes the estimate, so it can be lowered
      have hlt : digit < qHat := by
        rcases htest with hbig | hbig
        · exact lt_of_lt_of_le hdigit hbig
        · exact hheads qHat (by linarith)
      have hq' : (qHat - 1) * vTop + (rHat + vTop) = tmp := by
        have hone : qHat = qHat - 1 + 1 := by omega
        rw [hone, Nat.add_mul, Nat.one_mul] at hq
        omega
      split
      · next hlast => exact ⟨by omega, settled_of_le hTmp hNext hq' hlast⟩
      · refine ih hq' (by omega) ?_
        rw [Nat.add_mul] at hrounds
        omega
    · next htest =>
      rw [not_or] at htest
      exact ⟨hle, by omega, by omega⟩

end Estimate

/-- The estimate from the two leading limbs of a normalised divisor is the quotient digit
or one more. -/
theorem refineQHat_estimate {u v vTop vNext uNext tmp : ℕ} (weight : ℕ)
    (hv : (vTop * 2 ^ 64 + vNext) * weight ≤ v) (hv' : v < (vTop * 2 ^ 64 + vNext + 1) * weight)
    (hu : (tmp * 2 ^ 64 + uNext) * weight ≤ u) (hu' : u < (tmp * 2 ^ 64 + uNext + 1) * weight)
    (hnorm : 2 ^ 63 ≤ vTop) (hvNext : vNext < 2 ^ 64) (huNext : uNext < 2 ^ 64)
    (huv : u < 2 ^ 64 * v) :
    u / v ≤ refineQHat vTop vNext uNext 3 (tmp / vTop) (tmp % vTop) ∧
      refineQHat vTop vNext uNext 3 (tmp / vTop) (tmp % vTop) ≤ u / v + 1 ∧
      refineQHat vTop vNext uNext 3 (tmp / vTop) (tmp % vTop) < 2 ^ 64 := by
  have hpos : 0 < v := by
    by_contra h
    rw [Nat.eq_zero_of_not_pos h] at huv
    omega
  have hdigit : u / v < 2 ^ 64 := Nat.div_lt_of_lt_mul (by rwa [Nat.mul_comm])
  have hheads : ∀ q, tmp * 2 ^ 64 + uNext < q * (vTop * 2 ^ 64 + vNext) → u / v < q :=
    fun q hq => LongDivision.div_lt_of_head_lt hu' hv hq
  have hTmp : tmp < (vTop + 1) * 2 ^ 64 := by
    have hlt : (tmp * 2 ^ 64 + uNext) * weight <
        2 ^ 64 * (vTop * 2 ^ 64 + vNext + 1) * weight :=
      calc _ ≤ u := hu
        _ < 2 ^ 64 * v := huv
        _ ≤ 2 ^ 64 * ((vTop * 2 ^ 64 + vNext + 1) * weight) := Nat.mul_le_mul_left _ hv'.le
        _ = _ := (Nat.mul_assoc _ _ _).symm
    have hlt' := Nat.lt_of_mul_lt_mul_right hlt
    omega
  have hle : u / v ≤ tmp / vTop := by
    rw [Nat.le_div_iff_mul_le (by omega)]
    by_contra hbig
    have hmul : (tmp + 1) * 2 ^ 64 ≤ u / v * vTop * 2 ^ 64 :=
      Nat.mul_le_mul_right _ (by omega)
    have hself := hheads (u / v) (by
      calc tmp * 2 ^ 64 + uNext < (tmp + 1) * 2 ^ 64 := by omega
        _ ≤ u / v * vTop * 2 ^ 64 := hmul
        _ ≤ u / v * (vTop * 2 ^ 64 + vNext) := by
          rw [Nat.mul_add, ← Nat.mul_assoc]
          exact Nat.le_add_right _ _)
    exact lt_irrefl _ hself
  obtain ⟨hlow, hlt, hfits⟩ := refineQHat_spec hTmp hvNext hdigit hheads
    (Nat.div_add_mod' tmp vTop) hle (by omega : 2 ^ 64 ≤ tmp % vTop + 3 * vTop)
  refine ⟨hlow, ?_, hlt⟩
  refine LongDivision.le_div_succ_of_head_le hu hv'.le hfits ?_ hpos
  calc _ ≤ (vTop * 2 ^ 64 + vNext) * weight := Nat.mul_le_mul_right weight (by omega)
    _ ≤ v := hv

/-- One digit of multiply and subtract. -/
theorem subtract_digit {u v : UInt64} {qHat carry borrow : ℕ} (hq : qHat < 2 ^ 64)
    (hc : carry < 2 ^ 64) (hb : borrow ≤ 1) :
    let prod := (qHat * v.toNat + carry) % 2 ^ 128
    let diff := u.toNat + 2 ^ 64 - (low64 prod + borrow)
    (UInt64.ofNat diff).toNat + qHat * v.toNat + carry + borrow =
        u.toNat + 2 ^ 64 * (high64 prod + (1 - high64 diff)) ∧
      high64 prod < 2 ^ 64 ∧ 1 - high64 diff ≤ 1 := by
  have hprod : qHat * v.toNat ≤ (2 ^ 64 - 1) * (2 ^ 64 - 1) :=
    Nat.mul_le_mul (Nat.le_sub_one_of_lt hq) (Nat.le_sub_one_of_lt v.toNat_lt)
  have hu := u.toNat_lt
  simp only [low64, high64, UInt64.toNat_ofNat']
  generalize qHat * v.toNat = p at *
  omega

variable {us vs : Limbs}

/-- Multiply and subtract in one equation: what is taken off and what is left make up the
digits, with the last carry and borrow still to be paid. -/
theorem mulSub_value {qHat : ℕ} (hq : qHat < 2 ^ 64) (hlen : us.length = vs.length)
    {carry borrow : ℕ} (hc : carry < 2 ^ 64) (hb : borrow ≤ 1) :
    (mulSub qHat carry borrow us vs).1.length = us.length ∧
      value (mulSub qHat carry borrow us vs).1 + qHat * value vs + carry + borrow =
        value us + (2 ^ 64) ^ us.length *
          ((mulSub qHat carry borrow us vs).2.1 + (mulSub qHat carry borrow us vs).2.2) ∧
      (mulSub qHat carry borrow us vs).2.1 < 2 ^ 64 ∧
      (mulSub qHat carry borrow us vs).2.2 ≤ 1 := by
  induction us generalizing vs carry borrow with
  | nil =>
    have hvs : vs = [] := List.length_eq_zero_iff.mp hlen.symm
    subst hvs
    simp only [mulSub, List.length_nil, value_nil]
    exact ⟨trivial, by ring, hc, hb⟩
  | cons u us ih =>
    cases vs with
    | nil => simp at hlen
    | cons v vs =>
      obtain ⟨hdigit, hcarry, hborrow⟩ := subtract_digit (u := u) (v := v) hq hc hb
      obtain ⟨hlength, hvalue, hcarry', hborrow'⟩ :=
        ih (by simpa using hlen) hcarry hborrow
      rw [mulSub]
      refine ⟨congrArg (· + 1) hlength, ?_, hcarry', hborrow'⟩
      rw [value_cons, value_cons, value_cons, List.length_cons, pow_succ]
      linear_combination hdigit + 2 ^ 64 * hvalue

/-- Adding the divisor back in one equation. -/
theorem addBack_value (hlen : us.length = vs.length) (carry : UInt64) :
    (addBack carry us vs).1.length = us.length ∧
      value (addBack carry us vs).1 + (2 ^ 64) ^ us.length * (addBack carry us vs).2.toNat =
        value us + value vs + carry.toNat := by
  induction us generalizing vs carry with
  | nil =>
    have hvs : vs = [] := List.length_eq_zero_iff.mp hlen.symm
    subst hvs
    simp [addBack]
  | cons u us ih =>
    cases vs with
    | nil => simp at hlen
    | cons v vs =>
      have hdigit : (UInt64.ofNat (u.toNat + v.toNat + carry.toNat)).toNat +
          2 ^ 64 * (UInt64.ofNat (high64 (u.toNat + v.toNat + carry.toNat))).toNat =
          u.toNat + v.toNat + carry.toNat := by
        have hu := u.toNat_lt
        have hv := v.toNat_lt
        have hc := carry.toNat_lt
        simp only [high64, UInt64.toNat_ofNat']
        omega
      obtain ⟨hlength, hvalue⟩ := ih (by simpa using hlen)
        (UInt64.ofNat (high64 (u.toNat + v.toNat + carry.toNat)))
      rw [addBack]
      refine ⟨congrArg (· + 1) hlength, ?_⟩
      rw [value_cons, value_cons, value_cons, List.length_cons, pow_succ]
      linear_combination hdigit + 2 ^ 64 * hvalue

theorem exists_top {l : Limbs} {n : ℕ} (h : l.length = n + 1) :
    ∃ low x, l = low ++ [x] ∧ low.length = n := by
  rcases List.eq_nil_or_concat l with rfl | ⟨low, x, rfl⟩
  · simp at h
  · exact ⟨low, x, List.concat_eq_append, by simpa using h⟩

theorem getD_top (low rest : Limbs) (x : UInt64) : (low ++ x :: rest).getD low.length 0 = x := by
  simp

def estimate (v window : Limbs) : ℕ :=
  let n := v.length
  let vTop := (v.getD (n - 1) 0).toNat
  let tmp := (window.getD n 0).toNat * 2 ^ 64 + (window.getD (n - 1) 0).toNat
  let vNext := if 2 ≤ n then (v.getD (n - 2) 0).toNat else 0
  let uNext := if 2 ≤ n then (window.getD (n - 2) 0).toNat else 0
  refineQHat vTop vNext uNext 3 (tmp / vTop) (tmp % vTop)

theorem estimate_single (v u0 u1 : UInt64) : estimate [v] [u0, u1] =
    refineQHat v.toNat 0 0 3 ((u1.toNat * 2 ^ 64 + u0.toNat) / v.toNat)
      ((u1.toNat * 2 ^ 64 + u0.toNat) % v.toNat) := rfl

theorem estimate_append {vLow uLow : Limbs} (h : uLow.length = vLow.length)
    (v0 v1 u0 u1 u2 : UInt64) : estimate (vLow ++ [v0, v1]) (uLow ++ [u0, u1, u2]) =
    refineQHat v1.toNat v0.toNat u0.toNat 3 ((u2.toNat * 2 ^ 64 + u1.toNat) / v1.toNat)
      ((u2.toNat * 2 ^ 64 + u1.toNat) % v1.toNat) := by
  have hn : (vLow ++ [v0, v1]).length = vLow.length + 2 := by simp
  simp only [estimate, hn]
  simp [← h]

def Normalised (v : Limbs) : Prop := ∃ low top, v = low ++ [top] ∧ 2 ^ 63 ≤ top.toNat

variable {v : Limbs}

theorem Normalised.pow_le (hv : Normalised v) : 2 ^ 63 * (2 ^ 64) ^ (v.length - 1) ≤ value v := by
  obtain ⟨low, top, rfl, htop⟩ := hv
  rw [value_append, List.length_append, List.length_singleton, Nat.add_sub_cancel, value_cons,
    value_nil, Nat.mul_comm]
  exact (Nat.mul_le_mul_left _ (by omega)).trans (Nat.le_add_left _ _)

/-- A round estimates the quotient digit of its window, or one more. -/
theorem estimate_spec {v window : Limbs} (hv : Normalised v)
    (hlen : window.length = v.length + 1) (hlt : value window < 2 ^ 64 * value v) :
    value window / value v ≤ estimate v window ∧
      estimate v window ≤ value window / value v + 1 ∧ estimate v window < 2 ^ 64 := by
  obtain ⟨vs, v1, rfl, htop⟩ := hv
  rw [List.length_append, List.length_singleton] at hlen
  obtain ⟨us, u2, rfl, hus⟩ := exists_top hlen
  obtain ⟨us, u1, rfl, hlength⟩ := exists_top hus
  rcases List.eq_nil_or_concat vs with rfl | ⟨vLow, v0, rfl⟩
  · -- a divisor of one limb is extended by a limb that is zero
    have hnil : us = [] := List.length_eq_zero_iff.mp hlength
    subst hnil
    simp only [List.nil_append, List.cons_append, value_cons, value_nil, Nat.mul_zero,
      Nat.add_zero] at hlt ⊢
    rw [estimate_single, ← Nat.mul_div_mul_right _ _ (by norm_num : 0 < 2 ^ 64)]
    apply refineQHat_estimate 1 <;> omega
  · rw [List.concat_eq_append] at *
    rw [List.length_append, List.length_singleton] at hlength
    obtain ⟨uLow, u0, rfl, hlow⟩ := exists_top hlength
    simp only [List.append_assoc, List.cons_append, List.nil_append] at hlt ⊢
    rw [estimate_append hlow]
    have hvLow := value_lt vLow
    have huLow := value_lt uLow
    have h0 := v0.toNat_lt
    have h0' := u0.toNat_lt
    rw [hlow] at huLow
    rw [value_append, value_append, hlow] at *
    simp only [value_cons, value_nil, Nat.mul_zero, Nat.add_zero] at *
    apply refineQHat_estimate ((2 ^ 64) ^ vLow.length) _ _ _ _ htop h0 h0' hlt
    all_goals nlinarith

/-- The end of a round: the estimate stands if the top limb of the window pays what
multiply and subtract owe, otherwise the divisor is added back. -/
def settle (v : Limbs) (top : UInt64) (qHat : ℕ) (digits : Limbs) (owed : ℕ) : UInt64 × Limbs :=
  if 1 - high64 (top.toNat + 2 ^ 64 - owed) ≠ 0 then
    (UInt64.ofNat qHat - 1, (addBack 0 digits v).1 ++
      [UInt64.ofNat (top.toNat + 2 ^ 64 - owed) + (addBack 0 digits v).2])
  else (UInt64.ofNat qHat, digits ++ [UInt64.ofNat (top.toNat + 2 ^ 64 - owed)])

variable {top : UInt64}

theorem knuthStep_eq {v window us : Limbs} (hus : window.take v.length = us)
    (htop : window.getD v.length 0 = top) :
    knuthStep v window = settle v top (estimate v window) (mulSub (estimate v window) 0 0 us v).1
      ((mulSub (estimate v window) 0 0 us v).2.1 + (mulSub (estimate v window) 0 0 us v).2.2) := by
  subst hus htop
  rfl

section Round

variable {v us top digits weight qHat owed : ℕ}

/-- An estimate that can be paid is the digit. -/
theorem round_exact (hpos : 0 < v) (hsub : digits + qHat * v = us + weight * owed)
    (hlow : (us + weight * top) / v ≤ qHat) (hpaid : owed ≤ top) :
    qHat = (us + weight * top) / v ∧
      digits + weight * (top - owed) = (us + weight * top) % v := by
  have hsum : digits + weight * (top - owed) + qHat * v = us + weight * top := by
    rw [Nat.mul_sub]
    have := Nat.mul_le_mul_left weight hpaid
    omega
  have hle : qHat ≤ (us + weight * top) / v := by
    rw [Nat.le_div_iff_mul_le hpos]
    omega
  have hq := le_antisymm hle hlow
  refine ⟨hq, ?_⟩
  have hmod := Nat.mod_add_div' (us + weight * top) v
  rw [← hq] at hmod
  omega

/-- An estimate that cannot be paid is one more than the digit, and adding the divisor
back repairs the remainder. -/
theorem round_addBack (hsub : digits + qHat * v = us + weight * owed)
    (hhigh : qHat ≤ (us + weight * top) / v + 1) (howed : top < owed) (hv : v < weight) (hdigits : digits < weight) {back carry : ℕ}
    (hback : back + weight * carry = digits + v) (hsmall : back < weight) :
    qHat = (us + weight * top) / v + 1 ∧
      back + weight * ((top + 2 ^ 64 - owed + carry) % 2 ^ 64) = (us + weight * top) % v := by
  have hmod := Nat.mod_add_div' (us + weight * top) v
  have hpaid : weight * (top + 1) ≤ weight * owed := Nat.mul_le_mul_left weight howed
  have hq : qHat = (us + weight * top) / v + 1 := by
    have hlt : (us + weight * top) / v < qHat := by
      apply Nat.div_lt_of_lt_mul
      rw [Nat.mul_comm v]
      rw [Nat.mul_add] at hpaid
      omega
    omega
  refine ⟨hq, ?_⟩
  rw [hq, Nat.add_mul, Nat.one_mul] at hsub
  have hbalance : back + weight * (carry + top) = (us + weight * top) % v + weight * owed := by
    rw [Nat.mul_add]
    omega
  have hcarry : carry < 2 := by
    apply Nat.lt_of_mul_lt_mul_left (a := weight)
    omega
  have hreach : owed ≤ carry + top := by
    by_contra hno
    have := Nat.mul_le_mul_left weight (not_le.mp hno)
    rw [Nat.mul_succ] at this
    omega
  have hdone : top + 2 ^ 64 - owed + carry = 2 ^ 64 ∧ carry + top = owed := by omega
  rw [hdone.1, Nat.mod_self, Nat.mul_zero, Nat.add_zero]
  rw [hdone.2] at hbalance
  omega

end Round

theorem Normalised.pos (hv : Normalised v) : 0 < value v :=
  lt_of_lt_of_le (by positivity) hv.pow_le

theorem value_concat (l : Limbs) (x : UInt64) :
    value (l ++ [x]) = value l + (2 ^ 64) ^ l.length * x.toNat := by
  rw [value_append, value_cons, value_nil, Nat.mul_zero, Nat.add_zero]

/-- What the end of a round leaves. -/
theorem settle_spec {v digits : Limbs} {us qHat owed : ℕ} (hv : Normalised v)
    (hlength : digits.length = v.length)
    (hsub : value digits + qHat * value v = us + (2 ^ 64) ^ v.length * owed)
    (hlow : (us + (2 ^ 64) ^ v.length * top.toNat) / value v ≤ qHat)
    (hhigh : qHat ≤ (us + (2 ^ 64) ^ v.length * top.toNat) / value v + 1) (hq : qHat < 2 ^ 64)
    (howed : owed ≤ 2 ^ 64) :
    (settle v top qHat digits owed).1.toNat =
        (us + (2 ^ 64) ^ v.length * top.toNat) / value v ∧
      (settle v top qHat digits owed).2.length = v.length + 1 ∧
      value (settle v top qHat digits owed).2 =
        (us + (2 ^ 64) ^ v.length * top.toNat) % value v := by
  have hdigits := value_lt digits
  have htop := top.toNat_lt
  have hnat : (UInt64.ofNat qHat).toNat = qHat := UInt64.toNat_ofNat_of_lt' hq
  rw [hlength] at hdigits
  unfold settle
  split
  · next hborrowed =>
    have hdue : top.toNat < owed := by
      unfold high64 at hborrowed
      omega
    obtain ⟨hlength', hback⟩ := addBack_value hlength 0
    have hsmall := value_lt (addBack 0 digits v).1
    rw [hlength'.trans hlength] at hsmall
    rw [hlength, UInt64.toNat_zero, Nat.add_zero] at hback
    obtain ⟨hdigit, hrest⟩ := round_addBack hsub hhigh hdue (value_lt v) hdigits hback hsmall
    refine ⟨?_, by simp [hlength', hlength], ?_⟩
    · have hone : (1 : UInt64) ≤ UInt64.ofNat qHat := by
        rw [UInt64.le_iff_toNat_le, hnat, UInt64.toNat_one, hdigit]
        exact Nat.le_add_left 1 _
      rw [UInt64.toNat_sub_of_le _ _ hone, hnat, UInt64.toNat_one, hdigit, Nat.add_sub_cancel]
    · rw [value_concat, hlength', hlength, UInt64.toNat_add, UInt64.toNat_ofNat', Nat.mod_add_mod]
      exact hrest
  · next hpaid =>
    have hdue : owed ≤ top.toNat := by
      unfold high64 at hpaid
      omega
    obtain ⟨hdigit, hrest⟩ := round_exact hv.pos hsub hlow hdue
    refine ⟨hnat.trans hdigit, by simp [hlength], ?_⟩
    have hleft : (UInt64.ofNat (top.toNat + 2 ^ 64 - owed)).toNat = top.toNat - owed := by
      rw [UInt64.toNat_ofNat']
      omega
    rw [value_concat, hlength, hleft, hrest]

/-- Multiply and subtract from the lowest limb on. -/
theorem mulSub_zero {qHat : ℕ} (hq : qHat < 2 ^ 64) (hlen : us.length = vs.length) :
    (mulSub qHat 0 0 us vs).1.length = vs.length ∧
      value (mulSub qHat 0 0 us vs).1 + qHat * value vs =
        value us + (2 ^ 64) ^ vs.length *
          ((mulSub qHat 0 0 us vs).2.1 + (mulSub qHat 0 0 us vs).2.2) ∧
      (mulSub qHat 0 0 us vs).2.1 + (mulSub qHat 0 0 us vs).2.2 ≤ 2 ^ 64 := by
  obtain ⟨hlength, hvalue, hcarry, hborrow⟩ :=
    mulSub_value hq hlen (by norm_num : 0 < 2 ^ 64) (Nat.zero_le 1)
  rw [Nat.add_zero, hlen] at hvalue
  exact ⟨hlength.trans hlen, hvalue, (Nat.add_le_add_left hborrow _).trans hcarry⟩

/-- A round takes the quotient digit off its window and leaves the remainder. -/
theorem knuthStep_spec {v window : Limbs} (hv : Normalised v)
    (hlen : window.length = v.length + 1) (hlt : value window < 2 ^ 64 * value v) :
    (knuthStep v window).1.toNat = value window / value v ∧
      (knuthStep v window).2.length = v.length + 1 ∧
      value (knuthStep v window).2 = value window % value v := by
  obtain ⟨hlow, hhigh, hq⟩ := estimate_spec hv hlen hlt
  obtain ⟨us, top, rfl, hus⟩ := exists_top hlen
  have hget : (us ++ [top]).getD v.length 0 = top := by
    rw [← hus]
    exact getD_top us [] top
  obtain ⟨hlength, hvalue, howed⟩ := mulSub_zero hq hus
  rw [knuthStep_eq (List.take_left' hus) hget, value_concat, hus]
  rw [value_concat, hus] at hlow hhigh
  exact settle_spec hv hlength hvalue hlow hhigh hq howed

/-- The loop divides: below the limbs that are already less than the divisor it finds one
quotient limb a round. -/
theorem knuthLoop_spec (hv : Normalised v) {j : ℕ} {u : Limbs} (hlen : j + v.length ≤ u.length)
    (hlt : value (u.drop j) < value v) :
    (knuthLoop v j u).1.length = j ∧ (knuthLoop v j u).2.length = u.length ∧
      value (knuthLoop v j u).1 = value u / value v ∧
      value (knuthLoop v j u).2 = value u % value v := by
  induction j generalizing u with
  | zero =>
    rw [List.drop_zero] at hlt
    refine ⟨rfl, rfl, ?_, ?_⟩
    · rw [Nat.div_eq_of_lt hlt, knuthLoop, value_nil]
    · rw [Nat.mod_eq_of_lt hlt, knuthLoop]
  | succ j ih =>
    have hj : j < u.length := by omega
    have htail : value (u.drop j) < 2 ^ 64 * value v := by
      have hx := u[j].toNat_lt
      rw [List.drop_eq_getElem_cons hj, value_cons]
      omega
    have htaillen : v.length + 1 ≤ (u.drop j).length := by
      rw [List.length_drop]
      omega
    -- the window holds all of the number from the limb `j` on
    obtain ⟨hwindow, hzero⟩ := value_take_of_lt htaillen (htail.trans_le (by
      rw [pow_succ, Nat.mul_comm]
      exact Nat.mul_le_mul_right _ (value_lt v).le))
    obtain ⟨hdigit, hsteplen, hstep⟩ := knuthStep_spec hv
      (by rw [List.length_take, min_eq_left htaillen]) (by rwa [hwindow])
    rw [hwindow] at hdigit hstep
    rw [List.drop_drop, ← Nat.add_assoc] at hzero
    rw [knuthLoop]
    generalize knuthStep v ((u.drop j).take (v.length + 1)) = step at *
    have htake : (u.take j).length = j := by rw [List.length_take, min_eq_left hj.le]
    have hnext : value ((u.take j ++ step.2 ++ u.drop (j + v.length + 1)).drop j) =
        value (u.drop j) % value v := by
      rw [List.append_assoc, List.drop_left' htake, value_append, hzero, hstep, Nat.mul_zero,
        Nat.add_zero]
    have hlength : (u.take j ++ step.2 ++ u.drop (j + v.length + 1)).length = u.length := by
      rw [List.length_append, List.length_append, htake, hsteplen, List.length_drop]
      omega
    have hvalue : value (u.take j ++ step.2 ++ u.drop (j + v.length + 1)) =
        value (u.take j) + (2 ^ 64) ^ j * (value (u.drop j) % value v) := by
      conv_lhs => rw [← List.take_append_drop j (u.take j ++ step.2 ++ _), value_append, hnext]
      rw [List.append_assoc, List.take_left' htake, htake]
    have hu : value u = value (u.take j ++ step.2 ++ u.drop (j + v.length + 1)) +
        (2 ^ 64) ^ j * (value (u.drop j) / value v) * value v := by
      have hsplit := value_append (u.take j) (u.drop j)
      rw [List.take_append_drop, htake] at hsplit
      rw [hsplit, hvalue, Nat.add_assoc, Nat.mul_assoc, ← Nat.mul_add, Nat.mod_add_div']
    have hsmall : value (u.drop j) % value v < value v := Nat.mod_lt _ hv.pos
    rw [← hnext] at hsmall
    obtain ⟨hqlen, hrestlen, hq, hrest⟩ := ih (by omega) hsmall
    refine ⟨?_, hrestlen.trans hlength, ?_, ?_⟩
    · rw [List.length_append, hqlen, List.length_singleton]
    · rw [value_concat, hqlen, hq, hdigit, hu, Nat.add_mul_div_right _ _ hv.pos]
    · rw [hrest, hu, Nat.add_mul_mod_self_right]

/-- Shifting a divisor by the leading zeros of its top limb sets the top bit and loses
nothing. -/
theorem shiftLimbs_normalised (low : Limbs) (htop : top ≠ 0) :
    value (shiftLimbs (clz top) (low ++ [top])).1 = value (low ++ [top]) * 2 ^ clz top ∧
      Normalised (shiftLimbs (clz top) (low ++ [top])).1 := by
  obtain ⟨hs, hge, hlt⟩ := clz_spec htop
  obtain ⟨hvalue, -⟩ := shiftLimbs_value hs (low ++ [top])
  have hlength := shiftLimbs_length (clz top) (low ++ [top])
  rw [List.length_append, List.length_singleton] at hvalue hlength
  have hlow := value_lt low
  have hnumber : value (low ++ [top]) * 2 ^ clz top =
      value low * 2 ^ clz top + (2 ^ 64) ^ low.length * (top.toNat * 2 ^ clz top) := by
    rw [value_concat]
    ring
  have hround : (top.toNat + 1) * 2 ^ clz top ≤ 2 ^ 64 := by
    rw [← pow_split hs.le, Nat.mul_comm (2 ^ clz top)]
    refine Nat.mul_le_mul_right _ (Nat.lt_of_mul_lt_mul_right (a := 2 ^ clz top) ?_)
    rwa [Nat.mul_comm (2 ^ (64 - clz top)), pow_split hs.le]
  have hbound : value (low ++ [top]) * 2 ^ clz top < (2 ^ 64) ^ (low.length + 1) :=
    calc value (low ++ [top]) * 2 ^ clz top
        < (2 ^ 64) ^ low.length * 2 ^ clz top + (2 ^ 64) ^ low.length *
          (top.toNat * 2 ^ clz top) := by
          rw [hnumber]
          exact Nat.add_lt_add_right (Nat.mul_lt_mul_of_pos_right hlow (by positivity)) _
      _ = (2 ^ 64) ^ low.length * ((top.toNat + 1) * 2 ^ clz top) := by ring
      _ ≤ (2 ^ 64) ^ low.length * 2 ^ 64 := Nat.mul_le_mul_left _ hround
      _ = _ := (pow_succ _ _).symm
  generalize shiftLimbs (clz top) (low ++ [top]) = shifted at *
  have hout : shifted.2.toNat = 0 := by
    by_contra hne
    have := Nat.le_mul_of_pos_right ((2 ^ 64) ^ (low.length + 1)) (Nat.pos_of_ne_zero hne)
    omega
  rw [hout, Nat.mul_zero, Nat.add_zero] at hvalue
  refine ⟨hvalue, ?_⟩
  obtain ⟨rest, x, hshifted, hrest⟩ := exists_top hlength
  refine ⟨rest, x, hshifted, ?_⟩
  have hsmall := value_lt rest
  rw [hshifted, value_concat, hrest, hnumber] at hvalue
  rw [hrest] at hsmall
  have hle : (2 ^ 64) ^ low.length * 2 ^ 63 < (2 ^ 64) ^ low.length * (x.toNat + 1) := by
    have := Nat.mul_le_mul_left ((2 ^ 64) ^ low.length) hge
    rw [Nat.mul_succ]
    omega
  exact Nat.lt_succ_iff.mp (Nat.lt_of_mul_lt_mul_left hle)

/-- Undoing the shift of the remainder. -/
theorem unshift_value (hs : s < 64) (l : Limbs) :
    (if s = 0 then l else unshiftLimbs s l).length = l.length ∧
      value (if s = 0 then l else unshiftLimbs s l) = value l / 2 ^ s := by
  split
  · next hzero => rw [hzero, pow_zero, Nat.div_one]; exact ⟨rfl, rfl⟩
  · next hne => exact ⟨unshiftLimbs_length s l, unshiftLimbs_value (Nat.pos_of_ne_zero hne) hs l⟩

/-- The limbs of a shifted dividend above the first quotient digit are less than the
divisor. -/
theorem value_drop_lt {v full : Limbs} {number s j : ℕ} (hv : Normalised v) (hs : s < 64)
    (hfull : value full = number * 2 ^ s) (hnumber : number < (2 ^ 64) ^ (j + (v.length - 1)))
    (hj : j ≤ full.length) : value (full.drop j) < value v := by
  have hsplit := value_append (full.take j) (full.drop j)
  rw [List.take_append_drop, List.length_take, min_eq_left hj, hfull] at hsplit
  have hlt : (2 ^ 64) ^ j * value (full.drop j) <
      (2 ^ 64) ^ j * (2 ^ 63 * (2 ^ 64) ^ (v.length - 1)) :=
    calc (2 ^ 64) ^ j * value (full.drop j) ≤ number * 2 ^ s := by
          rw [hsplit]
          exact Nat.le_add_left _ _
      _ < (2 ^ 64) ^ (j + (v.length - 1)) * 2 ^ s :=
          Nat.mul_lt_mul_of_pos_right hnumber (by positivity)
      _ ≤ (2 ^ 64) ^ (j + (v.length - 1)) * 2 ^ 63 :=
          Nat.mul_le_mul_left _ (Nat.pow_le_pow_right (by norm_num) (by omega))
      _ = _ := by rw [pow_add]; ring
  exact (Nat.lt_of_mul_lt_mul_left hlt).trans_le hv.pow_le

/-- Algorithm D divides. -/
theorem knuthDivide_spec (dividend : Limbs) {low : Limbs} (htop : top ≠ 0)
    (hlen : low.length < dividend.length) :
    (knuthDivide dividend (low ++ [top])).1.length = dividend.length - low.length ∧
      (knuthDivide dividend (low ++ [top])).2.length = low.length + 1 ∧
      value (knuthDivide dividend (low ++ [top])).1 = value dividend / value (low ++ [top]) ∧
      value (knuthDivide dividend (low ++ [top])).2 =
        value dividend % value (low ++ [top]) := by
  obtain ⟨hs, -, -⟩ := clz_spec htop
  obtain ⟨hv, hnorm⟩ := shiftLimbs_normalised low htop
  obtain ⟨hu, hout⟩ := shiftLimbs_value hs dividend
  have hvlen := shiftLimbs_length (clz top) (low ++ [top])
  have hulen := shiftLimbs_length (clz top) dividend
  have hlast : (low ++ [top]).getD (low.length + 1 - 1) 0 = top := getD_top low [] top
  have hn : (low ++ [top]).length = low.length + 1 := by simp
  have hrounds : dividend.length - (low.length + 1) + 1 = dividend.length - low.length := by omega
  rw [hn] at hvlen
  simp only [knuthDivide, hn, hlast, hrounds]
  generalize (shiftLimbs (clz top) (low ++ [top])).1 = v at *
  generalize shiftLimbs (clz top) dividend = u at *
  rw [← hulen, ← value_concat] at hu
  have hlength : (u.1 ++ [u.2]).length = dividend.length + 1 := by simp [hulen]
  have hstart := value_drop_lt (j := dividend.length - low.length) hnorm hs hu
    (by rw [hvlen, show dividend.length - low.length + (low.length + 1 - 1) = dividend.length by
          omega]
        exact value_lt dividend) (by omega)
  obtain ⟨hqlen, hrestlen, hq, hrest⟩ := knuthLoop_spec hnorm (by omega) hstart
  rw [hu, hv] at hq hrest
  rw [Nat.mul_div_mul_right _ _ (by positivity)] at hq
  rw [Nat.mul_mod_mul_right] at hrest
  generalize knuthLoop v (dividend.length - low.length) (u.1 ++ [u.2]) = loop at *
  have hpos : 0 < value (low ++ [top]) := by
    have := hnorm.pos
    rw [hv] at this
    exact Nat.pos_of_mul_pos_right this
  have hsmall : value loop.2 < (2 ^ 64) ^ (low.length + 1) := by
    rw [hrest, ← hvlen]
    exact lt_of_lt_of_le (Nat.mul_lt_mul_of_pos_right (Nat.mod_lt _ hpos) (by positivity))
      (hv ▸ (value_lt v).le)
  obtain ⟨htake, -⟩ := value_take_of_lt (by omega) hsmall
  obtain ⟨hbacklen, hback⟩ := unshift_value hs (loop.2.take (low.length + 1))
  refine ⟨hqlen, ?_, hq, ?_⟩
  · rw [hbacklen, List.length_take, hrestlen]
    omega
  · rw [hback, htake, hrest, Nat.mul_div_cancel _ (by positivity)]

end Div0.LimbDivision
