import Mathlib.Tactic.Linarith
import Mathlib.Tactic.LinearCombination
import Mathlib.Tactic.Positivity
import Mathlib.Tactic.Ring

/-!
Facts about long division that do not depend on how numbers are stored. A quotient digit
is estimated from the leading part of the dividend and of the divisor; an estimate that
the leading parts do not refute is at most one too large. A division by one digit can be
replaced by a multiplication with a reciprocal, which Newton's iteration computes from a
short first approximation.
-/

namespace Div0.LongDivision

/-! ### Estimating a quotient digit

The dividend `u` and the divisor `v` start with the heads `uHead` and `vHead`; what
follows the heads is less than `weight`. -/

section Estimate

variable {u v uHead vHead weight q : ℕ}

/-- An estimate that is too large for the heads is too large. -/
theorem div_lt_of_head_lt (hu : u < (uHead + 1) * weight) (hv : vHead * weight ≤ v)
    (hhead : uHead < q * vHead) : u / v < q := by
  apply Nat.div_lt_of_lt_mul
  calc u < (uHead + 1) * weight := hu
    _ ≤ q * vHead * weight := Nat.mul_le_mul_right weight hhead
    _ = q * (vHead * weight) := Nat.mul_assoc q vHead weight
    _ ≤ q * v := Nat.mul_le_mul_left q hv
    _ = v * q := Nat.mul_comm q v

/-- An estimate that fits the heads is at most one too large, when it is small against
the divisor. -/
theorem le_div_succ_of_head_le (hu : uHead * weight ≤ u) (hv : v ≤ (vHead + 1) * weight)
    (hhead : q * vHead ≤ uHead) (hq : q * weight ≤ v) (hpos : 0 < v) : q ≤ u / v + 1 := by
  have hbound : q * v ≤ u + v :=
    calc q * v ≤ q * ((vHead + 1) * weight) := Nat.mul_le_mul_left q hv
      _ = q * vHead * weight + q * weight := by ring
      _ ≤ uHead * weight + v := Nat.add_le_add (Nat.mul_le_mul_right weight hhead) hq
      _ ≤ u + v := Nat.add_le_add_right hu v
  rw [← Nat.add_div_right u hpos]
  exact (Nat.le_div_iff_mul_le hpos).mpr hbound

end Estimate

/-! ### Dividing by one digit with a reciprocal -/

/-- One step of Newton's iteration. If `w` approximates `n / d` with the residue `e`, the
next approximation has the square of `e` as its residue, up to the rounding `k`. -/
theorem newton_step {w x d e n t k : ℤ} (hw : w * d + e = n)
    (hnext : t * x + k = (n + e) * w) : t * (x * d) + k * d + e ^ 2 = n ^ 2 := by
  linear_combination d * hnext + (n + e) * hw

section TwoByOne

/-! The number of two digits `base * u1 + u0` is divided by `d`, which fills its digit at
least to one half. The reciprocal is `base + v`, and `k` is what it falls short by. -/

variable {base d v k u1 u0 q1 q0 : ℤ}

/-- What the quotient digit after `q1` leaves of the dividend, scaled by the base. -/
theorem base_mul_remainder (hv : (base + v) * d + k = base ^ 2)
    (hq : q1 * base + q0 = (base + v) * u1 + u0) :
    base * (base * u1 + u0 - (q1 + 1) * d) =
      k * u1 + (base - d) * u0 + q0 * d - base * d := by
  linear_combination (-u1) * hv + (-d) * hq

/-- The remainder for the digit after `q1` is negative by at most `d`, and more than `q0`
below the base then; otherwise it is smaller than `base - d` or than `q0`. -/
theorem remainder_bounds (hv : (base + v) * d + k = base ^ 2)
    (hq : q1 * base + q0 = (base + v) * u1 + u0) (hk : 1 ≤ k) (hkd : k ≤ d) (hd : d < base)
    (hu1 : 0 ≤ u1) (hu1d : u1 < d) (hu0 : 0 ≤ u0) (hu0b : u0 < base) (hq0 : 0 ≤ q0)
    (hq0b : q0 < base) :
    -d ≤ base * u1 + u0 - (q1 + 1) * d ∧ q0 - base < base * u1 + u0 - (q1 + 1) * d ∧
      (base * u1 + u0 - (q1 + 1) * d < base - d ∨ base * u1 + u0 - (q1 + 1) * d < q0) := by
  have hr := base_mul_remainder hv hq
  generalize base * u1 + u0 - (q1 + 1) * d = r at *
  have hbase : 0 < base := by linarith
  have hku : 0 ≤ k * u1 := by positivity
  have hdu : 0 ≤ (base - d) * u0 := mul_nonneg (by linarith) hu0
  refine ⟨?_, ?_, ?_⟩
  · by_contra hlt
    have hprod : base * r ≤ base * (-d - 1) :=
      mul_le_mul_of_nonneg_left (by linarith [not_le.mp hlt]) hbase.le
    have hqd : 0 ≤ q0 * d := mul_nonneg hq0 (by linarith)
    nlinarith
  · by_contra hle
    have hprod : base * r ≤ base * (q0 - base) :=
      mul_le_mul_of_nonneg_left (not_lt.mp hle) hbase.le
    have hgap : 0 < (base - q0) * (base - d) := mul_pos (by linarith) (by linarith)
    nlinarith
  · -- `r` stays below a weighted mean of `base - d` and `q0`
    by_contra hno
    rw [not_or, not_lt, not_lt] at hno
    have hk1 : k * u1 ≤ d * (d - 1) := mul_le_mul hkd (by linarith) hu1 (by linarith)
    have hk0 : (base - d) * u0 ≤ (base - d) * (base - 1) :=
      mul_le_mul_of_nonneg_left (by linarith) (by linarith)
    have hfar : (base - d) * (base - d) ≤ (base - d) * r :=
      mul_le_mul_of_nonneg_left hno.1 (by linarith)
    have hnear : d * q0 ≤ d * r := mul_le_mul_of_nonneg_left hno.2 (by linarith)
    nlinarith

end TwoByOne

end Div0.LongDivision
