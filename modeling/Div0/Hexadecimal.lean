import Div0.BigEndian
import Mathlib.Data.Nat.Digits.Defs

/-!
Numbers and byte strings as sequences of hexadecimal digits, most significant first.
-/

namespace Div0.Hexadecimal

open BigEndian

def value (digits : List ℕ) : ℕ := digits.foldl (fun n d => 16 * n + d) 0

def nibbles (byte : UInt8) : List ℕ := [byte.toNat / 16, byte.toNat % 16]

def lastDigits (n count : ℕ) : List ℕ :=
  (List.range count).map fun i => n / 16 ^ (count - 1 - i) % 16

theorem foldl_value (digits : List ℕ) (n : ℕ) :
    digits.foldl (fun n d => 16 * n + d) n = n * 16 ^ digits.length + value digits := by
  unfold value
  induction digits generalizing n with
  | nil => simp
  | cons d rest ih =>
    rw [List.foldl_cons, List.foldl_cons, ih (16 * n + d), ih (16 * 0 + d), List.length_cons]
    ring

@[simp] theorem value_nil : value [] = 0 := rfl

theorem value_cons (d : ℕ) (rest : List ℕ) :
    value (d :: rest) = d * 16 ^ rest.length + value rest := by
  rw [value, List.foldl_cons, foldl_value, Nat.mul_zero, Nat.zero_add]

/-- A leading zero changes nothing. -/
theorem value_zero_cons (rest : List ℕ) : value (0 :: rest) = value rest := by
  rw [value_cons, Nat.zero_mul, Nat.zero_add]

theorem value_eq_ofDigits (digits : List ℕ) : value digits = Nat.ofDigits 16 digits.reverse := by
  rw [value, Nat.ofDigits_eq_foldr, List.foldr_reverse]
  congr 1
  ext n d
  exact Nat.add_comm _ _

theorem value_nibbles (bytes : Bytes) : value (bytes.flatMap nibbles) = ofBytes bytes := by
  induction bytes with
  | nil => rfl
  | cons b rest ih =>
    have hlength : (rest.flatMap nibbles).length = 2 * rest.length := by
      induction rest with
      | nil => rfl
      | cons c rest _ => simp [nibbles]; omega
    have hbyte := Nat.div_add_mod b.toNat 16
    rw [List.flatMap_cons, nibbles, List.cons_append, List.cons_append, List.nil_append, value_cons,
      value_cons, ih, ofBytes_cons, List.length_cons, hlength, Nat.pow_succ, Nat.pow_mul]
    nth_rewrite 3 [← hbyte]
    ring

theorem value_lastDigits (n count : ℕ) : value (lastDigits n count) = n % 16 ^ count := by
  induction count with
  | zero => simp [lastDigits, Nat.mod_one]
  | succ count ih =>
    have hsplit : lastDigits n (count + 1) = n / 16 ^ count % 16 :: lastDigits n count := by
      rw [lastDigits, List.range_succ_eq_map, List.map_cons, List.map_map]
      congr 1
      apply List.map_congr_left
      intro i _
      rw [Function.comp_apply, Nat.add_sub_cancel, Nat.succ_eq_add_one, Nat.sub_sub, Nat.add_comm 1]
    have hlength : (lastDigits n count).length = count := by simp [lastDigits]
    rw [hsplit, value_cons, hlength, ih, Nat.pow_succ, Nat.mod_mul, Nat.mul_comm, Nat.add_comm]

end Div0.Hexadecimal
