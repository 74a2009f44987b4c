/-
Module: AffineSchedule.Proofs.Divisor
Purpose: The extended Euclidean algorithm on machine integers. Its coefficients never outgrow the two
  numbers they belong to, so no product or difference on the way leaves the range.
-/
import AffineSchedule.Proofs.Checked
import AffineSchedule.Word
import Mathlib.Tactic.LinearCombination

namespace AffineSchedule

open Checked

/-- A value no larger than the greatest representable integer passes the check, whatever its sign. -/
theorem Word.checked_of_natAbs_le {value : ℤ} (small : value.natAbs ≤ greatest.natAbs) :
    checked value = .ok value := by
  refine checked_ok_iff.mpr ⟨?_, rfl⟩
  unfold Fits least greatest at *
  omega

/-- Other than the least one, the representable integers are those whose absolute value is representable. -/
theorem Word.natAbs_le_of_fits {value : ℤ} (fits : Fits value) (ne_least : value ≠ least) :
    value.natAbs ≤ greatest.natAbs := by
  unfold Fits least greatest at *
  omega

namespace Bezout

variable {a b : ℤ} {inner : Bezout}

/-- The record writes the greatest common divisor of `a` and `b` as a combination of the two, each
    coefficient at most as large as the number it does not stand at, or as one. -/
structure Solves (bezout : Bezout) (a b : ℤ) : Prop where
  gcd_eq : bezout.gcd = Int.gcd a b
  combination : a * bezout.left + b * bezout.right = bezout.gcd
  left_le : bezout.left.natAbs ≤ max 1 b.natAbs
  right_le : bezout.right.natAbs ≤ max 1 a.natAbs
  /-- When a single number is left, the free coefficient is not used. -/
  right_eq_zero : b = 0 → bezout.right = 0

/-- The last call, where the second number has become zero. -/
theorem solves_zero (a : ℤ) : Solves { gcd := a.natAbs, left := a.sign, right := 0 } a 0 where
  gcd_eq := by simp
  combination := by simp [Int.mul_sign_self]
  left_le := by
    rcases Int.sign_trichotomy a with one | zero | minus_one <;> simp [*]
  right_le := by simp
  right_eq_zero := fun _ => rfl

/-- Quotient and remainder toward zero split the absolute value of the dividend. -/
theorem natAbs_split (a b : ℤ) : (a.tmod b).natAbs + (a.tdiv b).natAbs * b.natAbs = a.natAbs := by
  rw [Int.natAbs_tmod, Int.natAbs_tdiv, Nat.mul_comm]
  exact Nat.mod_add_div _ _

theorem gcd_tmod (a b : ℤ) : Int.gcd b (a.tmod b) = Int.gcd a b := by
  rw [Int.gcd_eq_natAbs_gcd_natAbs, Int.natAbs_tmod, Nat.gcd_comm, ← Nat.gcd_rec, Nat.gcd_comm]
  rfl

/-- The product formed on the way back, bounded by the part of the dividend that the quotient accounts for. -/
theorem Solves.correction_le (solves : inner.Solves b (a.tmod b)) (nonzero : b ≠ 0) :
    (a.tdiv b * inner.right).natAbs ≤ (a.tdiv b).natAbs * b.natAbs := by
  have right_le := solves.right_le
  rw [Int.natAbs_mul]
  exact Nat.mul_le_mul_left _ (by omega)

/-- A solution for the divisor and the remainder gives one for the dividend and the divisor. -/
theorem Solves.step (solves : inner.Solves b (a.tmod b)) (nonzero : b ≠ 0) :
    Solves { gcd := inner.gcd, left := inner.right, right := inner.left - a.tdiv b * inner.right } a b where
  gcd_eq := by rw [solves.gcd_eq, gcd_tmod]
  combination := by
    have split := Int.tmod_add_mul_tdiv a b
    linear_combination solves.combination - inner.right * split
  left_le := solves.right_le
  right_le := by
    show (inner.left - a.tdiv b * inner.right).natAbs ≤ max 1 a.natAbs
    by_cases remainder : a.tmod b = 0
    · -- the call below was the last one: the quotient does not enter the coefficient
      have left_le := solves.left_le
      rw [solves.right_eq_zero remainder]
      rw [remainder] at left_le
      omega
    · have left_le : inner.left.natAbs ≤ (a.tmod b).natAbs := by
        have := solves.left_le
        omega
      calc (inner.left - a.tdiv b * inner.right).natAbs
          ≤ inner.left.natAbs + (a.tdiv b * inner.right).natAbs := Int.natAbs_sub_le _ _
        _ ≤ (a.tmod b).natAbs + (a.tdiv b).natAbs * b.natAbs :=
          Nat.add_le_add left_le (solves.correction_le nonzero)
        _ = a.natAbs := natAbs_split a b
        _ ≤ max 1 a.natAbs := Nat.le_max_right _ _
  right_eq_zero := fun zero => absurd zero nonzero

/-- On numbers with a representable absolute value every operation of the algorithm stays in range. -/
theorem exists_compute (a_small : a.natAbs ≤ Word.greatest.natAbs) (b_small : b.natAbs ≤ Word.greatest.natAbs) :
    ∃ bezout, compute a b = .ok bezout ∧ bezout.Solves a b := by
  -- the induction follows the recursive calls; every remainder is smaller than the number divided by
  fun_induction compute a b with
  | case1 a =>
    refine ⟨_, ?_, solves_zero a⟩
    rw [Word.abs, Word.checked_of_natAbs_le (by rwa [Int.natAbs_natCast])]
    rfl
  | case2 a b nonzero ih =>
    have split := natAbs_split a b
    have remainder_small : (a.tmod b).natAbs ≤ Word.greatest.natAbs := by omega
    obtain ⟨inner, inner_ok, solves⟩ := ih b_small remainder_small
    have step := solves.step nonzero
    have correction_le := solves.correction_le nonzero
    have quotient_le : (a.tdiv b).natAbs ≤ (a.tdiv b).natAbs * b.natAbs :=
      Nat.le_mul_of_pos_right _ (Int.natAbs_pos.mpr nonzero)
    have quotient_ok : Word.quot a b = .ok (a.tdiv b) := Word.checked_of_natAbs_le (by omega)
    have product_ok : Word.mul (a.tdiv b) inner.right = .ok (a.tdiv b * inner.right) :=
      Word.checked_of_natAbs_le (by omega)
    have difference_ok : Word.sub inner.left (a.tdiv b * inner.right)
        = .ok (inner.left - a.tdiv b * inner.right) := by
      refine Word.checked_of_natAbs_le (step.right_le.trans (Nat.max_le.mpr ⟨?_, a_small⟩))
      decide
    refine ⟨_, ?_, step⟩
    simp only [Word.rem, bind_ok, pure_ok]
    exact ⟨_, ⟨_, quotient_ok, rfl⟩, _, inner_ok, _, quotient_ok, _, product_ok, _, difference_ok, rfl⟩

/-- The extended Euclidean algorithm never leaves the range of machine integers unless it starts from the
    least one: it delivers the greatest common divisor as a combination of the two numbers. -/
theorem euclid_exact (a_fits : Word.Fits a) (a_ne_least : a ≠ Word.least) (b_fits : Word.Fits b)
    (b_ne_least : b ≠ Word.least) :
    ∃ bezout, compute a b = .ok bezout ∧ bezout.gcd = Int.gcd a b ∧ 0 ≤ bezout.gcd
      ∧ a * bezout.left + b * bezout.right = bezout.gcd := by
  obtain ⟨bezout, computed, solves⟩ := exists_compute (Word.natAbs_le_of_fits a_fits a_ne_least)
    (Word.natAbs_le_of_fits b_fits b_ne_least)
  refine ⟨bezout, computed, solves.gcd_eq, ?_, solves.combination⟩
  rw [solves.gcd_eq]
  exact Int.natCast_nonneg _

/-- Neighbouring Fibonacci numbers of opposite sign take the most calls. -/
theorem euclid_exact_fibonacci :
    Word.Fits 7540113804746346429 ∧ Word.Fits (-4660046610375530309)
      ∧ ∃ bezout, compute 7540113804746346429 (-4660046610375530309) = .ok bezout
        ∧ bezout.gcd = Int.gcd 7540113804746346429 (-4660046610375530309) ∧ 0 ≤ bezout.gcd
        ∧ 7540113804746346429 * bezout.left + -4660046610375530309 * bezout.right = bezout.gcd :=
  ⟨by decide, by decide, euclid_exact (by decide) (by decide) (by decide) (by decide)⟩

end Bezout

end AffineSchedule
