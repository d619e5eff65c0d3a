import IonCircuit.Proofs.LawfulScalar
import Mathlib.Analysis.SpecialFunctions.Complex.Arg

/-! The reals as scalars, with the trigonometric functions of analysis. -/
namespace IonCircuit
open Scalar

-- Quotients and decimals of reals stay those that lemmas about reals are stated for.
attribute [instance (low)] Scalar.toDiv Scalar.toOfScientific

noncomputable instance : Scalar ℝ where
  decLE := inferInstance
  decLT := inferInstance
  abs x := |x|
  hypot x y := √(x * x + y * y)
  remainder x y := x - y * ⌊x / y⌋
  isFinite _ := true
  pi := Real.pi

noncomputable instance : Trig ℝ where
  sin := Real.sin
  cos := Real.cos
  atan2 y x := Complex.arg ⟨x, y⟩

section Constants

@[simp] theorem real_pi : (pi : ℝ) = Real.pi := rfl

@[simp] theorem real_abs (x : ℝ) : Scalar.abs x = |x| := rfl

@[simp] theorem real_sin (x : ℝ) : Trig.sin x = Real.sin x := rfl

@[simp] theorem real_cos (x : ℝ) : Trig.cos x = Real.cos x := rfl

@[simp] theorem real_half (x : ℝ) : half x = x / 2 := by
  rw [half, one_add_one_eq_two]

@[simp] theorem real_halfPi : (halfPi : ℝ) = Real.pi / 2 := real_half Real.pi

@[simp] theorem real_tau : (tau : ℝ) = 2 * Real.pi := (two_mul Real.pi).symm

@[simp] theorem real_threeHalfPi : (threeHalfPi : ℝ) = 3 * (Real.pi / 2) := by
  rw [threeHalfPi, real_halfPi, one_add_one_eq_two, two_add_one_eq_three]

@[simp] theorem real_powTwo (k : ℕ) : (powTwo k : ℝ) = 2 ^ k := by
  induction k with
  | zero => rfl
  | succ k ih => rw [powTwo, ih, pow_succ, mul_two]

@[simp] theorem real_zeroBand : (zeroBand : ℝ) = 1 / 2 ^ 46 := by
  rw [zeroBand, real_powTwo]

end Constants

instance : Scalar.Lawful ℝ where
  le_of_lt h := LT.lt.le h
  isFinite_of_mem _ _ := rfl
  neg_mem hlow hneg := ⟨by linarith, by linarith⟩
  abs_mem hnonneg hhigh := by
    rw [real_abs, abs_of_nonneg (not_lt.mp hnonneg)]
    exact ⟨not_lt.mp hnonneg, hhigh⟩
  zero_le_abs _ := abs_nonneg _
  not_zero_lt_zero := lt_irrefl _
  zero_le_zero := le_refl _
  zero_le_halfPi := by
    rw [real_halfPi]
    exact Real.pi_div_two_pos.le
  le_pi_of_le_halfPi _ hx := by
    rw [real_halfPi] at hx
    rw [real_pi]
    linarith [Real.pi_pos]
  halfPi_le_halfPi := le_refl _
  isFinite_threeHalfPi := rfl
  neg_pi_lt_pi := neg_lt_self Real.pi_pos
  pi_le_pi := le_refl _
  not_pi_lt_zero := not_lt.mpr Real.pi_pos.le
  abs_pi := abs_of_pos Real.pi_pos

instance : Scalar.Ordered ℝ where
  lt_irrefl x := lt_irrefl x
  lt_of_le_of_lt hxy hyz := lt_of_le_of_lt hxy hyz

instance : Trig.Bounded ℝ where
  sin_finite _ := rfl
  cos_finite _ := rfl
  neg_pi_le_atan2 _ _ := (Complex.neg_pi_lt_arg _).le
  atan2_le_pi _ _ := Complex.arg_le_pi _

end IonCircuit
