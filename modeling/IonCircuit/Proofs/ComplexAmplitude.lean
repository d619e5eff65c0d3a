import IonCircuit.Amplitude
import IonCircuit.Operator
import IonCircuit.Proofs.Reals
import Mathlib.Data.Matrix.Mul

/-! Amplitudes over the reals are the complex numbers. -/
namespace IonCircuit

namespace Amplitude
variable (z w : Amplitude ℝ)

@[simp] theorem zero_re : (0 : Amplitude ℝ).re = 0 := rfl
@[simp] theorem zero_im : (0 : Amplitude ℝ).im = 0 := rfl
@[simp] theorem one_re : (1 : Amplitude ℝ).re = 1 := rfl
@[simp] theorem one_im : (1 : Amplitude ℝ).im = 0 := rfl
@[simp] theorem neg_re : (-z).re = -z.re := rfl
@[simp] theorem neg_im : (-z).im = -z.im := rfl
@[simp] theorem sub_re : (z - w).re = z.re - w.re := rfl
@[simp] theorem sub_im : (z - w).im = z.im - w.im := rfl

noncomputable instance : CommRing (Amplitude ℝ) where
  add_assoc a b c := by ext <;> simp only [add_re, add_im, add_assoc]
  zero_add a := by ext <;> simp
  add_zero a := by ext <;> simp
  add_comm a b := by ext <;> simp only [add_re, add_im, add_comm]
  neg_add_cancel a := by ext <;> simp
  sub_eq_add_neg a b := by ext <;> exact sub_eq_add_neg _ _
  mul_assoc a b c := by ext <;> simp only [mul_re, mul_im] <;> ring
  one_mul a := by ext <;> simp
  mul_one a := by ext <;> simp
  zero_mul a := by ext <;> simp
  mul_zero a := by ext <;> simp
  left_distrib a b c := by ext <;> simp only [mul_re, mul_im, add_re, add_im] <;> ring
  right_distrib a b c := by ext <;> simp only [mul_re, mul_im, add_re, add_im] <;> ring
  mul_comm a b := by ext <;> simp only [mul_re, mul_im] <;> ring
  nsmul := nsmulRec
  zsmul := zsmulRec

/-- The complex number with the same coordinates. -/
noncomputable def toComplex : Amplitude ℝ ≃+* ℂ where
  toFun z := ⟨z.re, z.im⟩
  invFun z := ⟨z.re, z.im⟩
  left_inv _ := rfl
  right_inv _ := rfl
  map_mul' z w := by apply Complex.ext <;> simp
  map_add' z w := by apply Complex.ext <;> simp

theorem toComplex_mk (x y : ℝ) : toComplex ⟨x, y⟩ = x + y * Complex.I := by
  apply Complex.ext <;> simp [toComplex]

@[simp] theorem toComplex_re : (toComplex z).re = z.re := rfl
@[simp] theorem toComplex_im : (toComplex z).im = z.im := rfl

theorem norm_eq : z.norm = ‖toComplex z‖ := by
  rw [Complex.norm_def, Complex.normSq_apply]
  rfl

theorem toComplex_div : toComplex (z / w) = toComplex z / toComplex w := by
  apply Complex.ext
  · rw [Complex.div_re, Complex.normSq_apply, ← add_div]
    rfl
  · rw [Complex.div_im, Complex.normSq_apply, ← sub_div]
    rfl

theorem toComplex_unscale (x : ℝ) : toComplex (z.unscale x) = toComplex z / x := by
  apply Complex.ext <;> simp [unscale]

end Amplitude

/-- The complex matrix of an operator. -/
noncomputable def Operator.toMatrix (n : ℕ) (U : Operator (Amplitude ℝ)) : Matrix (Fin n) (Fin n) ℂ :=
  Matrix.of fun i j => (U.entry i j).toComplex

theorem Operator.toMatrix_apply {n : ℕ} (U : Operator (Amplitude ℝ)) (i j : Fin n) :
    U.toMatrix n i j = (U.entry i j).toComplex := rfl

end IonCircuit
