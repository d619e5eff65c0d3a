import IonCircuit.Proofs.Binary64.Value
import IonCircuit.Proofs.LawfulScalar

/-! Doubles obey the laws of order that the native ranges rest on. -/
namespace IonCircuit.Binary64
open Float.Model (UnpackedFloat)
open Scalar (halfPi tau threeHalfPi isFinite)
variable {x y : Float}

theorem scalar_pi : (Scalar.pi : Float) = pi := rfl

theorem fields_zero : fields 0 = .zero .positive := rfl

theorem fields_pi : fields pi = .finite .positive 7074237752028440 (-51) (by decide) := rfl

theorem fields_halfPi :
    fields (halfPi : Float) = .finite .positive 7074237752028440 (-52) (by decide) := rfl

theorem fields_tau :
    fields (tau : Float) = .finite .positive 7074237752028440 (-50) (by decide) := rfl

theorem fields_threeHalfPi :
    fields (threeHalfPi : Float) = .finite .positive 5305678314021330 (-50) (by decide) := rfl

theorem value_zero : value 0 = 0 := rfl

theorem value_pi : value pi = 7074237752028440 / 2 ^ 51 := by
  rw [value, fields_pi, realOf_positive]
  norm_num

theorem value_halfPi : value (halfPi : Float) = value pi / 2 := by
  rw [value_pi, value, fields_halfPi, realOf_positive]
  norm_num

theorem value_tau : value (tau : Float) = 2 * value pi := by
  rw [value_pi, value, fields_tau, realOf_positive]
  norm_num

theorem value_threeHalfPi : value (threeHalfPi : Float) = 3 * (value pi / 2) := by
  rw [value_pi, value, fields_threeHalfPi, realOf_positive]
  norm_num

theorem value_pi_pos : 0 < value pi := by
  rw [value_pi]
  norm_num

/-- Bounds on both sides exclude infinities and not-a-numbers. -/
theorem isFinite_of_between {a b : Float} (ha : isFinite a = true) (hb : isFinite b = true)
    (hax : a ≤ x) (hxb : x ≤ b) : isFinite x = true := by
  rw [le_iff_fields] at hax hxb
  rw [isFinite_iff_fields] at ha hb ⊢
  cases hu : fields x with
  | zero s | finite s m e hm => rfl
  | notANumber =>
    rw [hu] at hax
    cases hv : fields a <;> simp_all [UnpackedFloat.le, UnpackedFloat.compare]
  | infinity s =>
    rw [hu] at hax hxb
    cases s <;> cases hv : fields a <;> cases hw : fields b <;>
      simp_all [UnpackedFloat.le, UnpackedFloat.compare, UnpackedFloat.isFinite, Ordering.isLE]

theorem isFinite_pi : isFinite pi = true := rfl

theorem isFinite_neg_pi : isFinite (-pi) = true := rfl

theorem isFinite_zero : isFinite (0 : Float) = true := rfl

theorem le_of_lt (h : x < y) : x ≤ y := by
  rw [lt_iff_fields, UnpackedFloat.lt, beq_iff_eq] at h
  rw [le_iff_fields, UnpackedFloat.le, h]
  rfl

/-- What is comparable but not negative is at least zero. -/
theorem zero_le_of_not_lt (h : ¬ x < 0) (hxy : x ≤ y) : 0 ≤ x := by
  rw [lt_iff_fields, fields_zero] at h
  rw [le_iff_fields] at hxy
  rw [le_iff_fields, fields_zero]
  cases hu : fields x with
  | notANumber =>
    rw [hu] at hxy
    cases hv : fields y <;> simp_all [UnpackedFloat.le, UnpackedFloat.compare]
  | zero s => rfl
  | infinity s | finite s m e hm =>
    rw [hu] at h
    cases s
    · exact (h rfl).elim
    · rfl

theorem zero_le_abs (h : x.abs ≤ y) : 0 ≤ x.abs := by
  refine zero_le_of_not_lt ?_ h
  rw [lt_iff_fields, fields_zero, fields_abs]
  cases fields x <;> exact Bool.false_ne_true

instance : Scalar.Lawful Float where
  le_of_lt := le_of_lt
  isFinite_of_mem hlow hhigh := isFinite_of_between isFinite_zero isFinite_pi hlow hhigh
  neg_mem {x} hlow hneg := by
    have hx := isFinite_of_between isFinite_neg_pi isFinite_zero hlow (le_of_lt hneg)
    have hnx : isFinite (-x) = true := isFinite_neg.trans hx
    have hlow := (le_iff_value isFinite_neg_pi hx).mp hlow
    have hneg := (lt_iff_value hx isFinite_zero).mp hneg
    rw [value_neg] at hlow
    rw [value_zero] at hneg
    refine ⟨(le_iff_value isFinite_zero hnx).mpr ?_, (le_iff_value hnx isFinite_pi).mpr ?_⟩ <;>
      rw [value_neg]
    · rw [value_zero]
      linarith
    · linarith
  abs_mem {x} hnonneg hhigh := by
    have hlow := zero_le_of_not_lt hnonneg hhigh
    have hx := isFinite_of_between isFinite_zero isFinite_pi hlow hhigh
    have hax : isFinite x.abs = true := isFinite_abs.trans hx
    have hlow := (le_iff_value isFinite_zero hx).mp hlow
    have hhigh := (le_iff_value hx isFinite_pi).mp hhigh
    rw [value_zero] at hlow
    refine ⟨(le_iff_value isFinite_zero hax).mpr ?_, (le_iff_value hax isFinite_pi).mpr ?_⟩ <;>
      rw [value_abs, abs_of_nonneg hlow]
    · exact hlow
    · exact hhigh
  zero_le_abs := zero_le_abs
  not_zero_lt_zero := by decide
  zero_le_zero := by decide
  zero_le_halfPi := by decide
  le_pi_of_le_halfPi {x} hlow hhigh := by
    have hx := isFinite_of_between isFinite_zero rfl hlow hhigh
    have hhigh := (le_iff_value hx rfl).mp hhigh
    rw [value_halfPi] at hhigh
    refine (le_iff_value hx isFinite_pi).mpr ?_
    linarith [value_pi_pos]
  halfPi_le_halfPi := by decide
  isFinite_threeHalfPi := rfl
  neg_pi_lt_pi := by decide
  pi_le_pi := by decide
  not_pi_lt_zero := by decide
  abs_pi := by decide

end IonCircuit.Binary64
