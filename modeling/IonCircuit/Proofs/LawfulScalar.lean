import IonCircuit.Principal

/-! The laws of order that the native ranges rest on. Doubles and reals both obey them. -/
namespace IonCircuit
open Scalar

/-- The order of the scalars between zero and `π`, without any law of addition. -/
class Scalar.Lawful (α : Type) [Scalar α] : Prop where
  le_of_lt {x y : α} : x < y → x ≤ y
  isFinite_of_mem {x : α} : 0 ≤ x → x ≤ pi → isFinite x = true
  neg_mem {x : α} : -pi ≤ x → x < 0 → 0 ≤ -x ∧ -x ≤ pi
  abs_mem {x : α} : ¬ x < 0 → x ≤ pi → 0 ≤ abs x ∧ abs x ≤ pi
  zero_le_abs {x y : α} : abs x ≤ y → 0 ≤ abs x
  not_zero_lt_zero : ¬ (0 : α) < 0
  zero_le_zero : (0 : α) ≤ 0
  zero_le_halfPi : (0 : α) ≤ halfPi
  le_pi_of_le_halfPi {x : α} : 0 ≤ x → x ≤ halfPi → x ≤ pi
  halfPi_le_halfPi : (halfPi : α) ≤ halfPi
  isFinite_threeHalfPi : isFinite (threeHalfPi : α) = true
  neg_pi_lt_pi : -pi < (pi : α)
  pi_le_pi : (pi : α) ≤ pi
  not_pi_lt_zero : ¬ (pi : α) < 0
  abs_pi : abs (pi : α) = pi

namespace Scalar.Lawful
variable {α : Type} [Scalar α] [Lawful α]

theorem zero_le_pi : (0 : α) ≤ pi := le_pi_of_le_halfPi zero_le_zero zero_le_halfPi

theorem isFinite_pi : isFinite (pi : α) = true := isFinite_of_mem zero_le_pi pi_le_pi

theorem isFinite_zero : isFinite (0 : α) = true := isFinite_of_mem zero_le_zero zero_le_pi

theorem isFinite_halfPi : isFinite (halfPi : α) = true :=
  isFinite_of_mem zero_le_halfPi (le_pi_of_le_halfPi zero_le_halfPi halfPi_le_halfPi)

theorem principal_pi [Trig α] : principal (pi : α) = pi :=
  if_pos ⟨neg_pi_lt_pi, pi_le_pi⟩

end Scalar.Lawful

/-- What is left of a linear order where some scalars compare with nothing. -/
class Scalar.Ordered (α : Type) [Scalar α] : Prop where
  lt_irrefl (x : α) : ¬ x < x
  lt_of_le_of_lt {x y z : α} : x ≤ y → y < z → x < z

/-- The angle of a direction stays within half a turn of zero. -/
class Trig.Bounded (α : Type) [Scalar α] [Trig α] : Prop where
  sin_finite {x : α} : isFinite x = true → isFinite (Trig.sin x) = true
  cos_finite {x : α} : isFinite x = true → isFinite (Trig.cos x) = true
  neg_pi_le_atan2 {y x : α} : isFinite y = true → isFinite x = true → -pi ≤ Trig.atan2 y x
  atan2_le_pi {y x : α} : isFinite y = true → isFinite x = true → Trig.atan2 y x ≤ pi

variable {α : Type} [Scalar α] [Trig α] [Scalar.Lawful α] [Trig.Bounded α] {θ : α}

open Scalar.Lawful in
theorem principal_mem (h : isFinite θ = true) :
    (principal θ < 0 → -pi ≤ principal θ) ∧ principal θ ≤ pi := by
  unfold principal
  split
  · rename_i hθ
    exact ⟨fun _ => le_of_lt hθ.1, hθ.2⟩
  · have hs := Trig.Bounded.sin_finite h
    have hc := Trig.Bounded.cos_finite h
    dsimp only
    split
    · exact ⟨fun hneg => (not_zero_lt_zero hneg).elim, zero_le_pi⟩
    · exact ⟨fun _ => Trig.Bounded.neg_pi_le_atan2 hs hc, Trig.Bounded.atan2_le_pi hs hc⟩

end IonCircuit
