import IonCircuit.Error
import IonCircuit.Scalar

/-! Angles reduced to one turn of the circle. -/
namespace IonCircuit
open Scalar
variable {α : Type} [Scalar α]

/-- An angle of a gate of this kind, refused when it is infinite or not a number. -/
def finiteAngle (kind : Kind) (θ : α) : Except (Error α) α :=
  if isFinite θ then .ok θ else .error (.nonFinite kind θ)

/-- The angle in `[-π, π]` of the same direction. Angles in `(-π, π]` stay as they are; a
reduced angle next to zero becomes zero, and how near that is does not grow with `θ`. -/
def principal [Trig α] (θ : α) : α :=
  if -pi < θ ∧ θ ≤ pi then θ
  else
    let reduced := Trig.atan2 (Trig.sin θ) (Trig.cos θ)
    if Scalar.abs reduced ≤ zeroBand then 0 else reduced

end IonCircuit
