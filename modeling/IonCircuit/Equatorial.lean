import IonCircuit.Gate
import IonCircuit.Principal

/-! Rotations about x and y as equatorial rotations, at most half around and never
backward. -/
namespace IonCircuit.Gate
open Scalar (pi halfPi threeHalfPi)
variable {α : Type} [Scalar α] [Trig α]

/-- The equatorial rotation by the principal angle about the axis at `φ`; a negative
angle turns the other way about the opposite axis. -/
def equatorial (kind : Kind) (θ φ opposite : α) : Except (Error α) (Gate α) := do
  let turn := principal (← finiteAngle kind θ)
  return if turn < 0 then .r (-turn) opposite else .r (Scalar.abs turn) φ

/-- A rotation about x as an equatorial one. -/
def ofX (θ : α) : Except (Error α) (Gate α) := equatorial .rx θ 0 pi

/-- A rotation about y as an equatorial one. -/
def ofY (θ : α) : Except (Error α) (Gate α) := equatorial .ry θ halfPi threeHalfPi

end IonCircuit.Gate
