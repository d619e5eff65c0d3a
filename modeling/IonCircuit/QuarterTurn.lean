import IonCircuit.Instruction
import IonCircuit.Principal

/-! Interactions by any angle, brought to at most a quarter turn forward. -/
namespace IonCircuit
open Scalar
variable {α : Type} [Scalar α]

/-- An interaction angle as at most a quarter turn, forward or backward, after taking out
a half turn or not. -/
structure QuarterTurn (α : Type) where
  magnitude : α
  halfTurn : Bool
  backward : Bool
  deriving DecidableEq

namespace QuarterTurn

/-- A signed rest of at most a quarter turn; one rounding beyond that is cut off. -/
def ofSigned (halfTurn : Bool) (rest : α) : QuarterTurn α where
  magnitude := if Scalar.abs rest ≤ halfPi then Scalar.abs rest else halfPi
  halfTurn
  backward := decide (rest < 0)

/-- Up to a quarter turn either way an angle stays; any other is first brought into a
full turn, and the half of it around `π` is counted from `π`. Every boundary belongs to
the lower part. -/
def ofFinite (θ : α) : QuarterTurn α :=
  if Scalar.abs θ ≤ halfPi then ofSigned false θ
  else
    let t := Scalar.remainder θ tau
    if t ≤ halfPi then ofSigned false t
    else if t ≤ threeHalfPi then ofSigned true (t - pi)
    else ofSigned false (t - tau)

def ofAngle (θ : α) : Except (Error α) (QuarterTurn α) := do
  return ofFinite (← finiteAngle .rxx θ)

/-- Native interaction with the corrections that undo its folding. A half turn comes out
as half turns about x on both qubits, and half turns about z on the first qubit reverse
the sense. -/
def expand (turn : QuarterTurn α) (a b : Nat) :
    Except (Error α) (List (Instruction α)) := do
  let interaction ← Instruction.ofGate? (.rxx turn.magnitude) [a, b]
  let flip : Instruction α := ⟨.rz pi, [a]⟩
  let core := if turn.backward then [flip, interaction, flip] else [interaction]
  return if turn.halfTurn then ⟨.rx pi, [a]⟩ :: ⟨.rx pi, [b]⟩ :: core else core

end QuarterTurn

/-- An interaction by any finite angle as native gates and corrections. -/
def nativeInteraction (θ : α) (a b : Nat) : Except (Error α) (List (Instruction α)) := do
  (← QuarterTurn.ofAngle θ).expand a b

end IonCircuit
