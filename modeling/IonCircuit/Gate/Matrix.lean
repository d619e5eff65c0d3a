import IonCircuit.Amplitude
import IonCircuit.Gate
import IonCircuit.Operator

/-! The unitary of each gate. A gate on two qubits indexes its rows with the bit of its
first qubit in front. -/
namespace IonCircuit.Gate
open Scalar (half)
attribute [local instance (high)] instPowNat
variable {α : Type} [Scalar α] [Trig α]

/-- Both off-diagonal factors of an equatorial rotation are `-i` turned by the azimuth
and shrunk by the sine of half the angle. -/
def offDiagonal (φ sine : α) : Amplitude α := (-Amplitude.i * Amplitude.cis φ).scale sine

def matrix : Gate α → Operator (Amplitude α)
  | .rx θ =>
    let c := Trig.cos (half θ)
    let s := Trig.sin (half θ)
    .ofPairs ⟨c, 0⟩ ⟨0, -s⟩ ⟨0, -s⟩ ⟨c, 0⟩
  | .ry θ =>
    let c := Trig.cos (half θ)
    let s := Trig.sin (half θ)
    .ofPairs ⟨c, 0⟩ ⟨-s, 0⟩ ⟨s, 0⟩ ⟨c, 0⟩
  | .rz θ => .ofPairs (.cis (half (-θ))) 0 0 (.cis (half θ))
  | .r θ φ =>
    let c := Trig.cos (half θ)
    let s := Trig.sin (half θ)
    .ofPairs ⟨c, 0⟩ (offDiagonal (-φ) s) (offDiagonal φ s) ⟨c, 0⟩
  | .rxx θ =>
    let c : Amplitude α := ⟨Trig.cos (half θ), 0⟩
    let s : Amplitude α := ⟨0, -Trig.sin (half θ)⟩
    ⟨4, 4, #[c, 0, 0, s,
             0, c, s, 0,
             0, s, c, 0,
             s, 0, 0, c], rfl⟩

theorem rows_matrix (g : Gate α) : g.matrix.rows = 2 ^ g.arity := by cases g <;> rfl

theorem cols_matrix (g : Gate α) : g.matrix.cols = 2 ^ g.arity := by cases g <;> rfl

/-- Whether two gates have the same unitary, each coordinate within `1e-10`. -/
def agrees (g h : Gate α) : Bool :=
  decide (g.matrix.SameShape h.matrix) &&
    (g.matrix.data.toList.zip h.matrix.data.toList).all fun (z, w) =>
      decide (Scalar.abs (z.re - w.re) ≤ 1e-10) && decide (Scalar.abs (z.im - w.im) ≤ 1e-10)

end IonCircuit.Gate
