import IonCircuit.Circuit.Builder

/-! The quantum Fourier transform, up to the order of its qubits, from rotations alone. -/
namespace IonCircuit
open Builder Scalar
variable {α : Type} [Scalar α]

/-- The part of the transform that ends on `target`: a Hadamard gate, then a phase from
each lower qubit that halves with every step of distance. -/
def fourierStage (target : Nat) : Builder α Unit := do
  hadamard target
  (List.range target).forM fun control =>
    controlledPhase target control (pi / powTwo (target - control))

/-- The stages run from the last qubit to the first. -/
def Circuit.fourier (width : Nat) : Except (Error α) (Circuit α) :=
  Builder.build width ((List.range width).reverse.forM fourierStage)

end IonCircuit
