import IonCircuit.Kind

/-! Rotation gates with their angles. -/
namespace IonCircuit

inductive Gate (α : Type) where
  /-- Rotation about the x axis. -/
  | rx (θ : α)
  | ry (θ : α)
  | rz (θ : α)
  /-- Rotation by `θ` about the equatorial axis at azimuth `φ`. -/
  | r (θ φ : α)
  /-- Interaction of two qubits by `θ` along the x axes of both. -/
  | rxx (θ : α)
  deriving BEq, DecidableEq

namespace Gate
variable {α : Type}

def kind : Gate α → Kind
  | .rx _ => .rx
  | .ry _ => .ry
  | .rz _ => .rz
  | .r _ _ => .r
  | .rxx _ => .rxx

/-- The rotation angle that every gate has. -/
def theta : Gate α → α
  | .rx θ | .ry θ | .rz θ | .r θ _ | .rxx θ => θ

/-- All angles, the rotation angle first. -/
def params : Gate α → List α
  | .rx θ | .ry θ | .rz θ | .rxx θ => [θ]
  | .r θ φ => [θ, φ]

def arity (g : Gate α) : Nat := g.kind.arity

/-- The inverse gate turns by the opposite angle about the same axis. -/
def adjoint [Neg α] : Gate α → Gate α
  | .rx θ => .rx (-θ)
  | .ry θ => .ry (-θ)
  | .rz θ => .rz (-θ)
  | .r θ φ => .r (-θ) φ
  | .rxx θ => .rxx (-θ)

theorem theta_mem_params (g : Gate α) : g.theta ∈ g.params := by
  cases g <;> simp [theta, params]

@[simp] theorem kind_adjoint [Neg α] (g : Gate α) : g.adjoint.kind = g.kind := by
  cases g <;> rfl

end Gate
end IonCircuit
