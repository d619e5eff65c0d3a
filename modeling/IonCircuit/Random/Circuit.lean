import IonCircuit.Circuit
import IonCircuit.Scalar

/-! Random circuits over any source of random choices. -/
namespace IonCircuit.Random

/-- Why no random circuit came out. -/
inductive Failure (α : Type) where
  | invalid (e : Error α)
  /-- The source cannot draw from the angles up to this bound. -/
  | rangeTooWide (bound : α)
  /-- The source has no further choice to offer. -/
  | exhausted
  deriving DecidableEq

/-- A computation that draws from a source with states `σ`. -/
abbrev Draw (σ α : Type) := StateT σ (Except (Failure α))

/-- A source of random choices. -/
structure Source (σ α : Type) where
  /-- An angle between a bound and its negative. -/
  angle : α → Draw σ α α
  /-- One of the first so many qubits. -/
  below : (n : Nat) → Draw σ α (Fin n)
  axis : Draw σ α (Fin 3)

variable {σ α : Type}

/-- The rotation about the chosen axis. -/
def rotation (axis : Fin 3) (θ : α) : Gate α :=
  match axis with
  | 0 => .rx θ
  | 1 => .ry θ
  | 2 => .rz θ

/-- The qubit that the choice `b` names among those other than `a`. -/
def otherThan (a b : Nat) : Nat := if a ≤ b then b + 1 else b

theorem otherThan_ne (a b : Nat) : otherThan a b ≠ a := by
  unfold otherThan
  split <;> omega

theorem otherThan_lt {n a b : Nat} (hb : b < n - 1) : otherThan a b < n := by
  unfold otherThan
  split <;> omega

def add (c : Circuit α) (i : Instruction α) : Draw σ α (Circuit α) :=
  match c.add i with
  | .ok d => return d
  | .error e => throw (.invalid e)

/-- Adds a rotation about a random axis to one qubit. The angle is drawn first. -/
def addRotation (source : Source σ α) (bound : α) (c : Circuit α) (q : Nat) :
    Draw σ α (Circuit α) := do
  let θ ← source.angle bound
  let axis ← source.axis
  add c ⟨rotation axis θ, [q]⟩

/-- Adds an interaction of a random ordered pair of qubits. -/
def addInteraction (source : Source σ α) (bound : α) (c : Circuit α) :
    Draw σ α (Circuit α) := do
  let a ← source.below c.width
  let b ← source.below (c.width - 1)
  let θ ← source.angle bound
  add c ⟨.rxx θ, [a, otherThan a b]⟩

/-- Adds a rotation of every qubit and, if there are two, one interaction. -/
def addLayer (source : Source σ α) (bound : α) (c : Circuit α) : Draw σ α (Circuit α) := do
  let c ← (List.range c.width).foldlM (addRotation source bound) c
  if 1 < c.width then addInteraction source bound c else return c

/-- A circuit of so many random layers. The bound of the angles is checked before
anything is drawn. -/
def circuit [Scalar α] (source : Source σ α) (width depth : Nat) (bound : α) :
    Draw σ α (Circuit α) := do
  if !Scalar.isFinite bound || decide (bound < 0) then throw (.invalid (.badAngleBound bound))
  if width = 0 then return .empty width
  (List.range depth).foldlM (fun c _ => addLayer source bound c) (.empty width)

end IonCircuit.Random
