import IonCircuit.Circuit
import IonCircuit.Scalar

/-! Building circuits step by step. A step that fails leaves what it appended before it
failed. -/
namespace IonCircuit

/-- A construction step acts on the circuit built so far and may fail. -/
abbrev Builder (α : Type) := ExceptT (Error α) (StateM (Circuit α))

namespace Builder
variable {α : Type}

/-- Runs a step on a circuit: its outcome, and the circuit afterwards either way. -/
def runOn (step : Builder α Unit) (c : Circuit α) : Except (Error α) Unit × Circuit α :=
  step.run.run c

/-- The circuit that a step builds on an empty register. -/
def build (width : Nat) (step : Builder α Unit) : Except (Error α) (Circuit α) :=
  let (outcome, c) := step.runOn (.empty width)
  outcome.map fun _ => c

/-- Goes on with the circuit that comes of the one built so far, which stays where none does. -/
def update (f : Circuit α → Except (Error α) (Circuit α)) : Builder α Unit := do
  match f (← get) with
  | .ok c => set c
  | .error e => throw e

theorem runOn_update (f : Circuit α → Except (Error α) (Circuit α)) (c : Circuit α) :
    (update f).runOn c = match f c with
      | .ok d => (.ok (), d)
      | .error e => (.error e, c) := by
  change runOn (match f c with | .ok c => set c | .error e => throw e) c = _
  cases f c <;> rfl

def append (i : Instruction α) : Builder α Unit := update (·.add i)

theorem runOn_append (i : Instruction α) (c : Circuit α) :
    (append i).runOn c = match c.add i with
      | .ok d => (.ok (), d)
      | .error e => (.error e, c) :=
  runOn_update _ c

/-- A second step runs on what the first one built, unless that failed. -/
theorem runOn_bind (first : Builder α Unit) (next : Unit → Builder α Unit) (c : Circuit α) :
    (first >>= next).runOn c = match first.runOn c with
      | (.ok u, d) => (next u).runOn d
      | (.error e, d) => (.error e, d) := by
  simp only [runOn, ExceptT.run, StateT.run, bind, ExceptT.bind, ExceptT.mk, StateT.bind]
  rcases first c with ⟨outcome, d⟩
  cases outcome <;> rfl

def gate (g : Gate α) (qubits : List Nat) : Builder α Unit := update (·.addGate g qubits)

theorem gate_eq_append (g : Gate α) (qubits : List Nat) : gate g qubits = append ⟨g, qubits⟩ := by
  simp only [gate, append, Circuit.addGate_eq_add]

def rx (q : Nat) (θ : α) : Builder α Unit := gate (.rx θ) [q]
def ry (q : Nat) (θ : α) : Builder α Unit := gate (.ry θ) [q]
def rz (q : Nat) (θ : α) : Builder α Unit := gate (.rz θ) [q]
def r (q : Nat) (θ φ : α) : Builder α Unit := gate (.r θ φ) [q]
def rxx (a b : Nat) (θ : α) : Builder α Unit := gate (.rxx θ) [a, b]

variable [Scalar α]
open Scalar (half halfPi pi)

/-- The Hadamard gate up to phase: a quarter turn about y, then a half turn about x. -/
def hadamard (q : Nat) : Builder α Unit := do
  ry q halfPi
  rx q pi

/-- An interaction along z: both x axes are turned onto z and back. -/
def rzz (a b : Nat) (θ : α) : Builder α Unit := do
  ry a halfPi
  ry b halfPi
  rxx a b θ
  ry a (-halfPi)
  ry b (-halfPi)

/-- The controlled phase by `θ` up to a global phase. -/
def controlledPhase (control target : Nat) (θ : α) : Builder α Unit := do
  rz control (half θ)
  rz target (half θ)
  rzz control target (half (-θ))

end Builder
end IonCircuit
