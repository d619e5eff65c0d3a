import IonCircuit.Circuit.Builder
import IonCircuit.Pass

/-! Sequences of operations on circuits. Every circuit made is kept, so a later operation can
refer to it by its place; a circuit that is extended stays as it was beside the longer one. -/
namespace IonCircuit
variable {α : Type} [Scalar α]

/-- A call that appends instructions. -/
inductive Extension (α : Type) where
  | append (i : Instruction α)
  | gate (g : Gate α) (qubits : List Nat)
  | rx (q : Nat) (θ : α)
  | ry (q : Nat) (θ : α)
  | rz (q : Nat) (θ : α)
  | r (q : Nat) (θ φ : α)
  | rxx (a b : Nat) (θ : α)
  | hadamard (q : Nat)
  | rzz (a b : Nat) (θ : α)
  | controlledPhase (control target : Nat) (θ : α)

def Extension.builder : Extension α → Builder α Unit
  | append i => Builder.append i
  | gate g qubits => Builder.gate g qubits
  | rx q θ => Builder.rx q θ
  | ry q θ => Builder.ry q θ
  | rz q θ => Builder.rz q θ
  | r q θ φ => Builder.r q θ φ
  | rxx a b θ => Builder.rxx a b θ
  | hadamard q => Builder.hadamard q
  | rzz a b θ => Builder.rzz a b θ
  | controlledPhase control target θ => Builder.controlledPhase control target θ

/-- An operation on the circuits made so far, which it names by their places. -/
inductive Operation (α : Type) where
  | create (width : Nat)
  | extend (source : Nat) (call : Extension α)
  | compose (first second : Nat)
  | adjoint (source : Nat)
  | legalize (source : Nat) (p : Pass α)

namespace Operation
variable [Trig α]

/-- The circuit that an operation makes. An extension that fails on the way makes the circuit
that it leaves; any other operation that fails, or names no circuit, makes none. -/
def make? (made : List (Circuit α)) : Operation α → Option (Circuit α)
  | create width => some (.empty width)
  | extend source call => made[source]?.map fun c => (call.builder.runOn c).2
  | compose first second => do ((← made[first]?).compose (← made[second]?)).toOption
  | adjoint source => made[source]?.map (·.adjoint)
  | legalize source p => do (p.run (← made[source]?)).toOption

/-- All circuits that a sequence of operations makes, starting from none. -/
def makeAll (operations : List (Operation α)) : List (Circuit α) :=
  operations.foldl (fun made operation => made ++ (operation.make? made).toList) []

end Operation
end IonCircuit
