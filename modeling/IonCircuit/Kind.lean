/-! The kinds of rotation gates, in the order in which sets and counts list them. -/
namespace IonCircuit

inductive Kind where
  | rx | ry | rz | r | rxx
  deriving DecidableEq, Repr

namespace Kind

/-- Every kind once, in order. -/
def all : List Kind := [.rx, .ry, .rz, .r, .rxx]

/-- The number of qubits that a gate of this kind acts on. -/
def arity : Kind → Nat
  | .rxx => 2
  | _ => 1

/-- The name a backend lists the gate under. -/
def name : Kind → String
  | .rx => "rx"
  | .ry => "ry"
  | .rz => "rz"
  | .r => "r"
  | .rxx => "rxx"

theorem mem_all (k : Kind) : k ∈ all := by cases k <;> decide

end Kind
end IonCircuit
