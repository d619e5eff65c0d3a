import IonCircuit.Circuit
import IonCircuit.Gate.Matrix
import IonCircuit.Register

/-! The unitary of a circuit, by evolving each column of the identity. Evolution needs
only sums and products, so it is defined for matrices over any entries. Sizes are powers of two as
natural numbers, and a matrix of any size can be had: that a machine word may be too short for the
shift by the width of the register, or the memory for the matrix, is left out. -/
namespace IonCircuit
attribute [local instance (high)] instPowNat

/-- A matrix together with the qubits it acts on. -/
structure Action (R : Type) where
  matrix : Operator R
  qubits : List Nat

namespace Action
variable {R : Type} [Zero R] [Add R] [Mul R]

/-- Row `row` of the matrix times the amplitudes of a group. -/
def rowTimes (matrix : Operator R) (row : Nat) (amplitudes : List R) : R :=
  (amplitudes.zipIdx).foldl (fun sum (x, col) => sum + matrix.entry row col * x) 0

/-- Replaces the amplitudes of one group by the matrix applied to them. All are read
before the first is written. -/
def updateGroup (matrix : Operator R) (masks : List Nat) (state : Array R) (base : Nat) :
    Array R :=
  let group := Register.group masks base
  let old := group.map fun k => state.getD k 0
  (group.zipIdx).foldl (fun s (k, row) => s.setIfInBounds k (rowTimes matrix row old)) state

/-- Acts on a state of the register in place, group after group. -/
def apply (width : Nat) (action : Action R) (state : Array R) : Array R :=
  let masks := Register.masks width action.qubits
  (Register.bases width masks).foldl (updateGroup action.matrix masks) state

/-- The basis state with amplitude one at `k`. -/
def basisState [One R] (width k : Nat) : Array R :=
  Array.ofFn fun j : Fin (2 ^ width) => if j = k then 1 else 0

/-- The matrix of a sequence of actions on a register, the first action first. -/
def evolve [One R] (width : Nat) (actions : List (Action R)) : Operator R :=
  .ofColumns (2 ^ width) <| (Array.range (2 ^ width)).map fun k =>
    actions.foldl (fun state action => action.apply width state) (basisState width k)

end Action

variable {α : Type} [Scalar α] [Trig α]

def Instruction.action (i : Instruction α) : Action (Amplitude α) := ⟨i.gate.matrix, i.qubits⟩

namespace Circuit

/-- Fails at the first instruction that does not fit the register. -/
def checkAll (c : Circuit α) : Except (Error α) Unit :=
  c.instructions.forM (·.checkIn c.width)

/-- The unitary of a circuit whose instructions all fit. Later instructions stand on the
left of the product. -/
def unitary (c : Circuit α) : Except (Error α) (Operator (Amplitude α)) := do
  c.checkAll
  return Action.evolve c.width (c.instructions.map (·.action))

end Circuit

/-- The unitary of one instruction on a register of this width. -/
def Instruction.unitary (i : Instruction α) (width : Nat) :
    Except (Error α) (Operator (Amplitude α)) := do
  (← (Circuit.empty width).add i).unitary

end IonCircuit
