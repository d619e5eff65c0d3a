import IonCircuit.Equatorial
import IonCircuit.QuarterTurn

/-! Rules that put native gates in the place of arbitrary rotations. A rule looks at one
instruction only, and the order of what it returns matters. -/
namespace IonCircuit
variable {α : Type} [Scalar α]

inductive Rule where
  | singleQubit
  | twoQubit
  deriving DecidableEq, Repr

namespace Rule

def name : Rule → String
  | .singleQubit => "single-qubit-normalizer"
  | .twoQubit => "two-qubit-normalizer"

def handles : Rule → Kind → Bool
  | .singleQubit, k => k == .rx || k == .ry
  | .twoQubit, k => k == .rxx

/-- The rule for a kind, if it has one. -/
def forKind? : Kind → Option Rule
  | .rx | .ry => some .singleQubit
  | .rxx => some .twoQubit
  | .rz | .r => none

variable [Trig α]

/-- What a rule puts in the place of an instruction. -/
def apply (rule : Rule) (i : Instruction α) : Except (Error α) (List (Instruction α)) :=
  match rule, i.gate, i.qubits with
  | .singleQubit, .rx θ, qubits => do return [⟨← Gate.ofX θ, qubits⟩]
  | .singleQubit, .ry θ, qubits => do return [⟨← Gate.ofY θ, qubits⟩]
  | .twoQubit, .rxx θ, [a, b] => nativeInteraction θ a b
  | .twoQubit, .rxx _, qubits => .error (.wrongArity .rxx 2 qubits.length)
  | _, _, _ => .error (.noRule i.kind)

end Rule

/-- Native gates in the place of one instruction, by the rule for its kind. -/
def Instruction.toNative [Trig α] (i : Instruction α) :
    Except (Error α) (List (Instruction α)) :=
  match Rule.forKind? i.kind with
  | some rule => rule.apply i
  | none => .error (.noRule i.kind)

theorem Rule.handles_iff {rule : Rule} {k : Kind} :
    rule.handles k = true ↔ Rule.forKind? k = some rule := by
  cases rule <;> cases k <;> decide

end IonCircuit
