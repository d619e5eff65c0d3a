import IonCircuit.Circuit
import IonCircuit.Decimal.FloatText

/-! How gates, instructions and circuits are shown to a reader. -/
namespace IonCircuit
open Decimal (natText twoPlacesText)

/-- The gate with its angles to two places. -/
def Gate.text : Gate Float → String
  | .rx θ => "Rx(" ++ twoPlacesText θ ++ ")"
  | .ry θ => "Ry(" ++ twoPlacesText θ ++ ")"
  | .rz θ => "Rz(" ++ twoPlacesText θ ++ ")"
  | .r θ φ => "R(" ++ twoPlacesText θ ++ ", " ++ twoPlacesText φ ++ ")"
  | .rxx θ => "Rxx(" ++ twoPlacesText θ ++ ")"

/-- The gate and its qubits in brackets. -/
def Instruction.text (i : Instruction Float) : String :=
  i.gate.text ++ " [" ++ ", ".intercalate (i.qubits.map natText) ++ "]"

/-- A heading with the width, then an indented line for each instruction. -/
def Circuit.text (c : Circuit Float) : String :=
  "QuantumCircuit(" ++ natText c.width ++ " qubits)\n" ++
    String.join (c.instructions.map fun i => "  " ++ i.text ++ "\n")

end IonCircuit
