import IonCircuit.Circuit
import IonCircuit.Json.Decode

/-! The JSON form of gates, instructions and circuits. Reading checks the form only: the
instructions of a circuit may be malformed. -/
namespace IonCircuit
open Json (ofFields ofFloat ofNat)

namespace Gate

/-- An object whose one field names the gate and holds its angle, or both angles of an
equatorial rotation. -/
def toJson : Gate Float → Json
  | .rx θ => ofFields [("Rx", ofFloat θ)]
  | .ry θ => ofFields [("Ry", ofFloat θ)]
  | .rz θ => ofFields [("Rz", ofFloat θ)]
  | .r θ φ => ofFields [("R", .arr [ofFloat θ, ofFloat φ])]
  | .rxx θ => ofFields [("Rxx", ofFloat θ)]

def ofJson? (j : Json) : Option (Gate Float) := do
  match ← j.variant? with
  | ("Rx", θ) => return .rx (← θ.float?)
  | ("Ry", θ) => return .ry (← θ.float?)
  | ("Rz", θ) => return .rz (← θ.float?)
  | ("R", .arr [θ, φ]) => return .r (← θ.float?) (← φ.float?)
  | ("Rxx", θ) => return .rxx (← θ.float?)
  | _ => none

end Gate

namespace Instruction

def toJson (i : Instruction Float) : Json :=
  ofFields [("gate", i.gate.toJson), ("qubits", .arr (i.qubits.map ofNat))]

def ofJson? (j : Json) : Option (Instruction Float) := do
  match ← j.record? ["gate", "qubits"] with
  | [some gate, some qubits] => return ⟨← Gate.ofJson? gate, ← qubits.list? Json.count?⟩
  | _ => none

end Instruction

namespace Circuit

def toJson (c : Circuit Float) : Json :=
  ofFields [("instructions", .arr (c.instructions.map (·.toJson))),
    ("qubit_count", ofNat c.width)]

def ofJson? (j : Json) : Option (Circuit Float) := do
  match ← j.record? ["instructions", "qubit_count"] with
  | [some instructions, some width] =>
    return ⟨← instructions.list? Instruction.ofJson?, ← width.count?⟩
  | _ => none

/-- The circuit that a text describes. -/
def parse? (text : String) : Option (Circuit Float) := (Json.parse? text).bind ofJson?

def render (c : Circuit Float) : String := c.toJson.render

end Circuit

/-- The gate that a text describes. -/
def Gate.parse? (text : String) : Option (Gate Float) := (Json.parse? text).bind Gate.ofJson?

def Gate.render (g : Gate Float) : String := g.toJson.render

def Instruction.render (i : Instruction Float) : String := i.toJson.render

end IonCircuit
