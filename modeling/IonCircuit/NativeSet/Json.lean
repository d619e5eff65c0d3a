import IonCircuit.Json.Decode
import IonCircuit.NativeSet

/-! The JSON form of native sets. -/
namespace IonCircuit

namespace Kind

/-- The name of a kind in JSON text. -/
def tag : Kind → String
  | .rx => "RX"
  | .ry => "RY"
  | .rz => "RZ"
  | .r => "R"
  | .rxx => "RXX"

def ofTag? (tag : String) : Option Kind := Kind.all.find? (·.tag == tag)

/-- A kind is its name, or an object that gives null under its name. -/
def ofJson? (j : Json) : Option Kind :=
  match j with
  | .str (some tag) => ofTag? tag
  | _ => match j.variant? with
    | some (tag, .null) => ofTag? tag
    | _ => none

theorem ofTag?_tag (k : Kind) : ofTag? k.tag = some k := by cases k <;> decide +kernel

end Kind

namespace NativeSet

/-- The members in the order of kinds. -/
def toJson (s : NativeSet) : Json :=
  .ofFields [("kinds", .arr (s.toList.map fun k => .str (some k.tag)))]

def ofJson? (j : Json) : Option NativeSet := do
  match ← j.record? ["kinds"] with
  | [some kinds] => return .ofList (← kinds.list? Kind.ofJson?)
  | _ => none

/-- The set that a text describes. -/
def parse? (text : String) : Option NativeSet := (Json.parse? text).bind ofJson?

def render (s : NativeSet) : String := s.toJson.render

end NativeSet
end IonCircuit
