import IonCircuit.Binary64
import IonCircuit.Settings
import IonCircuit.Json.Decode

/-! The JSON form of settings. Fields that are absent have their standard values. -/
namespace IonCircuit.Settings

def fieldNames : List String :=
  ["equivalence_tolerance", "check_equivalence", "lower_corrections", "validate_output"]

def toJson (c : Settings Float) : Json :=
  .ofFields <| fieldNames.zip
    [.ofFloat c.tolerance, .bool c.compareUnitaries, .bool c.lowerCorrections,
      .bool c.checkNative]

/-- A value that is read when it is given. -/
def orElse {β : Type} (read? : Json → Option β) (standard : β) : Option Json → Option β
  | none => some standard
  | some j => read? j

def ofJson? (j : Json) : Option (Settings Float) := do
  let base : Settings Float := standard
  match ← j.record? fieldNames with
  | [tolerance, check, lower, validate] =>
    return {
      tolerance := ← orElse Json.float? base.tolerance tolerance
      compareUnitaries := ← orElse Json.bool? base.compareUnitaries check
      lowerCorrections := ← orElse Json.bool? base.lowerCorrections lower
      checkNative := ← orElse Json.bool? base.checkNative validate }
  | _ => none

def render (c : Settings Float) : String := c.toJson.render

/-- The usable settings that a text describes. -/
def parse (text : String) : Except (Error Float) (Settings Float) :=
  match (Json.parse? text).bind ofJson? with
  | none => .error .unreadableSettings
  | some c => do
    c.check
    return c

end IonCircuit.Settings
