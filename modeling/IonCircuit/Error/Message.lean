import IonCircuit.Decimal.FloatText
import IonCircuit.Error

/-! The wording of errors. -/
namespace IonCircuit.Error
open Decimal (fullText natText)

def message : Error Float → String
  | .nonFinite kind value =>
    "Invalid argument: " ++ kind.name ++ " parameter must be finite, got " ++ fullText value
  | .noRule kind => "Unsupported operation: no rewrite rule for " ++ kind.name
  | .qubitOutOfRange qubit width =>
    "Qubit index " ++ natText qubit ++ " out of range for a " ++ natText width ++
      "-qubit circuit"
  | .wrongArity kind expected found =>
    "Gate " ++ kind.name ++ " acts on " ++ natText expected ++ " qubits, but " ++
      natText found ++ " qubits were specified"
  | .repeatedQubit qubit => "Qubit " ++ natText qubit ++ " specified more than once"
  | .widthMismatch left right =>
    "Qubit count mismatch: " ++ natText left ++ " and " ++ natText right
  | .notNative position kind =>
    "Instruction " ++ natText position ++ " (" ++ kind.name ++
      ") is not in the native gate set"
  | .outsideNativeRange position kind value =>
    "Instruction " ++ natText position ++ " (" ++ kind.name ++ ") has parameter " ++
      fullText value ++ " outside its native range"
  | .badAngleBound value =>
    "Invalid angle bound " ++ fullText value ++ ": must be finite and non-negative"
  | .notEquivalent tolerance =>
    "Legalized circuit is not equivalent to its input within tolerance " ++ fullText tolerance
  | .unreadableSettings => "Configuration error: the text does not describe a configuration"
  | .badTolerance value =>
    "Configuration error: equivalence_tolerance must be positive and finite, got " ++
      fullText value

end IonCircuit.Error
