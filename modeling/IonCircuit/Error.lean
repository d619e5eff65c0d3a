import IonCircuit.Kind

/-! Why an operation on circuits can fail. -/
namespace IonCircuit

inductive Error (α : Type) where
  /-- An angle to be reduced is infinite or not a number. -/
  | nonFinite (kind : Kind) (value : α)
  /-- No rule replaces gates of this kind: they are kept as they are. -/
  | noRule (kind : Kind)
  | qubitOutOfRange (qubit width : Nat)
  | wrongArity (kind : Kind) (expected found : Nat)
  | repeatedQubit (qubit : Nat)
  | widthMismatch (left right : Nat)
  | notNative (position : Nat) (kind : Kind)
  | outsideNativeRange (position : Nat) (kind : Kind) (value : α)
  | badAngleBound (value : α)
  /-- The output of a pass was compared with its input and differs. -/
  | notEquivalent (tolerance : α)
  /-- The text of a configuration does not describe one. -/
  | unreadableSettings
  | badTolerance (value : α)
  deriving DecidableEq

end IonCircuit
