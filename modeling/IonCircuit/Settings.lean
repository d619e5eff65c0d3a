import IonCircuit.Error
import IonCircuit.Scalar

/-! Settings of the pass that makes circuits native. -/
namespace IonCircuit

structure Settings (α : Type) where
  /-- How far the unitaries may lie apart in the comparison. -/
  tolerance : α
  /-- Compare the unitary of the output with that of the input. -/
  compareUnitaries : Bool
  /-- Turn corrections about x into native rotations. -/
  lowerCorrections : Bool
  /-- Check the output against the native set. -/
  checkNative : Bool
  deriving BEq, DecidableEq

namespace Settings
variable {α : Type} [Scalar α]

def standard : Settings α where
  tolerance := 1e-8
  compareUnitaries := false
  lowerCorrections := true
  checkNative := true

/-- A usable tolerance is finite and positive. -/
def check (c : Settings α) : Except (Error α) Unit :=
  if !Scalar.isFinite c.tolerance || decide (c.tolerance ≤ 0) then
    .error (.badTolerance c.tolerance)
  else .ok ()

end Settings
end IonCircuit
