import IonCircuit.Circuit
import IonCircuit.Scalar

/-! The gates a backend runs directly. -/
namespace IonCircuit

/-- A set of gate kinds. -/
@[ext] structure NativeSet where
  contains : Kind → Bool

namespace NativeSet

def ofList (kinds : List Kind) : NativeSet := ⟨fun k => kinds.contains k⟩

/-- The members in the order of kinds, each once. -/
def toList (s : NativeSet) : List Kind := Kind.all.filter s.contains

/-- The gates of a trapped-ion backend. -/
def trappedIon : NativeSet := ofList [.rz, .r, .rxx]

theorem mem_toList {s : NativeSet} {k : Kind} : k ∈ s.toList ↔ s.contains k = true := by
  simp [toList, Kind.mem_all]

@[simp] theorem ofList_toList (s : NativeSet) : ofList s.toList = s := by
  ext k
  simp [ofList, toList, Kind.mem_all]

variable {α : Type} [Scalar α]

/-- The angles that a native gate accepts: an equatorial rotation turns at most half
around and an interaction at most a quarter, neither backward. -/
def InRange : Gate α → Prop
  | .r θ _ => 0 ≤ θ ∧ θ ≤ Scalar.pi
  | .rxx θ => 0 ≤ θ ∧ θ ≤ Scalar.halfPi
  | _ => True

instance : DecidablePred (InRange (α := α)) := fun g => by
  cases g <;> unfold InRange <;> infer_instance

/-- Checks the instruction at a position of a circuit: first its form, then its kind,
then that its angles are finite, then their range. -/
def check (s : NativeSet) (position : Nat) (i : Instruction α) : Except (Error α) Unit := do
  i.checkForm
  if s.contains i.kind then
    match i.gate.params.find? fun x => !Scalar.isFinite x with
    | some value => .error (.outsideNativeRange position i.kind value)
    | none =>
      if InRange i.gate then .ok ()
      else .error (.outsideNativeRange position i.kind i.gate.theta)
  else .error (.notNative position i.kind)

/-- Whether a backend runs the instruction as it is. -/
def accepts (s : NativeSet) (i : Instruction α) : Bool := (s.check 0 i).isOk

/-- Checks instructions at consecutive positions and fails at the first offender. -/
def checkFrom (s : NativeSet) (position : Nat) : List (Instruction α) → Except (Error α) Unit
  | [] => .ok ()
  | i :: rest => do
    s.check position i
    s.checkFrom (position + 1) rest

def checkCircuit (s : NativeSet) (c : Circuit α) : Except (Error α) Unit :=
  s.checkFrom 0 c.instructions

end NativeSet
end IonCircuit
