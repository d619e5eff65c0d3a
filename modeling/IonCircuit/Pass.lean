import IonCircuit.Settings
import IonCircuit.NativeSet
import IonCircuit.Phase
import IonCircuit.Rule

/-! The pass that makes a circuit native: each instruction is replaced in place, and the
result is checked as the settings ask. -/
namespace IonCircuit
variable {α : Type} [Scalar α]

structure Pass (α : Type) where
  settings : Settings α
  target : NativeSet

namespace Pass

/-- The name a pass manager lists the pass under. -/
def name : String := "legalization"

def standard : Pass α := ⟨.standard, .trappedIon⟩

variable [Trig α]

/-- Corrections about x or y become native; anything else stays. -/
def lower (i : Instruction α) : Except (Error α) (List (Instruction α)) :=
  if Rule.singleQubit.handles i.kind then Rule.singleQubit.apply i else .ok [i]

/-- What stands in the output for an instruction. -/
def replacement (p : Pass α) (i : Instruction α) : Except (Error α) (List (Instruction α)) :=
  match Rule.forKind? i.kind with
  | none => .ok [i]
  | some rule => do
    let native ← rule.apply i
    if p.settings.lowerCorrections then return (← native.mapM lower).flatten
    else return native

/-- Appends the replacement of a well-formed instruction. -/
def step (p : Pass α) (output : Circuit α) (i : Instruction α) :
    Except (Error α) (Circuit α) := do
  i.checkForm
  (← p.replacement i).foldlM Circuit.add output

/-- The output before any check of it. -/
def replaceAll (p : Pass α) (c : Circuit α) : Except (Error α) (Circuit α) :=
  c.instructions.foldlM p.step (.empty c.width)

def run (p : Pass α) (c : Circuit α) : Except (Error α) (Circuit α) := do
  let output ← p.replaceAll c
  if p.settings.checkNative then
    p.target.checkCircuit output
  if p.settings.compareUnitaries then
    unless ← c.equivalent output p.settings.tolerance do
      throw (.notEquivalent p.settings.tolerance)
  return output

/-- Runs the pass on each circuit; one failure fails all. -/
def runEach (p : Pass α) (circuits : List (Circuit α)) : Except (Error α) (List (Circuit α)) :=
  circuits.mapM p.run

end Pass

/-- The native form of a circuit under the standard settings. -/
def Circuit.toNative [Trig α] (c : Circuit α) : Except (Error α) (Circuit α) :=
  Pass.standard.run c

end IonCircuit
