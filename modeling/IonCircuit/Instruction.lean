import IonCircuit.Error
import IonCircuit.Gate

/-! Gates bound to qubits. An instruction may list any qubits; `checkForm` and `checkIn`
say which of its faults comes first. -/
namespace IonCircuit

structure Instruction (α : Type) where
  gate : Gate α
  qubits : List Nat
  deriving BEq, DecidableEq

/-- The first member that already occurs among `seen` or the members before it. -/
def firstRepeat (seen : List Nat) : List Nat → Option Nat
  | [] => none
  | q :: qs => if q ∈ seen then some q else firstRepeat (q :: seen) qs

theorem firstRepeat_eq_none_iff {seen qs : List Nat} :
    firstRepeat seen qs = none ↔ qs.Nodup ∧ ∀ q ∈ qs, q ∉ seen := by
  induction qs generalizing seen with
  | nil => simp [firstRepeat]
  | cons q qs ih =>
    by_cases h : q ∈ seen
    · simp [firstRepeat, h]
    · simp only [firstRepeat, h, if_false, ih, List.mem_cons, List.nodup_cons, not_or]
      grind

namespace Instruction
variable {α : Type}

def kind (i : Instruction α) : Kind := i.gate.kind

/-- The arity comes before the distinctness of the qubits. -/
def checkForm (i : Instruction α) : Except (Error α) Unit :=
  if i.gate.arity ≠ i.qubits.length then
    .error (.wrongArity i.kind i.gate.arity i.qubits.length)
  else match firstRepeat [] i.qubits with
    | some q => .error (.repeatedQubit q)
    | none => .ok ()

/-- The form comes before the range of the qubits in a register of this width. -/
def checkIn (i : Instruction α) (width : Nat) : Except (Error α) Unit := do
  i.checkForm
  match i.qubits.find? (width ≤ ·) with
  | some q => .error (.qubitOutOfRange q width)
  | none => .ok ()

/-- The instruction with this gate and these qubits, if it is well formed. -/
def ofGate? (gate : Gate α) (qubits : List Nat) : Except (Error α) (Instruction α) := do
  checkForm ⟨gate, qubits⟩
  return ⟨gate, qubits⟩

def adjoint [Neg α] (i : Instruction α) : Instruction α := ⟨i.gate.adjoint, i.qubits⟩

/-- As many qubits as the gate acts on, none twice. -/
def WellFormed (i : Instruction α) : Prop := i.qubits.length = i.gate.arity ∧ i.qubits.Nodup

/-- Well formed, with every qubit in a register of this width. -/
def Fits (i : Instruction α) (width : Nat) : Prop := i.WellFormed ∧ ∀ q ∈ i.qubits, q < width

instance (i : Instruction α) : Decidable i.WellFormed := inferInstanceAs (Decidable (_ ∧ _))

instance (i : Instruction α) (width : Nat) : Decidable (i.Fits width) :=
  inferInstanceAs (Decidable (_ ∧ _))

theorem checkForm_eq_ok_iff {i : Instruction α} : i.checkForm = .ok () ↔ i.WellFormed := by
  unfold checkForm WellFormed
  split
  · rename_i h
    simp [Ne.symm h]
  · rename_i h
    have h : i.qubits.length = i.gate.arity := (Decidable.not_not.mp h).symm
    split
    · rename_i hrep
      simp only [reduceCtorEq, h, true_and, false_iff]
      intro hnodup
      have hnone := (@firstRepeat_eq_none_iff [] _).mpr ⟨hnodup, by simp⟩
      simp [hnone] at hrep
    · rename_i hrep
      simpa [h] using (firstRepeat_eq_none_iff.mp hrep).1

theorem checkIn_eq_ok_iff {i : Instruction α} {width : Nat} :
    i.checkIn width = .ok () ↔ i.Fits width := by
  unfold checkIn Fits
  rw [← checkForm_eq_ok_iff]
  cases hform : i.checkForm with
  | error e => simp [bind, Except.bind]
  | ok u =>
    cases hfind : i.qubits.find? (width ≤ ·) with
    | some q =>
      have hq := List.find?_some hfind
      have hmem := List.mem_of_find?_eq_some hfind
      simp only [bind, Except.bind, reduceCtorEq, true_and, false_iff]
      intro hall
      have := hall q hmem
      simp at hq
      omega
    | none =>
      have hall := List.find?_eq_none.mp hfind
      simp only [bind, Except.bind, true_and, true_iff]
      intro q hq
      have := hall q hq
      simp at this
      omega

end Instruction
end IonCircuit
