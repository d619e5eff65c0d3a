import IonCircuit.Instruction

/-! Circuits: instructions in the order in which they act, on a register of some width. -/
namespace IonCircuit

structure Circuit (α : Type) where
  instructions : List (Instruction α)
  width : Nat
  deriving BEq, DecidableEq

namespace Circuit
variable {α : Type}

def empty (width : Nat) : Circuit α := ⟨[], width⟩

def size (c : Circuit α) : Nat := c.instructions.length

def isEmpty (c : Circuit α) : Bool := c.instructions.isEmpty

/-- The circuit with one more instruction, if that fits the register. -/
def add (c : Circuit α) (i : Instruction α) : Except (Error α) (Circuit α) := do
  i.checkIn c.width
  return { c with instructions := c.instructions ++ [i] }

/-- The circuit with a gate on these qubits added. Its form is checked where the instruction is made
and again where it is added. -/
def addGate (c : Circuit α) (gate : Gate α) (qubits : List Nat) :
    Except (Error α) (Circuit α) := do
  c.add (← Instruction.ofGate? gate qubits)

/-- The number of instructions of one kind. -/
def count (c : Circuit α) (k : Kind) : Nat := c.instructions.countP (·.kind == k)

/-- The kinds that occur, in their order, with the number of each. -/
def counts (c : Circuit α) : List (Kind × Nat) :=
  Kind.all.filterMap fun k => if c.count k = 0 then none else some (k, c.count k)

/-- First the one circuit, then the other. -/
def compose (a b : Circuit α) : Except (Error α) (Circuit α) :=
  if a.width = b.width then
    .ok { a with instructions := a.instructions ++ b.instructions }
  else .error (.widthMismatch a.width b.width)

/-- The inverse circuit runs the inverse instructions from the last to the first. -/
def adjoint [Neg α] (c : Circuit α) : Circuit α :=
  { c with instructions := c.instructions.reverse.map (·.adjoint) }

/-- Every instruction fits the register. -/
def WellFormed (c : Circuit α) : Prop := ∀ i ∈ c.instructions, i.Fits c.width

instance (c : Circuit α) : Decidable c.WellFormed :=
  inferInstanceAs (Decidable (∀ i ∈ c.instructions, i.Fits c.width))

theorem wellFormed_empty (width : Nat) : (empty width : Circuit α).WellFormed := by
  simp [WellFormed, empty]

theorem add_eq_ok_iff {c d : Circuit α} {i : Instruction α} :
    c.add i = .ok d ↔ i.Fits c.width ∧ d = ⟨c.instructions ++ [i], c.width⟩ := by
  rw [← Instruction.checkIn_eq_ok_iff]
  unfold add
  cases i.checkIn c.width with
  | error e => simp [bind, Except.bind]
  | ok u => simp [bind, Except.bind, pure, Except.pure, eq_comm]

/-- The second check of the form finds nothing that the first one does not. -/
theorem addGate_eq_add (c : Circuit α) (gate : Gate α) (qubits : List Nat) :
    c.addGate gate qubits = c.add ⟨gate, qubits⟩ := by
  unfold addGate Instruction.ofGate? add Instruction.checkIn
  cases hform : Instruction.checkForm ⟨gate, qubits⟩ with
  | error e => rfl
  | ok u => simp [hform, bind, Except.bind, pure, Except.pure]

theorem width_of_add {c d : Circuit α} {i : Instruction α} (h : c.add i = .ok d) :
    d.width = c.width := by
  obtain ⟨_, rfl⟩ := add_eq_ok_iff.mp h
  rfl

theorem WellFormed.add {c d : Circuit α} {i : Instruction α} (hc : c.WellFormed)
    (h : c.add i = .ok d) : d.WellFormed := by
  obtain ⟨hi, rfl⟩ := add_eq_ok_iff.mp h
  intro j hj
  rcases List.mem_append.mp hj with hj | hj
  · exact hc j hj
  · rw [List.mem_singleton.mp hj]
    exact hi

end Circuit
end IonCircuit
