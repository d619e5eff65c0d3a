/-! Basis states of a register as bit patterns. Qubit 0 is the most significant bit of a
state, and the first qubit of a list is the most significant bit of a state of the list.
Masks and states are natural numbers: a power of two stands for the shift of a machine word, which
is the same as long as the states of the register can be numbered by such words. -/
namespace IonCircuit.Register

-- Powers of naturals are the core library's, whatever is imported beside this.
attribute [local instance (high)] instPowNat

/-- The bit of a qubit in a register of this width. -/
def mask (width qubit : Nat) : Nat := 2 ^ (width - 1 - qubit)

def masks (width : Nat) (qubits : List Nat) : List Nat := qubits.map (mask width)

/-- The bits of all masks together. -/
def union (masks : List Nat) : Nat := masks.foldl (· ||| ·) 0

/-- The state that agrees with `base` outside the masks and has the bits of `sub` on
them. -/
def deposit : List Nat → Nat → Nat → Nat
  | [], base, _ => base
  | m :: rest, base, sub =>
    deposit rest (if sub.testBit rest.length then base ||| m else base) sub

/-- The states that agree with `base` outside the masks, in the order of the masked
bits. -/
def group (masks : List Nat) (base : Nat) : List Nat :=
  (List.range (2 ^ masks.length)).map (deposit masks base)

/-- The states of the register in which every masked bit is clear: one in each group. -/
def bases (width : Nat) (masks : List Nat) : List Nat :=
  (List.range (2 ^ width)).filter fun base => base &&& union masks = 0

theorem length_group (masks : List Nat) (base : Nat) :
    (group masks base).length = 2 ^ masks.length := by
  simp [group]

end IonCircuit.Register
