import IonCircuit.Proofs.Acceptance

/-! What a run keeps and what it adds. The output has one block for each instruction, on the same
qubits, and the gates of each kind in it are those of the input and the corrections. -/
namespace IonCircuit
open Scalar (pi halfPi threeHalfPi isFinite)
variable {α : Type} [Scalar α]

/-- How the angle of an interaction is folded. -/
def Instruction.turn? (i : Instruction α) : Option (QuarterTurn α) :=
  match i.gate with
  | .rxx θ => (QuarterTurn.ofAngle θ).toOption
  | _ => none

namespace Circuit

/-- The number of interactions that a half turn is taken out of. -/
def halfTurns (c : Circuit α) : Nat :=
  c.instructions.countP fun i => i.turn?.any (·.halfTurn)

/-- The number of interactions that are folded backward. -/
def reversals (c : Circuit α) : Nat :=
  c.instructions.countP fun i => i.turn?.any (·.backward)

end Circuit

/-- A block acts on the qubits of its instruction, and does so by the gate that the kind of the
instruction asks for. -/
structure Replaces (i : Instruction α) (part : List (Instruction α)) : Prop where
  qubits : ∀ q, (∃ o ∈ part, q ∈ o.qubits) ↔ q ∈ i.qubits
  copied : i.kind = .rz ∨ i.kind = .r → part = [i]
  turned : i.kind = .rx ∨ i.kind = .ry → ∃ θ φ, part = [⟨.r θ φ, i.qubits⟩]
  interaction : i.kind = .rxx → ∃ θ, part.filter (·.kind == .rxx) = [⟨.rxx θ, i.qubits⟩]

/-- The gates of one circuit are those of another, with two half turns about x for each half turn
that is taken out and two half turns about z for each reversal. -/
structure Conserves (lower : Bool) (c r : Circuit α) : Prop where
  interactions : r.count .rxx = c.count .rxx
  aboutX : r.count .rx = if lower then 0 else 2 * c.halfTurns
  aboutY : r.count .ry = 0
  aboutZ : r.count .rz = c.count .rz + 2 * c.reversals
  equatorial : r.count .r =
    c.count .r + c.count .rx + c.count .ry + if lower then 2 * c.halfTurns else 0
  size : r.size ≤ 5 * c.size

section Parts
variable {lower : Bool} {c c' r r' : Circuit α} {i : Instruction α}

theorem conserves_empty (lower : Bool) (width : Nat) :
    Conserves lower (.empty width : Circuit α) (.empty width) := by
  constructor <;> simp [Circuit.empty, Circuit.count, Circuit.halfTurns, Circuit.reversals,
    Circuit.size]

/-- Circuits in a row conserve what each of them conserves. -/
theorem Conserves.append (h : Conserves lower c r) (h' : Conserves lower c' r') :
    Conserves lower ⟨c.instructions ++ c'.instructions, c.width⟩
      ⟨r.instructions ++ r'.instructions, r.width⟩ := by
  obtain ⟨hxx, hx, hy, hz, hr, hsize⟩ := h
  obtain ⟨hxx', hx', hy', hz', hr', hsize'⟩ := h'
  constructor <;> cases lower <;>
    simp only [Circuit.count, Circuit.halfTurns, Circuit.reversals, Circuit.size,
      List.countP_append, List.length_append, Bool.false_eq_true, if_false, if_true] at * <;> omega

variable [Trig α]

theorem exists_turned (θ φ opposite : α) : ∃ θ' φ', Gate.turned θ φ opposite = .r θ' φ' := by
  unfold Gate.turned
  split <;> exact ⟨_, _, rfl⟩

theorem replaces_block (lower : Bool) (h : i.WellFormed) : Replaces i (i.block lower) := by
  obtain ⟨g, qubits⟩ := i
  cases g with
  | rz θ | r θ φ => constructor <;> simp [Instruction.block, Instruction.kind, Gate.kind]
  | rx θ =>
    obtain ⟨θ', φ, hturned⟩ := exists_turned θ 0 pi
    constructor <;> simp [Instruction.block, hturned, Instruction.kind, Gate.kind]
  | ry θ =>
    obtain ⟨θ', φ, hturned⟩ := exists_turned θ halfPi threeHalfPi
    constructor <;> simp [Instruction.block, hturned, Instruction.kind, Gate.kind]
  | rxx θ =>
    obtain ⟨a, b, rfl⟩ := List.length_eq_two.mp h.1
    simp only [Instruction.block, QuarterTurn.block, correction]
    constructor <;> cases lower <;> cases (QuarterTurn.ofFinite θ).backward <;>
      cases (QuarterTurn.ofFinite θ).halfTurn <;> simp [Instruction.kind, Gate.kind] <;> grind

theorem conserves_block {width : Nat} (lower : Bool) (h : i.Accepted width) :
    Conserves lower ⟨[i], width⟩ ⟨i.block lower, width⟩ := by
  obtain ⟨⟨⟨hlen, -⟩, -⟩, hfin⟩ := h
  obtain ⟨g, qubits⟩ := i
  cases g with
  | rz θ | r θ φ =>
    constructor <;> simp [Instruction.block, Circuit.count, Circuit.halfTurns, Circuit.reversals,
      Circuit.size, Instruction.kind, Gate.kind, Instruction.turn?]
  | rx θ =>
    obtain ⟨θ', φ, hturned⟩ := exists_turned θ 0 pi
    constructor <;> simp [Instruction.block, hturned, Circuit.count, Circuit.halfTurns,
      Circuit.reversals, Circuit.size, Instruction.kind, Gate.kind, Instruction.turn?]
  | ry θ =>
    obtain ⟨θ', φ, hturned⟩ := exists_turned θ halfPi threeHalfPi
    constructor <;> simp [Instruction.block, hturned, Circuit.count, Circuit.halfTurns,
      Circuit.reversals, Circuit.size, Instruction.kind, Gate.kind, Instruction.turn?]
  | rxx θ =>
    obtain ⟨a, b, rfl⟩ := List.length_eq_two.mp hlen
    have hθ : isFinite θ = true := hfin (.inr (.inr rfl))
    have hturn : (⟨.rxx θ, [a, b]⟩ : Instruction α).turn? = some (QuarterTurn.ofFinite θ) := by
      simp [Instruction.turn?, QuarterTurn.ofAngle, finiteAngle, hθ, bind, Except.bind, pure,
        Except.pure, Except.toOption]
    simp only [Instruction.block, QuarterTurn.block, correction]
    constructor <;> cases lower <;> cases hb : (QuarterTurn.ofFinite θ).backward <;>
      cases hh : (QuarterTurn.ofFinite θ).halfTurn <;>
      simp [Circuit.count, Circuit.halfTurns, Circuit.reversals, Circuit.size, Instruction.kind,
        Gate.kind, hturn, hb, hh]

theorem conserves_blocks {width : Nat} {is : List (Instruction α)}
    (h : ∀ i ∈ is, i.Accepted width) :
    Conserves lower ⟨is, width⟩ (Circuit.blocks lower ⟨is, width⟩) := by
  induction is with
  | nil => exact conserves_empty lower width
  | cons i is ih =>
    have hi := conserves_block lower (h i List.mem_cons_self)
    have his := ih fun j hj => h j (List.mem_cons_of_mem i hj)
    exact hi.append his

end Parts

/-- A successful run puts one block in the place of each instruction, in their order, on the same
qubits and with the one gate that the instruction asks for. Beside those gates the output has
exactly the corrections, two for each half turn that is taken out and two for each reversal. -/
theorem run_conserves [Trig Float] {p : Pass Float} {c r : Circuit Float} (h : p.run c = .ok r) :
    (∃ parts : List (List (Instruction Float)),
      List.Forall₂ (fun i part => p.replacement i = .ok part ∧ Replaces i part)
        c.instructions parts ∧ r = ⟨parts.flatten, c.width⟩) ∧
    Conserves p.settings.lowerCorrections c r := by
  obtain ⟨hacc, rfl⟩ := run_eq_ok h
  refine ⟨⟨c.instructions.map (·.block p.settings.lowerCorrections), ?_, ?_⟩, conserves_blocks hacc⟩
  · rw [List.forall₂_map_right_iff, List.forall₂_same]
    intro i hi
    exact ⟨replacement_of_finite (hacc i hi).fits.1 (hacc i hi).finite,
      replaces_block _ (hacc i hi).fits.1⟩
  · rw [Circuit.blocks, List.flatMap_def]

/-- An interaction by two is reversed over a half turn, and one by one stays. -/
theorem run_conserves_of_reversed : ∃ c r : Circuit Float,
    c = ⟨[⟨.rxx 2, [1, 0]⟩, ⟨.ry 1, [1]⟩, ⟨.rz 7, [0]⟩, ⟨.rxx 1, [0, 1]⟩], 2⟩ ∧
      Pass.standard.run c = .ok r ∧ c.halfTurns = 1 ∧ c.reversals = 1 ∧
      r.count .rxx = 2 ∧ r.count .rz = 3 ∧ r.count .r = 3 := by
  have hrun : Pass.standard.run
      ⟨[⟨.rxx 2, [1, 0]⟩, ⟨.ry 1, [1]⟩, ⟨.rz 7, [0]⟩, ⟨.rxx 1, [0, 1]⟩], 2⟩ =
      .ok (⟨[⟨.r pi 0, [1]⟩, ⟨.r pi 0, [0]⟩, ⟨.rz pi, [1]⟩, ⟨.rxx 1.1415926535897931, [1, 0]⟩,
        ⟨.rz pi, [1]⟩, ⟨.r 1 halfPi, [1]⟩, ⟨.rz 7, [0]⟩, ⟨.rxx 1, [0, 1]⟩], 2⟩ :
        Circuit Float) := by
    decide +kernel
  obtain ⟨-, hxx, -, -, hz, hr, -⟩ := run_conserves hrun
  exact ⟨_, _, rfl, hrun, by decide +kernel, by decide +kernel, hxx, hz, hr⟩

end IonCircuit
