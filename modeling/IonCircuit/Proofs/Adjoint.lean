import IonCircuit.Proofs.Equality
import IonCircuit.Proofs.Rotation
import Mathlib.LinearAlgebra.Matrix.ConjTranspose

/-! The adjoint of a circuit is its inverse, and taking it twice gives the circuit back. -/
namespace IonCircuit
open Register (Addresses embed)
open Complex (I)
open scoped ComplexConjugate Matrix

section Form
variable {α : Type}

@[simp] theorem Gate.arity_adjoint [Neg α] (g : Gate α) : g.adjoint.arity = g.arity :=
  congrArg Kind.arity g.kind_adjoint

theorem Instruction.Fits.adjoint [Neg α] {i : Instruction α} {width : ℕ} (h : i.Fits width) :
    i.adjoint.Fits width :=
  ⟨⟨h.1.1.trans i.gate.arity_adjoint.symm, h.1.2⟩, h.2⟩

theorem Circuit.WellFormed.adjoint [Neg α] {c : Circuit α} (h : c.WellFormed) :
    c.adjoint.WellFormed := by
  intro i hi
  obtain ⟨j, hj, rfl⟩ := List.mem_map.mp hi
  exact (h j (List.mem_reverse.mp hj)).adjoint

theorem Circuit.compose_eq_ok {a b : Circuit α} (h : a.width = b.width) :
    a.compose b = .ok ⟨a.instructions ++ b.instructions, a.width⟩ := if_pos h

theorem Gate.adjoint_adjoint [InvolutiveNeg α] (g : Gate α) : g.adjoint.adjoint = g := by
  cases g <;> simp [Gate.adjoint]

theorem Circuit.adjoint_adjoint [InvolutiveNeg α] (c : Circuit α) : c.adjoint.adjoint = c := by
  have htwice : (fun i : Instruction α => i.adjoint.adjoint) = id := by
    funext i
    rw [Instruction.adjoint, Instruction.adjoint, Gate.adjoint_adjoint, id]
  simp [Circuit.adjoint, Function.comp_def, htwice]

/-- The adjoint of two circuits in a row runs their adjoints in the other order. -/
theorem Circuit.adjoint_append [Neg α] (is js : List (Instruction α)) (width : ℕ) :
    (⟨is ++ js, width⟩ : Circuit α).adjoint =
      ⟨(⟨js, width⟩ : Circuit α).adjoint.instructions ++
        (⟨is, width⟩ : Circuit α).adjoint.instructions, width⟩ := by
  simp [Circuit.adjoint]

instance Binary64.instInvolutiveNeg : InvolutiveNeg Float := ⟨Binary64.neg_neg⟩

end Form

section Rotation
variable {ι : Type*} [Fintype ι] [DecidableEq ι] {A : Matrix ι ι ℂ}

omit [Fintype ι] in
theorem conjTranspose_rotation (hA : Aᴴ = A) (θ : ℝ) : (rotation θ A)ᴴ = rotation (-θ) A := by
  simp only [rotation_eq, Matrix.conjTranspose_sub, Matrix.conjTranspose_smul,
    Matrix.conjTranspose_one, hA, neg_div, Real.cos_neg, Real.sin_neg, Complex.star_def, map_mul,
    Complex.conj_ofReal, Complex.conj_I, Complex.ofReal_neg, mul_neg, neg_mul]

theorem rotation_neg_mul_rotation (hA : A * A = 1) (θ : ℝ) :
    rotation (-θ) A * rotation θ A = 1 := by
  rw [rotation_mul_rotation hA, neg_add_cancel, rotation_zero]

end Rotation

theorem Register.conjTranspose_embed {R : Type*} [AddMonoid R] [StarAddMonoid R] {width : ℕ}
    {qubits : List ℕ} (m : ℕ → ℕ → R) :
    (embed width qubits m)ᴴ = embed width qubits fun r c => star (m c r) := by
  ext i j
  rw [Matrix.conjTranspose_apply, embed_apply, embed_apply, apply_ite star, star_zero]
  exact if_congr ⟨AgreeOff.symm, AgreeOff.symm⟩ rfl rfl

section Axis
variable {width : ℕ} {i : Instruction ℝ}

theorem conj_pauliX (r c : ℕ) : conj (pauliX c r) = pauliX r c := by
  simp [pauliX, apply_ite conj, eq_comm]

theorem conj_pauliY (r c : ℕ) : conj (pauliY c r) = pauliY r c := by
  unfold pauliY
  rcases lt_trichotomy r c with h | rfl | h
  · simp [h.ne, h.ne', h, h.not_gt]
  · simp
  · simp [h.ne, h.ne', h, h.not_gt]

/-- The axes are Hermitian. -/
theorem Gate.conj_axis (g : Gate ℝ) (r c : ℕ) : conj (g.axis c r) = g.axis r c := by
  cases g with
  | rx θ => exact conj_pauliX r c
  | ry θ => exact conj_pauliY r c
  | rz θ =>
    by_cases h : r = c
    · subst h
      simp [Gate.axis, pauliZ]
    · simp [Gate.axis, pauliZ, h, Ne.symm h]
  | r θ φ =>
    simp only [Gate.axis, equator, map_add, map_mul, Complex.conj_ofReal, conj_pauliX, conj_pauliY]
  | rxx θ => simp [Gate.axis, pauliXX, conj_pauliX]

namespace Instruction

theorem conjTranspose_axis (width : ℕ) (i : Instruction ℝ) : (i.axis width)ᴴ = i.axis width := by
  rw [axis, Register.conjTranspose_embed]
  exact Register.embed_congr fun r _ c _ => i.gate.conj_axis r c

theorem axis_mul_axis (h : i.Fits width) : i.axis width * i.axis width = 1 := by
  obtain ⟨g, qubits⟩ := i
  have haddr : Addresses width qubits := h.addresses
  cases g with
  | rxx θ =>
    obtain ⟨a, b, rfl⟩ := List.length_eq_two.mp h.1.1
    exact embed_pauliXX_mul_self haddr
  | rx θ | ry θ | rz θ | r θ φ =>
    obtain ⟨q, rfl⟩ := List.length_eq_one_iff.mp h.1.1
    have hpauli := embed_equator_mul_self haddr
    simp only [axis, Gate.axis, ← equator_zero, ← equator_half_pi, hpauli,
      embed_pauliZ_mul_self haddr]

theorem embedded_adjoint (h : i.WellFormed) : i.adjoint.embedded width = (i.embedded width)ᴴ := by
  have hturn : i.adjoint.gate.theta = -i.gate.theta ∧ i.adjoint.axis width = i.axis width := by
    obtain ⟨g, qubits⟩ := i
    cases g <;> exact ⟨rfl, rfl⟩
  have hwf : i.adjoint.WellFormed := ⟨h.1.trans i.gate.arity_adjoint.symm, h.2⟩
  rw [embedded_eq_rotation hwf, embedded_eq_rotation h, hturn.1, hturn.2,
    conjTranspose_rotation (conjTranspose_axis width i)]

/-- One instruction is undone by its adjoint. -/
theorem conjTranspose_mul_embedded (h : i.Fits width) :
    (i.embedded width)ᴴ * i.embedded width = 1 := by
  rw [embedded_eq_rotation h.1, conjTranspose_rotation (conjTranspose_axis width i)]
  exact rotation_neg_mul_rotation (axis_mul_axis h) i.gate.theta

end Instruction

section Chain
variable {is : List (Instruction ℝ)} (h : ∀ i ∈ is, i.Fits width)
include h

theorem chain_adjoint : chain width (is.reverse.map (·.adjoint)) = (chain width is)ᴴ := by
  induction is with
  | nil => simp
  | cons i is ih =>
    have hi := h i List.mem_cons_self
    rw [List.reverse_cons, List.map_append, chain_append, chain_cons, Matrix.conjTranspose_mul,
      ih fun j hj => h j (List.mem_cons_of_mem i hj)]
    simp [Instruction.embedded_adjoint hi.1]

/-- What some instructions do is undone by the adjoint. -/
theorem conjTranspose_mul_chain : (chain width is)ᴴ * chain width is = 1 := by
  induction is with
  | nil => simp
  | cons i is ih =>
    have hrest := ih fun j hj => h j (List.mem_cons_of_mem i hj)
    rw [chain_cons, Matrix.conjTranspose_mul]
    calc (i.embedded width)ᴴ * (chain width is)ᴴ * (chain width is * i.embedded width)
        = (i.embedded width)ᴴ * ((chain width is)ᴴ * chain width is) * i.embedded width := by
          simp only [mul_assoc]
      _ = 1 := by
          rw [hrest, mul_one, Instruction.conjTranspose_mul_embedded (h i List.mem_cons_self)]

end Chain

end Axis

theorem Circuit.WellFormed.hasUnitary_adjoint {c : Circuit ℝ} (h : c.WellFormed) :
    c.adjoint.HasUnitary (chain c.width c.instructions)ᴴ :=
  chain_adjoint h ▸ h.adjoint.hasUnitary

/-- A circuit and then its adjoint do nothing at all. -/
theorem Circuit.WellFormed.hasUnitary_compose_adjoint {c : Circuit ℝ} (h : c.WellFormed) :
    (⟨c.instructions ++ c.adjoint.instructions, c.width⟩ : Circuit ℝ).HasUnitary 1 := by
  have hboth : (⟨c.instructions ++ c.adjoint.instructions, c.width⟩ : Circuit ℝ).WellFormed := by
    intro i hi
    rcases List.mem_append.mp hi with hi | hi
    · exact h i hi
    · exact h.adjoint i hi
  have hchain : chain c.width (c.instructions ++ c.adjoint.instructions) = 1 := by
    rw [chain_append]
    exact chain_adjoint h ▸ conjTranspose_mul_chain h
  exact hchain ▸ hboth.hasUnitary

/-- Over the reals the adjoint has the conjugate transpose of the unitary, which is its
inverse. Over doubles it is an involution that reverses composition, and only what is not a
number keeps a circuit from equaling its double adjoint. -/
theorem adjoint_inverts :
    (∀ c : Circuit ℝ, c.WellFormed → ∃ U, c.HasUnitary U ∧ c.adjoint.HasUnitary Uᴴ ∧
      Uᴴ * U = 1 ∧ ∃ d, c.compose c.adjoint = .ok d ∧ d.HasUnitary 1) ∧
    (∀ c : Circuit Float, c.adjoint.adjoint = c ∧ ((c.adjoint.adjoint == c) = true ↔
      ∀ i ∈ c.instructions, ∀ x ∈ i.gate.params, x.isNaN = false)) ∧
    ∀ a b : Circuit Float, a.width = b.width → ∃ d e, a.compose b = .ok d ∧
      b.adjoint.compose a.adjoint = .ok e ∧ d.adjoint = e := by
  refine ⟨fun c h => ?_, fun c => ?_, fun a b h => ?_⟩
  · exact ⟨_, h.hasUnitary, h.hasUnitary_adjoint, conjTranspose_mul_chain h, _,
      Circuit.compose_eq_ok rfl, h.hasUnitary_compose_adjoint⟩
  · have htwice := Circuit.adjoint_adjoint c
    refine ⟨htwice, ?_⟩
    rw [htwice, Circuit.beq_self_iff]
    simp [Float.beq_self_iff, Float.isNaN_eq_decide_eq_nan]
  · refine ⟨_, _, Circuit.compose_eq_ok h, Circuit.compose_eq_ok h.symm, ?_⟩
    obtain ⟨is, width⟩ := a
    obtain ⟨js, width'⟩ := b
    obtain rfl : width = width' := h
    exact Circuit.adjoint_append is js width

/-- The adjoint of two gates on three qubits, written out. -/
theorem adjoint_inverts_of_interaction :
    (∃ U, (⟨[⟨.r 1 2, [1]⟩, ⟨.rxx 3, [2, 0]⟩], 3⟩ : Circuit ℝ).HasUnitary U ∧
      (⟨[⟨.rxx (-3), [2, 0]⟩, ⟨.r (-1) 2, [1]⟩], 3⟩ : Circuit ℝ).HasUnitary Uᴴ ∧ Uᴴ * U = 1) ∧
    (⟨[⟨.r (- -1) 2, [1]⟩, ⟨.rxx (- -3), [2, 0]⟩], 3⟩ ==
      (⟨[⟨.r 1 2, [1]⟩, ⟨.rxx 3, [2, 0]⟩], 3⟩ : Circuit Float)) = true ∧
    ∃ d e, (⟨[⟨.r 1 2, [1]⟩], 3⟩ : Circuit Float).compose ⟨[⟨.rxx 3, [2, 0]⟩], 3⟩ = .ok d ∧
      (⟨[⟨.rxx (-3), [2, 0]⟩], 3⟩ : Circuit Float).compose ⟨[⟨.r (-1) 2, [1]⟩], 3⟩ = .ok e ∧
      d.adjoint = e := by
  have hwf : (⟨[⟨.r 1 2, [1]⟩, ⟨.rxx 3, [2, 0]⟩], 3⟩ : Circuit ℝ).WellFormed := by
    simp [Circuit.WellFormed, Instruction.Fits, Instruction.WellFormed, Gate.arity, Gate.kind,
      Kind.arity]
  obtain ⟨hreal, htwice, hcompose⟩ := adjoint_inverts
  obtain ⟨U, hU, hadjoint, hone, -⟩ := hreal _ hwf
  refine ⟨⟨U, hU, hadjoint, hone⟩, ?_, hcompose ⟨[⟨.r 1 2, [1]⟩], 3⟩ ⟨[⟨.rxx 3, [2, 0]⟩], 3⟩ rfl⟩
  exact (htwice ⟨[⟨.r 1 2, [1]⟩, ⟨.rxx 3, [2, 0]⟩], 3⟩).2.mpr (by decide)

end IonCircuit
