import IonCircuit.Proofs.Unitary
import Mathlib.Analysis.SpecialFunctions.Trigonometric.Basic
import Mathlib.Tactic.IntervalCases

/-! Every gate turns the register about an axis, by half of its angle. -/
namespace IonCircuit
open Register (Addresses embed)
open Complex (I)
open Scalar (half)

section Rotation
variable {ι : Type*} [Fintype ι] [DecidableEq ι] {A B : Matrix ι ι ℂ} {θ : ℝ}

/-- The rotation by half of `θ` about an axis. -/
noncomputable def rotation (θ : ℝ) (A : Matrix ι ι ℂ) : Matrix ι ι ℂ :=
  (Real.cos (half θ) : ℂ) • 1 - (I * Real.sin (half θ)) • A

omit [Fintype ι] in
theorem rotation_eq (θ : ℝ) (A : Matrix ι ι ℂ) :
    rotation θ A = (Real.cos (θ / 2) : ℂ) • 1 - (I * Real.sin (θ / 2)) • A := by
  rw [rotation, real_half]

omit [Fintype ι] in
theorem rotation_neg (θ : ℝ) (A : Matrix ι ι ℂ) : rotation (-θ) (-A) = rotation θ A := by
  simp [rotation_eq, neg_div]

omit [Fintype ι] in
/-- A whole turn changes the sign. -/
theorem rotation_add_turns (θ : ℝ) (k : ℤ) (A : Matrix ι ι ℂ) :
    rotation (θ + 2 * Real.pi * k) A = (-1 : ℂ) ^ k • rotation θ A := by
  have hhalf : (θ + 2 * Real.pi * k) / 2 = θ / 2 + k * Real.pi := by ring
  rw [rotation_eq, hhalf, Real.cos_add_int_mul_pi, Real.sin_add_int_mul_pi, rotation_eq]
  push_cast
  module

omit [Fintype ι] in
@[simp] theorem rotation_zero (A : Matrix ι ι ℂ) : rotation 0 A = 1 := by
  simp [rotation_eq]

omit [Fintype ι] in
theorem rotation_pi (A : Matrix ι ι ℂ) : rotation Real.pi A = -I • A := by
  simp [rotation_eq]

/-- A half turn the wrong way round adds a half turn. -/
theorem rotation_mul_neg_axis (hA : A * A = 1) (θ : ℝ) :
    rotation θ A * -A = -I • rotation (θ + Real.pi) A := by
  have hhalf : (θ + Real.pi) / 2 = θ / 2 + Real.pi / 2 := by ring
  rw [rotation_eq, rotation_eq, hhalf, Real.cos_add_pi_div_two, Real.sin_add_pi_div_two, sub_mul,
    smul_mul_assoc, smul_mul_assoc, one_mul, mul_neg, hA]
  push_cast
  match_scalars
  · linear_combination -Complex.cos (θ / 2) * Complex.I_mul_I
  · ring

/-- Rotations about one axis add up. -/
theorem rotation_mul_rotation (hA : A * A = 1) (θ φ : ℝ) :
    rotation θ A * rotation φ A = rotation (θ + φ) A := by
  simp only [rotation_eq, add_div, Real.cos_add, Real.sin_add, sub_mul, mul_sub, smul_mul_assoc,
    mul_smul_comm, one_mul, mul_one, hA]
  push_cast
  match_scalars
  · linear_combination Complex.sin (θ / 2) * Complex.sin (φ / 2) * Complex.I_mul_I
  · ring

/-- Past an axis that anticommutes with its own a rotation goes on the other way round. -/
theorem mul_rotation_of_anticommute (hBA : B * A = -(A * B)) (θ : ℝ) :
    B * rotation θ A = rotation (-θ) A * B := by
  simp only [rotation_eq, neg_div, Real.cos_neg, Real.sin_neg, sub_mul, mul_sub, smul_mul_assoc,
    mul_smul_comm, one_mul, mul_one, hBA]
  push_cast
  module

/-- Half turns about an axis that anticommutes reverse the sense. -/
theorem rotation_between_half_turns (hB : B * B = 1) (hBA : B * A = -(A * B)) (θ : ℝ) :
    rotation Real.pi B * (rotation θ A * rotation Real.pi B) = -rotation (-θ) A := by
  rw [rotation_pi, mul_smul_comm, smul_mul_smul_comm, ← mul_assoc,
    mul_rotation_of_anticommute hBA, mul_assoc, hB, mul_one, neg_mul_neg, Complex.I_mul_I,
    neg_one_smul]

end Rotation

noncomputable def pauliX (r c : ℕ) : ℂ := if r = c then 0 else 1

noncomputable def pauliY (r c : ℕ) : ℂ := if r = c then 0 else if r < c then -I else I

noncomputable def pauliZ (r c : ℕ) : ℂ := if r = c then (-1) ^ r else 0

/-- Along x on both of two qubits. -/
noncomputable def pauliXX (r c : ℕ) : ℂ := pauliX (r / 2) (c / 2) * pauliX (r % 2) (c % 2)

/-- The axis at an azimuth between x and y. -/
noncomputable def equator (φ : ℝ) (r c : ℕ) : ℂ :=
  Real.cos φ * pauliX r c + Real.sin φ * pauliY r c

@[simp] theorem equator_zero : equator 0 = pauliX := by
  funext r c
  simp [equator]

@[simp] theorem equator_pi : equator Real.pi = -pauliX := by
  funext r c
  simp [equator]

@[simp] theorem equator_half_pi : equator (Real.pi / 2) = pauliY := by
  funext r c
  simp [equator]

@[simp] theorem equator_three_half_pi : equator (3 * (Real.pi / 2)) = -pauliY := by
  have hsplit : 3 * (Real.pi / 2) = Real.pi + Real.pi / 2 := by ring
  funext r c
  simp [equator, hsplit, Real.cos_add, Real.sin_add]

/-- The axis of a gate as a matrix on its own qubits. -/
noncomputable def Gate.axis : Gate ℝ → ℕ → ℕ → ℂ
  | .rx _ => pauliX
  | .ry _ => pauliY
  | .rz _ => pauliZ
  | .r _ φ => equator φ
  | .rxx _ => pauliXX

theorem Gate.toComplex_offDiagonal (φ s : ℝ) :
    (Gate.offDiagonal φ s).toComplex = -(I * s * (Real.cos φ + I * Real.sin φ)) := by
  apply Complex.ext <;>
    simp [Gate.offDiagonal, Amplitude.toComplex, Amplitude.scale, Amplitude.i, Amplitude.cis,
      mul_comm, Complex.sin_ofReal_re, Complex.cos_ofReal_re]

/-- A gate is a rotation about its axis. -/
theorem Gate.entry_eq (g : Gate ℝ) {r c : ℕ} (hr : r < 2 ^ g.arity) (hc : c < 2 ^ g.arity) :
    g.entry r c = Real.cos (g.theta / 2) * (if r = c then 1 else 0) -
      I * Real.sin (g.theta / 2) * g.axis r c := by
  cases g with
  | rx θ =>
    simp only [Gate.arity, Gate.kind, Kind.arity] at hr hc
    interval_cases r <;> interval_cases c <;>
      simp [Gate.entry, Gate.matrix, Operator.entry, Operator.ofPairs, Amplitude.toComplex_mk,
        Gate.axis, Gate.theta, pauliX, mul_comm]
  | ry θ =>
    simp only [Gate.arity, Gate.kind, Kind.arity] at hr hc
    interval_cases r <;> interval_cases c <;>
      simp [Gate.entry, Gate.matrix, Operator.entry, Operator.ofPairs, Amplitude.toComplex_mk,
        Gate.axis, Gate.theta, pauliY, mul_right_comm I]
  | rz θ =>
    simp only [Gate.arity, Gate.kind, Kind.arity] at hr hc
    interval_cases r <;> interval_cases c <;>
      simp [Gate.entry, Gate.matrix, Operator.entry, Operator.ofPairs, Amplitude.toComplex_mk,
        Gate.axis, Gate.theta, pauliZ, Amplitude.cis, neg_div, mul_comm, sub_eq_add_neg]
  | r θ φ =>
    simp only [Gate.arity, Gate.kind, Kind.arity] at hr hc
    interval_cases r <;> interval_cases c <;>
      simp [Gate.entry, Gate.matrix, Operator.entry, Operator.ofPairs, Amplitude.toComplex_mk,
        Gate.axis, Gate.theta, equator, pauliX, pauliY, Gate.toComplex_offDiagonal, mul_comm]
  | rxx θ =>
    simp only [Gate.arity, Gate.kind, Kind.arity] at hr hc
    interval_cases r <;> interval_cases c <;>
      simp [Gate.entry, Gate.matrix, Operator.entry, Amplitude.toComplex_mk,
        Gate.axis, Gate.theta, pauliXX, pauliX, mul_comm]

/-- The axis of an instruction as a matrix on the register. -/
noncomputable def Instruction.axis (width : ℕ) (i : Instruction ℝ) :
    Matrix (Fin (2 ^ width)) (Fin (2 ^ width)) ℂ :=
  embed width i.qubits i.gate.axis

theorem Instruction.embedded_eq_rotation {width : ℕ} {i : Instruction ℝ} (h : i.WellFormed) :
    i.embedded width = rotation i.gate.theta (i.axis width) := by
  have hentry : i.embedded width = embed width i.qubits fun r c =>
      Real.cos (i.gate.theta / 2) * (if r = c then 1 else 0) -
        I * Real.sin (i.gate.theta / 2) * i.gate.axis r c :=
    Register.embed_congr fun r hr c hc => Gate.entry_eq _ (h.1 ▸ hr) (h.1 ▸ hc)
  rw [hentry, rotation_eq, Instruction.axis, ← Register.embed_one,
    Register.embed_smul, Register.embed_smul, Register.embed_sub]

section Pauli
variable {width a b q : ℕ}

theorem embed_equator_mul_self (h : Addresses width [q]) (φ : ℝ) :
    embed width [q] (equator φ) * embed width [q] (equator φ) = 1 := by
  have hunit := Complex.cos_sq_add_sin_sq φ
  rw [Register.embed_mul h, ← Register.embed_one ]
  refine Register.embed_congr fun r hr c hc => ?_
  rw [List.length_singleton, pow_one] at hr hc
  interval_cases r <;> interval_cases c <;>
    simp [Finset.sum_range_succ, equator, pauliX, pauliY]
  · linear_combination hunit - Complex.sin φ ^ 2 * Complex.I_mul_I
  · linear_combination hunit - Complex.sin φ ^ 2 * Complex.I_mul_I

theorem embed_pauliX_mul_self (h : Addresses width [q]) :
    embed width [q] pauliX * embed width [q] pauliX = 1 :=
  equator_zero ▸ embed_equator_mul_self h 0

theorem embed_pauliZ_mul_self (h : Addresses width [q]) :
    embed width [q] pauliZ * embed width [q] pauliZ = 1 := by
  rw [Register.embed_mul h, ← Register.embed_one ]
  refine Register.embed_congr fun r hr c hc => ?_
  rw [List.length_singleton, pow_one] at hr hc
  interval_cases r <;> interval_cases c <;> simp [pauliZ]

theorem embed_pauliZ_mul_pauliX (h : Addresses width [q]) :
    embed width [q] pauliZ * embed width [q] pauliX =
      -(embed width [q] pauliX * embed width [q] pauliZ) := by
  rw [Register.embed_mul h, Register.embed_mul h, ← neg_one_smul ℂ, Register.embed_smul]
  refine Register.embed_congr fun r hr c hc => ?_
  rw [List.length_singleton, pow_one] at hr hc
  interval_cases r <;> interval_cases c <;> simp [Finset.sum_range_succ, pauliX, pauliZ]

section Pair
variable (h : Addresses width ([a] ++ [b]))
include h

theorem Register.Addresses.left : Addresses width [a] :=
  ⟨List.nodup_singleton a, fun q hq => h.lt q (by simp_all)⟩

theorem Register.Addresses.right : Addresses width [b] :=
  ⟨List.nodup_singleton b, fun q hq => h.lt q (by simp_all)⟩

/-- The axis of an interaction is x on both qubits. -/
theorem embed_pauliXX : embed width [a, b] pauliXX =
    embed width [a] pauliX * embed width [b] pauliX := by
  rw [Register.embed_mul_embed h]
  rfl

theorem embed_pauliXX_mul_self :
    embed width [a, b] pauliXX * embed width [a, b] pauliXX = 1 := by
  have hcomm := Register.embed_comm h pauliX pauliX
  rw [embed_pauliXX h]
  calc _ = embed width [a] pauliX * (embed width [b] pauliX * embed width [a] pauliX) *
        embed width [b] pauliX := by simp only [mul_assoc]
    _ = (embed width [a] pauliX * embed width [a] pauliX) *
        (embed width [b] pauliX * embed width [b] pauliX) := by rw [hcomm]; simp only [mul_assoc]
    _ = 1 := by rw [embed_pauliX_mul_self h.left, embed_pauliX_mul_self h.right, one_mul]

theorem embed_pauliZ_mul_pauliXX :
    embed width [a] pauliZ * embed width [a, b] pauliXX =
      -(embed width [a, b] pauliXX * embed width [a] pauliZ) := by
  have hcomm := Register.embed_comm h pauliZ pauliX
  rw [embed_pauliXX h, ← mul_assoc, embed_pauliZ_mul_pauliX h.left, neg_mul, mul_assoc, mul_assoc,
    hcomm]

end Pair

end Pauli

end IonCircuit
