import IonCircuit.Proofs.ControlledPhase
import Mathlib.Analysis.Normed.Algebra.MatrixExponential

/-! What the composite steps of a builder do to a register, with the phase that each of them leaves
over. About a diagonal axis a rotation is the exponential of the axis. -/
namespace IonCircuit
open Register (Addresses embed bit)
open Complex (I)

/-- On a register of this width the step succeeds after any instructions, and what it appends has
this unitary. -/
def Builder.Implements (width : ℕ) (step : Builder ℝ Unit)
    (M : Matrix (Fin (2 ^ width)) (Fin (2 ^ width)) ℂ) : Prop :=
  ∃ is, Builder.Emits width step is ∧ (⟨is, width⟩ : Circuit ℝ).HasUnitary M

theorem Builder.Emits.implements {width : ℕ} {step : Builder ℝ Unit} {is : List (Instruction ℝ)}
    (h : Builder.Emits width step is) : Builder.Implements width step (chain width is) :=
  ⟨is, h, h.wellFormed.hasUnitary⟩

/-- The Hadamard axis lies halfway between x and z. -/
theorem embed_hadamard (width q : ℕ) :
    embed width [q] (fun r c => (√2 : ℂ)⁻¹ * (-1) ^ (r * c)) =
      (√2 : ℂ)⁻¹ • (embed width [q] pauliX + embed width [q] pauliZ) := by
  rw [Register.embed_add, Register.embed_smul]
  refine Register.embed_congr fun r hr c hc => ?_
  rw [List.length_singleton, pow_one] at hr hc
  interval_cases r <;> interval_cases c <;> simp [pauliX, pauliZ]

section Exponential
variable {ι : Type*} [Fintype ι] [DecidableEq ι] {d : ι → ℝ}

/-- About a diagonal axis of signs a rotation is an exponential. -/
theorem rotation_diagonal_eq_exp (hd : ∀ j, d j = 1 ∨ d j = -1) (θ : ℝ) :
    rotation θ (Matrix.diagonal fun j => (d j : ℂ)) =
      NormedSpace.exp (-(I * θ / 2) • Matrix.diagonal fun j => (d j : ℂ)) := by
  rw [rotation_diagonal hd, ← Matrix.diagonal_smul, Matrix.exp_diagonal]
  congr 1
  funext j
  rw [Pi.coe_exp, Pi.smul_apply, smul_eq_mul, cis, ← Complex.exp_eq_exp_ℂ]
  congr 1
  push_cast
  ring

end Exponential

theorem rotation_pauliZ_mul_pauliZ (width a b : ℕ) (θ : ℝ) :
    rotation θ (embed width [a] pauliZ * embed width [b] pauliZ) =
      NormedSpace.exp (-(I * θ / 2) • (embed width [a] pauliZ * embed width [b] pauliZ)) := by
  rw [embed_pauliZ_mul_embed_pauliZ]
  exact rotation_diagonal_eq_exp (fun j : Fin (2 ^ width) => sign_mul_sign_eq_or width a b j) θ

/-- The Hadamard gate of a builder is one with the phase `-i`, on any qubit of any register. Its
interaction along z is the exponential without any phase, and its controlled phase, on any two
qubits in either order, has the phase of a quarter of the angle backward. -/
theorem Builder.composites_implement (n : ℕ) :
    (∀ a < n, Builder.Implements n (Builder.hadamard a)
      (-I • embed n [a] fun r c => (√2 : ℂ)⁻¹ * (-1) ^ (r * c))) ∧
    ∀ a < n, ∀ b < n, a ≠ b → ∀ x : ℝ,
      Builder.Implements n (Builder.rzz a b x)
        (NormedSpace.exp (-(I * x / 2) • (embed n [a] pauliZ * embed n [b] pauliZ))) ∧
      Builder.Implements n (Builder.controlledPhase a b x)
        (Complex.exp (-(I * x / 4)) • Matrix.diagonal fun j : Fin (2 ^ n) =>
          if bit n a j ∧ bit n b j then Complex.exp (I * x) else 1) := by
  refine ⟨fun a ha => ?_, fun a ha b hb hab x => ⟨?_, ?_⟩⟩
  · have hqubit : Addresses n [a] := ⟨List.nodup_singleton a, by simpa using ha⟩
    have hstep := (Builder.emits_hadamard (α := ℝ) ha).implements
    rwa [chain_hadamardGates hqubit, ← embed_hadamard] at hstep
  · have hpair : Addresses n ([a] ++ [b]) := ⟨by simpa using hab, by simp [ha, hb]⟩
    have hstep := (Builder.emits_rzz (θ := x) hab ha hb).implements
    rwa [chain_rzzGates hpair, rotation_pauliZ_mul_pauliZ] at hstep
  · have hpair : Addresses n ([a] ++ [b]) := ⟨by simpa using hab, by simp [ha, hb]⟩
    have hphase : cis (-(x / 4)) = Complex.exp (-(I * x / 4)) := by
      rw [cis]
      congr 1
      push_cast
      ring
    have hturn : cis x = Complex.exp (I * x) := by rw [cis, mul_comm]
    have hstep := (Builder.emits_controlledPhase (θ := x) hab ha hb).implements
    rwa [chain_controlledPhaseGates hpair, hphase, hturn] at hstep

/-- The only qubit of a register, and two of three with the later one in front. -/
theorem Builder.composites_implement_of_swapped :
    Builder.Implements 1 (Builder.hadamard 0)
        (-I • embed 1 [0] fun r c => (√2 : ℂ)⁻¹ * (-1) ^ (r * c)) ∧
      Builder.Implements 3 (Builder.controlledPhase 2 0 1)
        (Complex.exp (-(I * (1 : ℝ) / 4)) • Matrix.diagonal fun j : Fin (2 ^ 3) =>
          if bit 3 2 j ∧ bit 3 0 j then Complex.exp (I * (1 : ℝ)) else 1) :=
  ⟨(Builder.composites_implement 1).1 0 (by decide),
    ((Builder.composites_implement 3).2 2 (by decide) 0 (by decide) (by decide) 1).2⟩

end IonCircuit
