import IonCircuit.Proofs.Adjoint
import IonCircuit.Proofs.Building

/-! The composite steps of a builder as matrices. A phase that is controlled is diagonal, because
quarter turns about y carry the axis of an interaction from x to z. -/
namespace IonCircuit
open Register (Addresses AgreeOff embed bit restrict)
open Complex (I)
open Builder (hadamardGates rzzGates controlledPhaseGates)
open Scalar (half halfPi)

/-- The complex number of modulus one at this angle. -/
noncomputable def cis (x : ℝ) : ℂ := Complex.exp (x * I)

section Circle
variable (x y : ℝ)

@[simp] theorem cis_zero : cis 0 = 1 := by simp [cis]

theorem cis_add : cis (x + y) = cis x * cis y := by
  rw [cis, cis, cis, ← Complex.exp_add]
  push_cast
  ring_nf

theorem cis_eq : cis x = Real.cos x + Real.sin x * I := by
  rw [cis, Complex.exp_mul_I, Complex.ofReal_cos, Complex.ofReal_sin]

@[simp] theorem norm_cis : ‖cis x‖ = 1 := Complex.norm_exp_ofReal_mul_I x

theorem cis_add_turns (k : ℤ) : cis (x + 2 * Real.pi * k) = cis x := by
  have hturns : ((2 * Real.pi * k : ℝ) : ℂ) * I = k * (2 * Real.pi * I) := by
    push_cast
    ring
  rw [cis_add, cis, cis, hturns, Complex.exp_int_mul_two_pi_mul_I, mul_one]

end Circle

section Axes
variable {ι : Type*} [Fintype ι] [DecidableEq ι] {X Y Z : Matrix ι ι ℂ} {d : ι → ℝ}

theorem sqrt_two_sq : (√2 : ℂ) ^ 2 = 2 := by
  exact_mod_cast Real.sq_sqrt zero_le_two

/-- A quarter turn about y, and back after x, makes x into z. -/
theorem quarter_conj (hY : Y * Y = 1) (hXY : X * Y = I • Z) (hYX : Y * X = -(X * Y)) :
    rotation (-(Real.pi / 2)) Y * (X * rotation (Real.pi / 2) Y) = Z := by
  have hXY' : X * Y = -(Y * X) := by rw [hYX, neg_neg]
  have hhalf : rotation (-Real.pi) Y = I • Y := by
    rw [← rotation_neg, neg_neg, rotation_pi, smul_neg, neg_smul, neg_neg]
  rw [mul_rotation_of_anticommute hXY', ← mul_assoc, rotation_mul_rotation hY, ← neg_add, add_halves,
    hhalf, smul_mul_assoc, hYX, hXY, smul_neg, smul_smul, Complex.I_mul_I, neg_one_smul, neg_neg]

omit [Fintype ι] in
theorem rotation_quarter (A : Matrix ι ι ℂ) :
    rotation (Real.pi / 2) A = (√2 : ℂ)⁻¹ • (1 - I • A) := by
  have hquarter : Real.pi / 2 / 2 = Real.pi / 4 := by ring
  have hinv : (√2 : ℂ)⁻¹ = √2 / 2 :=
    inv_eq_of_mul_eq_one_right (by linear_combination (1 / 2) * sqrt_two_sq)
  rw [rotation_eq, hquarter, Real.cos_pi_div_four, Real.sin_pi_div_four, hinv]
  push_cast
  module

/-- A quarter turn about y, then a half turn about x. -/
theorem half_mul_quarter (hXY : X * Y = I • Z) :
    rotation Real.pi X * rotation (Real.pi / 2) Y = -I • (√2 : ℂ)⁻¹ • (X + Z) := by
  rw [rotation_pi, rotation_quarter, smul_mul_smul_comm, mul_sub, mul_one, mul_smul_comm, hXY,
    smul_smul, Complex.I_mul_I, neg_one_smul, sub_neg_eq_add, smul_smul]

omit [Fintype ι] in
/-- About a diagonal axis a rotation turns each entry by its sign. -/
theorem rotation_diagonal (hd : ∀ j, d j = 1 ∨ d j = -1) (θ : ℝ) :
    rotation θ (Matrix.diagonal fun j => (d j : ℂ)) =
      Matrix.diagonal fun j => cis (-(θ / 2) * d j) := by
  rw [rotation_eq, ← Matrix.diagonal_one, ← Matrix.diagonal_smul, ← Matrix.diagonal_smul,
    Matrix.diagonal_sub]
  congr 1
  funext j
  rcases hd j with h | h <;> simp [h, cis_eq] <;> ring

end Axes

section Sign
variable {width q : ℕ}

/-- The value of z on a qubit in a basis state. -/
def sign (width q j : ℕ) : ℝ := if bit width q j then -1 else 1

theorem sign_eq_or (width q j : ℕ) : sign width q j = 1 ∨ sign width q j = -1 := by
  unfold sign
  split <;> simp

theorem Register.embed_diagonal {R : Type*} [Zero R] {qubits : List ℕ} (f : ℕ → R) :
    embed width qubits (fun r c => if r = c then f r else 0) =
      Matrix.diagonal fun j : Fin (2 ^ width) => f (restrict width qubits j) := by
  ext j k
  rw [Register.embed_apply, Matrix.diagonal_apply]
  by_cases he : j = k
  · subst he
    simp [AgreeOff]
  · rw [if_neg he]
    split
    · rename_i hagree
      exact if_neg fun hr => he (Fin.ext (hagree.eq_of_restrict_eq j.isLt k.isLt hr))
    · rfl

theorem embed_pauliZ_eq_diagonal (width q : ℕ) :
    embed width [q] pauliZ = Matrix.diagonal fun j : Fin (2 ^ width) => (sign width q j : ℂ) := by
  refine (Register.embed_diagonal fun r => (-1 : ℂ) ^ r).trans ?_
  congr 1
  funext j
  cases hbit : bit width q j <;> simp [restrict, sign, hbit]

theorem sign_mul_sign_eq_or (width a b j : ℕ) :
    sign width a j * sign width b j = 1 ∨ sign width a j * sign width b j = -1 := by
  rcases sign_eq_or width a j with ha | ha <;> rcases sign_eq_or width b j with hb | hb <;>
    simp [ha, hb]

theorem embed_pauliZ_mul_embed_pauliZ (width a b : ℕ) :
    embed width [a] pauliZ * embed width [b] pauliZ = Matrix.diagonal fun j : Fin (2 ^ width) =>
      ((sign width a j * sign width b j : ℝ) : ℂ) := by
  simp only [embed_pauliZ_eq_diagonal, Matrix.diagonal_mul_diagonal, Complex.ofReal_mul]

theorem embedded_rz (θ : ℝ) (hq : Addresses width [q]) :
    (⟨.rz θ, [q]⟩ : Instruction ℝ).embedded width =
      Matrix.diagonal fun j : Fin (2 ^ width) => cis (-(θ / 2) * sign width q j) := by
  rw [Instruction.embedded_eq_rotation ⟨rfl, hq.nodup⟩]
  change rotation θ (embed width [q] pauliZ) = _
  rw [embed_pauliZ_eq_diagonal]
  exact rotation_diagonal (fun j : Fin (2 ^ width) => sign_eq_or width q j) θ

end Sign

section Qubit
variable {width q : ℕ} (h : Addresses width [q])
include h

theorem embed_pauliX_mul_pauliY :
    embed width [q] pauliX * embed width [q] pauliY = I • embed width [q] pauliZ := by
  rw [Register.embed_mul h, Register.embed_smul]
  refine Register.embed_congr fun r hr c hc => ?_
  rw [List.length_singleton, pow_one] at hr hc
  interval_cases r <;> interval_cases c <;>
    simp [Finset.sum_range_succ, pauliX, pauliY, pauliZ]

theorem embed_pauliY_mul_pauliX : embed width [q] pauliY * embed width [q] pauliX =
    -(embed width [q] pauliX * embed width [q] pauliY) := by
  rw [Register.embed_mul h, Register.embed_mul h, ← Register.embed_neg]
  refine Register.embed_congr fun r hr c hc => ?_
  rw [List.length_singleton, pow_one] at hr hc
  interval_cases r <;> interval_cases c <;>
    simp [Finset.sum_range_succ, pauliX, pauliY]

theorem embed_pauliY_mul_self : embed width [q] pauliY * embed width [q] pauliY = 1 :=
  equator_half_pi ▸ embed_equator_mul_self h (Real.pi / 2)

theorem embedded_rx (θ : ℝ) : (⟨.rx θ, [q]⟩ : Instruction ℝ).embedded width =
    rotation θ (embed width [q] pauliX) :=
  Instruction.embedded_eq_rotation ⟨rfl, h.nodup⟩

theorem embedded_ry (θ : ℝ) : (⟨.ry θ, [q]⟩ : Instruction ℝ).embedded width =
    rotation θ (embed width [q] pauliY) :=
  Instruction.embedded_eq_rotation ⟨rfl, h.nodup⟩

/-- The builder's Hadamard gate adds x to z. -/
theorem chain_hadamardGates : chain width (hadamardGates q) =
    -I • (√2 : ℂ)⁻¹ • (embed width [q] pauliX + embed width [q] pauliZ) := by
  rw [hadamardGates, chain_cons, chain_cons, chain_nil, one_mul, embedded_rx h, embedded_ry h,
    real_pi, real_halfPi, half_mul_quarter (embed_pauliX_mul_pauliY h)]

end Qubit

/-- Two conjugations that do not meet can be done one after the other. -/
theorem sandwich_mul {M : Type*} [Monoid M] {a a' x b b' y : M} (hba : Commute b a)
    (hya : Commute y a) (hb' : Commute b' (a' * x * a)) :
    b' * a' * (x * y) * b * a = a' * (x * a) * (b' * (y * b)) :=
  calc b' * a' * (x * y) * b * a = b' * (a' * x) * y * (b * a) := by simp only [mul_assoc]
    _ = b' * (a' * x) * (y * a) * b := by rw [hba.eq]; simp only [mul_assoc]
    _ = b' * (a' * x * a) * y * b := by rw [hya.eq]; simp only [mul_assoc]
    _ = a' * (x * a) * (b' * (y * b)) := by rw [hb'.eq]; simp only [mul_assoc]

/-- Conjugating a rotation conjugates its axis. -/
theorem rotation_sandwich {ι : Type*} [Fintype ι] [DecidableEq ι] {A A' X B B' Y : Matrix ι ι ℂ}
    (hA : A' * A = 1) (hB : B' * B = 1) (hBA : Commute B A) (hYA : Commute Y A)
    (hBA' : Commute B' A') (hBX : Commute B' X) (hBA'' : Commute B' A) (θ : ℝ) :
    B' * A' * rotation θ (X * Y) * B * A = rotation θ (A' * (X * A) * (B' * (Y * B))) := by
  have hone : B' * A' * 1 * B * A = 1 := by
    have hsandwich := sandwich_mul hBA (Commute.one_left A)
      ((hBA'.mul_right (.one_right B')).mul_right hBA'')
    simpa only [mul_one, one_mul, hA, hB] using hsandwich
  rw [rotation_eq, rotation_eq, ← sandwich_mul hBA hYA ((hBA'.mul_right hBX).mul_right hBA'')]
  simp only [mul_sub, sub_mul, mul_smul_comm, smul_mul_assoc, hone]

section Pair
variable {width a b : ℕ} (h : Addresses width ([a] ++ [b]))
include h

/-- Between the quarter turns of an interaction along z its axis is z on both qubits. -/
theorem chain_rzzGates (θ : ℝ) : chain width (rzzGates a b θ) =
    rotation θ (embed width [a] pauliZ * embed width [b] pauliZ) := by
  have hxx : (⟨.rxx θ, [a, b]⟩ : Instruction ℝ).embedded width =
      rotation θ (embed width [a] pauliX * embed width [b] pauliX) := by
    rw [Instruction.embedded_eq_rotation ⟨rfl, h.nodup⟩]
    exact congrArg (rotation θ) (embed_pauliXX h)
  have hcomm : ∀ m m' : ℕ → ℕ → ℂ, Commute (embed width [b] m') (embed width [a] m) :=
    fun m m' => Register.embed_comm h m m'
  have hback : ∀ {q}, Addresses width [q] →
      (⟨.ry (-halfPi), [q]⟩ : Instruction ℝ).embedded width *
        (⟨.ry halfPi, [q]⟩ : Instruction ℝ).embedded width = 1 := by
    intro q hq
    rw [embedded_ry hq, embedded_ry hq, rotation_neg_mul_rotation (embed_pauliY_mul_self hq)]
  have haxis : ∀ {q}, Addresses width [q] →
      (⟨.ry (-halfPi), [q]⟩ : Instruction ℝ).embedded width * (embed width [q] pauliX *
        (⟨.ry halfPi, [q]⟩ : Instruction ℝ).embedded width) = embed width [q] pauliZ := by
    intro q hq
    rw [embedded_ry hq, embedded_ry hq, real_halfPi]
    exact quarter_conj (embed_pauliY_mul_self hq) (embed_pauliX_mul_pauliY hq)
      (embed_pauliY_mul_pauliX hq)
  rw [rzzGates, chain_cons, chain_cons, chain_cons, chain_cons, chain_cons, chain_nil, one_mul, hxx,
    rotation_sandwich (hback h.left) (hback h.right) (hcomm _ _) (hcomm _ _) (hcomm _ _)
      (hcomm _ _) (hcomm _ _), haxis h.left, haxis h.right]

/-- A controlled phase multiplies the basis states that have both qubits set, up to a phase of the
whole register. -/
theorem chain_controlledPhaseGates (x : ℝ) : chain width (controlledPhaseGates a b x) =
    cis (-(x / 4)) • Matrix.diagonal fun j : Fin (2 ^ width) =>
      if bit width a j ∧ bit width b j then cis x else 1 := by
  have hzz : rotation (-x / 2) (embed width [a] pauliZ * embed width [b] pauliZ) =
      Matrix.diagonal fun j : Fin (2 ^ width) =>
        cis (-(-x / 2 / 2) * (sign width a j * sign width b j)) := by
    rw [embed_pauliZ_mul_embed_pauliZ]
    exact rotation_diagonal (fun j : Fin (2 ^ width) => sign_mul_sign_eq_or width a b j) _
  rw [controlledPhaseGates, chain_cons, chain_cons, chain_rzzGates h, embedded_rz _ h.left,
    embedded_rz _ h.right, real_half, real_half, hzz, Matrix.diagonal_mul_diagonal,
    Matrix.diagonal_mul_diagonal, ← Matrix.diagonal_smul]
  congr 1
  funext j
  rw [← cis_add, ← cis_add, Pi.smul_apply, smul_eq_mul]
  cases ha : bit width a j <;> cases hb : bit width b j <;> simp [sign, ha, hb, ← cis_add] <;>
    congr 1 <;> ring

end Pair

end IonCircuit
