import IonCircuit.Circuit.Fourier
import IonCircuit.Proofs.ControlledPhase

/-! The builder's Fourier transform is the discrete one, but for the order of the qubits. The stages
from the last qubit down to one of them transform the qubits from there on and leave the others. -/
namespace IonCircuit
open Register (Addresses embed bit restrict place)
open Complex (I)

namespace Register
variable {width q m j k s : ℕ}

/-- The bits of a state in the opposite order. -/
def reversed (width k : ℕ) : ℕ := (BitVec.ofNat width k).reverse.toNat

/-- Counted from the least significant bit, the reversed state has the bits of the qubits. -/
theorem testBit_reversed (hq : q < width) (k : ℕ) : (reversed width k).testBit q = bit width q k := by
  have hlow : width - 1 - q < width := by omega
  rw [reversed, BitVec.testBit_toNat, BitVec.getLsbD_reverse, BitVec.getMsbD_eq_getLsbD,
    BitVec.getLsbD_ofNat]
  simp [hq, hlow, bit]

example : reversed 4 0b0011 = 0b1100 := by decide

theorem mod_two_pow_succ (x k : ℕ) :
    x % 2 ^ (k + 1) = x % 2 ^ k + 2 ^ k * (x.testBit k).toNat := by
  rw [Nat.mod_pow_succ, Nat.toNat_testBit]

/-- The first qubits make up the low bits of the reversed state. -/
theorem reversed_mod_congr (hm : m ≤ width) (h : ∀ q < m, bit width q j = bit width q k) :
    reversed width j % 2 ^ m = reversed width k % 2 ^ m := by
  apply Nat.eq_of_testBit_eq
  intro q
  rw [Nat.testBit_mod_two_pow, Nat.testBit_mod_two_pow]
  by_cases hq : q < m
  · rw [testBit_reversed (by omega), testBit_reversed (by omega), h q hq]
  · simp [hq]

/-- The last qubits make up the low bits of the state. -/
theorem mod_congr (h : ∀ q < width, m < q → bit width q j = bit width q k) :
    j % 2 ^ (width - 1 - m) = k % 2 ^ (width - 1 - m) := by
  apply Nat.eq_of_testBit_eq
  intro i
  rw [Nat.testBit_mod_two_pow, Nat.testBit_mod_two_pow]
  by_cases hi : i < width - 1 - m
  · have hbit := h (width - 1 - i) (by omega) (by omega)
    rw [bit, bit, show width - 1 - (width - 1 - i) = i by omega] at hbit
    rw [hbit]
  · simp [hi]

theorem bit_place_self (h : Addresses width [q]) (hs : s < 2) (j : ℕ) :
    (bit width q (place width [q] j s)).toNat = s := by
  simpa [restrict] using restrict_place (i := j) h (s := s) (by simpa using hs)

theorem bit_place_of_ne (h : Addresses width [q]) {p : ℕ} (hp : p < width) (hne : p ≠ q) :
    bit width p (place width [q] j s) = bit width p j :=
  (agreeOff_place h p hp (by simpa using hne)).symm

end Register
open Register (reversed)

section Emission
variable {α : Type} [Scalar α] {width target : ℕ}
open Builder (Emits hadamardGates controlledPhaseGates)

/-- The controlled phases of a stage from the first qubits. -/
def phaseGates (target count : ℕ) : List (Instruction α) :=
  (List.range count).flatMap fun control =>
    controlledPhaseGates target control (Scalar.pi / Scalar.powTwo (target - control))

def stageGates (target : ℕ) : List (Instruction α) :=
  hadamardGates target ++ phaseGates target target

theorem emits_fourierStage (h : target < width) :
    Emits width (fourierStage target : Builder α Unit) (stageGates target) := by
  refine (Builder.emits_hadamard h).bind (Builder.emits_forM fun control hcontrol => ?_)
  have hlt := List.mem_range.mp hcontrol
  exact Builder.emits_controlledPhase hlt.ne' h (by omega)

/-- The instructions of the transform, from the last target to the first. -/
def fourierGates (width : ℕ) : List (Instruction α) := (List.range width).reverse.flatMap stageGates

theorem emits_fourier (width : ℕ) : Emits width
    ((List.range width).reverse.forM fourierStage : Builder α Unit) (fourierGates width) := by
  refine Builder.emits_forM fun target htarget => emits_fourierStage ?_
  rwa [List.mem_reverse, List.mem_range] at htarget

/-- No step of the transform fails. -/
theorem Circuit.fourier_eq_ok (width : ℕ) :
    (Circuit.fourier width : Except (Error α) (Circuit α)) = .ok ⟨fourierGates width, width⟩ :=
  (emits_fourier width).build_eq_ok

theorem wellFormed_fourierGates (width : ℕ) :
    (⟨fourierGates width, width⟩ : Circuit α).WellFormed :=
  (emits_fourier width).wellFormed

end Emission

/-- The second matrix is the first up to a phase. -/
def SameUpToPhase {ι : Type*} (U V : Matrix ι ι ℂ) : Prop := ∃ p : ℂ, ‖p‖ = 1 ∧ V = p • U

section Phase
variable {ι : Type*} [Fintype ι] {U V W U' V' : Matrix ι ι ℂ}

omit [Fintype ι] in
theorem SameUpToPhase.refl (U : Matrix ι ι ℂ) : SameUpToPhase U U :=
  ⟨1, norm_one, (one_smul ℂ U).symm⟩

omit [Fintype ι] in
theorem SameUpToPhase.trans (h : SameUpToPhase U V) (h' : SameUpToPhase V W) :
    SameUpToPhase U W := by
  obtain ⟨p, hp, rfl⟩ := h
  obtain ⟨p', hp', rfl⟩ := h'
  exact ⟨p' * p, by rw [norm_mul, hp, hp', one_mul], smul_smul p' p U⟩

omit [Fintype ι] in
theorem SameUpToPhase.smul (h : SameUpToPhase U V) (a : ℂ) : SameUpToPhase (a • U) (a • V) := by
  obtain ⟨p, hp, rfl⟩ := h
  exact ⟨p, hp, smul_comm a p U⟩

theorem SameUpToPhase.mul (h : SameUpToPhase U V) (h' : SameUpToPhase U' V') :
    SameUpToPhase (U * U') (V * V') := by
  obtain ⟨p, hp, rfl⟩ := h
  obtain ⟨p', hp', rfl⟩ := h'
  exact ⟨p * p', by rw [norm_mul, hp, hp', one_mul], by rw [smul_mul_smul_comm]⟩

end Phase

/-- The complex number of modulus one that a part of a turn leads to. -/
noncomputable def turn (x : ℝ) : ℂ := cis (Scalar.tau * x)

theorem turn_eq (x : ℝ) : turn x = cis (2 * Real.pi * x) := by rw [turn, real_tau]

@[simp] theorem turn_zero : turn 0 = 1 := by simp [turn]

theorem turn_add (x y : ℝ) : turn (x + y) = turn x * turn y := by
  rw [turn, mul_add, cis_add]
  rfl

/-- Whole turns lead nowhere. -/
theorem turn_add_natCast (x : ℝ) (k : ℕ) : turn (x + k) = turn x := by
  rw [turn_eq, turn_eq, mul_add]
  exact cis_add_turns _ k

/-- Whole multiples of the denominator make whole turns. -/
theorem turn_mod_div (a d : ℕ) (hd : 0 < d) : turn ((a % d : ℕ) / d) = turn (a / d) := by
  have hd' : (d : ℝ) ≠ 0 := by positivity
  have hsplit : (a : ℝ) / d = (a % d : ℕ) / d + (a / d : ℕ) := by
    conv_lhs => rw [← Nat.mod_add_div a d]
    push_cast
    field_simp
  rw [hsplit, turn_add_natCast]

section Stage
variable {width target m : ℕ}

theorem controlAngle_eq (h : m ≤ target) :
    cis (Scalar.pi / Scalar.powTwo (target - m)) = turn (2 ^ m / 2 ^ (target + 1)) := by
  obtain ⟨d, rfl⟩ := Nat.exists_eq_add_of_le h
  rw [Nat.add_sub_cancel_left, turn_eq, real_powTwo, real_pi]
  congr 1
  field_simp
  ring

/-- The turn of a state with the target set, by the first bits of the reversed state. -/
noncomputable def controlledTurn (width target count j : ℕ) : ℂ :=
  if bit width target j then
    turn ((reversed width j % 2 ^ count : ℕ) / (2 ^ (target + 1) : ℕ)) else 1

theorem controlledTurn_succ (h : target < width) (hm : m < target) (j : ℕ) :
    controlledTurn width target (m + 1) j =
      (if bit width target j ∧ bit width m j then
        cis (Scalar.pi / Scalar.powTwo (target - m)) else 1) * controlledTurn width target m j := by
  rw [controlledTurn, controlledTurn, controlAngle_eq hm.le, Register.mod_two_pow_succ,
    Register.testBit_reversed (by omega)]
  cases bit width target j <;> cases bit width m j <;> simp [← turn_add, ← add_div, add_comm]

/-- The controlled phases of a stage turn a set target by the first bits of the reversed state. -/
theorem chain_phaseGates (h : target < width) {count : ℕ} (hcount : count ≤ target) :
    SameUpToPhase
      (Matrix.diagonal fun j : Fin (2 ^ width) => controlledTurn width target count j)
      (chain width (phaseGates target count)) := by
  induction count with
  | zero => exact ⟨1, norm_one, by simp [phaseGates, controlledTurn, Nat.mod_one]⟩
  | succ count ih =>
    have hpair : Addresses width ([target] ++ [count]) := ⟨by simp; omega, by simp; omega⟩
    have hnew : SameUpToPhase _ _ := ⟨_, norm_cis _, chain_controlledPhaseGates hpair
      (Scalar.pi / Scalar.powTwo (target - count))⟩
    have hboth := hnew.mul (ih (by omega))
    rw [Matrix.diagonal_mul_diagonal, ← chain_append] at hboth
    rw [phaseGates, List.range_succ, List.flatMap_append, List.flatMap_singleton]
    simp only [controlledTurn_succ h hcount]
    exact hboth

/-- Entries of the Hadamard matrix without its factor. -/
theorem pauliX_add_pauliZ {r c : ℕ} (hr : r < 2) (hc : c < 2) :
    pauliX r c + pauliZ r c = turn (r * c / 2) := by
  have hhalf : turn (1 / 2) = -1 := by
    rw [turn_eq, show 2 * Real.pi * (1 / 2) = Real.pi by ring, cis_eq]
    simp
  interval_cases r <;> interval_cases c <;> simp [pauliX, pauliZ]
  simpa using hhalf.symm

theorem chain_stageGates (h : target < width) :
    SameUpToPhase
      (Matrix.diagonal (fun j : Fin (2 ^ width) => controlledTurn width target target j) *
        (√2 : ℂ)⁻¹ • (embed width [target] pauliX + embed width [target] pauliZ))
      (chain width (stageGates target)) := by
  have hqubit : Addresses width [target] := ⟨List.nodup_singleton target, by simpa using h⟩
  have hadamard : SameUpToPhase _ _ := ⟨-I, by simp, chain_hadamardGates hqubit⟩
  have hboth := (chain_phaseGates h le_rfl).mul hadamard
  rwa [← chain_append] at hboth

end Stage

section Partial
variable {width m j k s : ℕ}

/-- An entry of the transform of the qubits from `m` on, but for a factor. It keeps the qubits
before. -/
noncomputable def partialEntry (width m j k : ℕ) : ℂ :=
  if ∀ q < m, bit width q j = bit width q k then
    turn ((j % 2 ^ (width - m) : ℕ) * reversed width k / (2 ^ width : ℕ))
  else 0

noncomputable def partialFourier (width m : ℕ) : Matrix (Fin (2 ^ width)) (Fin (2 ^ width)) ℂ :=
  Matrix.of fun j k => partialEntry width m j k

/-- Without any qubit transformed nothing has happened. -/
theorem partialFourier_self (width : ℕ) : partialFourier width width = 1 := by
  ext j k
  rw [partialFourier, Matrix.of_apply, partialEntry, Matrix.one_apply]
  by_cases he : j = k
  · subst he
    simp [Nat.mod_one]
  · rw [if_neg he, if_neg fun hbits => he (Fin.ext (Register.eq_of_bit_eq j.isLt k.isLt hbits))]

theorem partialEntry_zero (j k : Fin (2 ^ width)) :
    partialEntry width 0 j k = turn (j * reversed width k / 2 ^ width) := by
  simp [partialEntry, Nat.mod_eq_of_lt j.isLt]

/-- The entries of a stage that meet a column of the transform so far: those that have the bit of
the column on the target. -/
theorem partialEntry_place (hm : m < width) (hs : s < 2) :
    partialEntry width (m + 1) (place width [m] j s) k =
      if s = (bit width m k).toNat then if ∀ q < m, bit width q j = bit width q k then
        turn ((j % 2 ^ (width - (m + 1)) : ℕ) * reversed width k / (2 ^ width : ℕ)) else 0
      else 0 := by
  have hqubit : Addresses width [m] := ⟨List.nodup_singleton m, by simpa using hm⟩
  have hself := Register.bit_place_self hqubit hs j
  have hother : ∀ p < width, p ≠ m → bit width p (place width [m] j s) = bit width p j :=
    fun p hp hne => Register.bit_place_of_ne hqubit hp hne
  have hlow : place width [m] j s % 2 ^ (width - (m + 1)) = j % 2 ^ (width - (m + 1)) := by
    rw [show width - (m + 1) = width - 1 - m by omega]
    exact Register.mod_congr fun q hq hmq => hother q hq hmq.ne'
  have hbits : (∀ q < m + 1, bit width q (place width [m] j s) = bit width q k) ↔
      s = (bit width m k).toNat ∧ ∀ q < m, bit width q j = bit width q k := by
    constructor
    · intro h
      refine ⟨hself.symm.trans (congrArg Bool.toNat (h m m.lt_succ_self)), fun q hq => ?_⟩
      rw [← hother q (by omega) hq.ne, h q (by omega)]
    · rintro ⟨htarget, h⟩ q hq
      by_cases hqm : q = m
      · subst hqm
        cases hj : bit width q (place width [q] j s) <;> cases hk : bit width q k <;>
          simp_all
      · rw [hother q (by omega) hqm, h q (by omega)]
  rw [partialEntry, hlow]
  simp only [hbits, ite_and]

/-- The phases of a stage together are those of the reversed column. -/
theorem stage_phase (hm : m < width) (h : ∀ q < m, bit width q j = bit width q k) :
    controlledTurn width m m j * turn ((bit width m j).toNat * (bit width m k).toNat / 2) =
      turn ((bit width m j).toNat * reversed width k / (2 ^ (m + 1) : ℕ)) := by
  unfold controlledTurn
  cases hbit : bit width m j with
  | false => simp
  | true =>
    have hcolumn := turn_mod_div (reversed width k) (2 ^ (m + 1)) (by positivity)
    rw [Register.mod_two_pow_succ, Register.testBit_reversed hm,
      ← Register.reversed_mod_congr hm.le h] at hcolumn
    simp only [if_true, Bool.toNat_true, Nat.cast_one, one_mul]
    rw [← turn_add, ← hcolumn]
    congr 1
    push_cast
    field_simp
    ring

/-- Of a row of the Hadamard matrix one entry meets the column. -/
theorem hadamard_row (hm : m < width) (j k : Fin (2 ^ width)) :
    ∑ l : Fin (2 ^ width), embed width [m] (fun r c => pauliX r c + pauliZ r c) j l *
        partialEntry width (m + 1) l k =
      if ∀ q < m, bit width q j = bit width q k then
        turn ((bit width m j).toNat * (bit width m k).toNat / 2) *
          turn ((j % 2 ^ (width - (m + 1)) : ℕ) * reversed width k / (2 ^ width : ℕ)) else 0 := by
  have hqubit : Addresses width [m] := ⟨List.nodup_singleton m, by simpa using hm⟩
  have hcolumn : (bit width m k).toNat < 2 := Bool.toNat_lt _
  have hrestrict : restrict width [m] j = (bit width m j).toNat := by simp [restrict]
  rw [Register.sum_embed_mul hqubit _ (fun l => partialEntry width (m + 1) l k) j,
    List.length_singleton, pow_one, Finset.sum_eq_single (bit width m k).toNat]
  · rw [partialEntry_place hm hcolumn, if_pos rfl, hrestrict,
      pauliX_add_pauliZ (Bool.toNat_lt _) hcolumn, mul_ite, mul_zero]
  · intro s hs hne
    rw [partialEntry_place hm (Finset.mem_range.mp hs), if_neg hne, mul_zero]
  · intro hmem
    exact (hmem (Finset.mem_range.mpr hcolumn)).elim

/-- The exponent of a column splits off the bit of the row that is transformed next. -/
theorem turn_split (hm : m < width) (j x : ℕ) :
    turn ((j % 2 ^ (width - m) : ℕ) * x / (2 ^ width : ℕ)) =
      turn ((bit width m j).toNat * x / (2 ^ (m + 1) : ℕ)) *
        turn ((j % 2 ^ (width - (m + 1)) : ℕ) * x / (2 ^ width : ℕ)) := by
  obtain ⟨d, rfl⟩ := Nat.exists_eq_add_of_lt hm
  have hbit : bit (m + d + 1) m j = j.testBit d := by
    rw [bit, show m + d + 1 - 1 - m = d by omega]
  rw [show m + d + 1 - m = d + 1 by omega, show m + d + 1 - (m + 1) = d by omega,
    Register.mod_two_pow_succ, hbit, ← turn_add]
  congr 1
  push_cast
  field_simp
  ring

/-- A stage transforms one more qubit. -/
theorem stage_mul_partialFourier (hm : m < width) :
    Matrix.diagonal (fun j : Fin (2 ^ width) => controlledTurn width m m j) *
        (embed width [m] pauliX + embed width [m] pauliZ) * partialFourier width (m + 1) =
      partialFourier width m := by
  ext j k
  rw [Matrix.mul_assoc, Matrix.diagonal_mul, Matrix.mul_apply, Register.embed_add]
  simp only [partialFourier, Matrix.of_apply]
  rw [hadamard_row hm, partialEntry]
  by_cases h : ∀ q < m, bit width q j = bit width q k
  · rw [if_pos h, if_pos h, turn_split hm, ← stage_phase hm h, mul_assoc]
  · rw [if_neg h, if_neg h, mul_zero]

end Partial

/-- The stages that are left complete the transform. -/
theorem chain_stages {width m : ℕ} (hm : m ≤ width) :
    SameUpToPhase ((√2 : ℂ)⁻¹ ^ m • partialFourier width 0)
      (chain width ((List.range m).reverse.flatMap stageGates) * partialFourier width m) := by
  -- The stages still to run stand on the left of what the others have made.
  induction m with
  | zero => simpa using SameUpToPhase.refl (partialFourier width 0)
  | succ m ih =>
    have hstage := (chain_stageGates hm).mul (.refl (partialFourier width (m + 1)))
    rw [mul_smul_comm, smul_mul_assoc, stage_mul_partialFourier hm] at hstage
    have hrest := (SameUpToPhase.refl (chain width ((List.range m).reverse.flatMap stageGates))).mul
      hstage
    rw [mul_smul_comm] at hrest
    rw [List.range_succ, List.reverse_append, List.reverse_singleton, List.singleton_append,
      List.flatMap_cons, chain_append, mul_assoc, pow_succ', mul_smul]
    exact ((ih (by omega)).smul _).trans hrest

theorem inv_sqrt_two_pow (n : ℕ) : (√2 : ℂ)⁻¹ ^ n = ((2 : ℝ) ^ (-(n : ℝ) / 2) : ℝ) := by
  have hreal : (√2 : ℝ)⁻¹ ^ n = (2 : ℝ) ^ (-(n : ℝ) / 2) := by
    rw [Real.sqrt_eq_rpow, ← Real.rpow_neg zero_le_two, ← Real.rpow_natCast,
      ← Real.rpow_mul zero_le_two]
    congr 1
    ring
  exact_mod_cast hreal

/-- The Fourier transform is built for every width. Up to a phase its unitary is the discrete
transform of the reversed states. -/
theorem fourier_unitary (n : ℕ) : ∃ (c : Circuit ℝ) (U : Operator (Amplitude ℝ)),
    Circuit.fourier n = .ok c ∧ c.width = n ∧ c.unitary = .ok U ∧ U.rows = 2 ^ n ∧ U.cols = 2 ^ n ∧
    ∃ p : ℂ, ‖p‖ = 1 ∧ ∀ j k : Fin (2 ^ n), (U.entry j k).toComplex =
      p * ((2 : ℝ) ^ (-(n : ℝ) / 2) : ℝ) *
        Complex.exp (2 * Real.pi * I * j * (BitVec.ofNat n k).reverse.toNat / 2 ^ n) := by
  obtain ⟨U, hU, hrows, hcols, hmatrix⟩ := (wellFormed_fourierGates n).hasUnitary
  obtain ⟨p, hp, hchain⟩ := chain_stages (le_refl n)
  rw [partialFourier_self, mul_one] at hchain
  refine ⟨_, U, Circuit.fourier_eq_ok n, rfl, hU, hrows, hcols, p, hp, fun j k => ?_⟩
  have hentry : U.toMatrix (2 ^ n) j k = (p • (√2 : ℂ)⁻¹ ^ n • partialFourier n 0) j k :=
    congrFun (congrFun (hmatrix.trans hchain) j) k
  rw [Operator.toMatrix_apply, Matrix.smul_apply, Matrix.smul_apply, smul_eq_mul, smul_eq_mul,
    partialFourier, Matrix.of_apply, partialEntry_zero, inv_sqrt_two_pow] at hentry
  rw [hentry, ← mul_assoc]
  congr 1
  rw [turn_eq, cis, reversed]
  push_cast
  ring_nf

end IonCircuit
