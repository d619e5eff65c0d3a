import IonCircuit.Proofs.ControlledPhase
import IonCircuit.Proofs.Equatorial
import IonCircuit.Proofs.GlobalPhase
import Mathlib.Analysis.SpecialFunctions.Trigonometric.Bounds

/-! Two rotations about y, each with a small excess over a whole turn, around an interaction. The
pass snaps the excess away. Of the largest entries of the unitary some are off by the excess and others are
not, so it matters to the comparison which of them the names of the qubits put last. -/
namespace IonCircuit
open Register (Addresses embed)
open Complex (I)
open Scalar (halfPi tau zeroBand)

section Product
variable {ι : Type*} [Fintype ι] [DecidableEq ι] {X Y B : Matrix ι ι ℂ}

theorem quarters_around_quarter (hX : X * X = 1) (hY : Y * Y = 1) (hYX : Y * X = -(X * Y))
    (hXB : Commute X B) (hYB : Commute Y B) (δ : ℝ) :
    rotation (Real.pi / 2) X * (rotation δ Y * (rotation (Real.pi / 2) (X * B) *
      (rotation δ Y * rotation (Real.pi / 2) X))) =
        -(√2 : ℂ)⁻¹ • (I • ((Real.cos δ : ℂ) • X + (Real.sin δ : ℂ) • Y) + B) := by
  set R := rotation (Real.pi / 2) X with hR
  have hRR : R * R = -I • X := by
    rw [hR, rotation_mul_rotation hX, add_halves, rotation_pi]
  have hY_R : R * (Y * R) = Y := by
    rw [hR, mul_rotation_of_anticommute hYX, ← mul_assoc, rotation_mul_rotation hX, add_neg_cancel,
      rotation_zero, one_mul]
  have hXB_Y : X * B * Y = -(Y * (X * B)) := by
    rw [mul_assoc, ← hYB.eq, ← mul_assoc, ← mul_assoc, hYX, neg_mul, neg_neg]
  have hXB_R : Commute (X * B) R := by
    have hcomm : Commute (X * B) X := (Commute.refl X).mul_left hXB.symm
    rw [hR, rotation_quarter]
    exact ((Commute.one_right _).sub_right (hcomm.smul_right I)).smul_right _
  have hmiddle : rotation δ Y * (rotation (Real.pi / 2) (X * B) * rotation δ Y) =
      (√2 : ℂ)⁻¹ • (rotation (δ + δ) Y - I • (X * B)) := by
    rw [rotation_quarter, smul_mul_assoc, mul_smul_comm, sub_mul, mul_sub, one_mul, smul_mul_assoc,
      mul_smul_comm, mul_rotation_of_anticommute hXB_Y, ← mul_assoc, rotation_mul_rotation hY,
      rotation_mul_rotation hY, add_neg_cancel, rotation_zero, one_mul]
  have hturned : R * (rotation (δ + δ) Y * R) =
      -(I • ((Real.cos δ : ℂ) • X + (Real.sin δ : ℂ) • Y)) := by
    have hhalf : (δ + δ) / 2 = δ := by ring
    rw [rotation_eq, hhalf, sub_mul, mul_sub, smul_mul_assoc, mul_smul_comm, one_mul, hRR,
      smul_mul_assoc, mul_smul_comm, hY_R]
    module
  have hfixed : R * (X * B * R) = -I • B := by
    rw [hXB_R.eq, ← mul_assoc, hRR, smul_mul_assoc, ← mul_assoc, hX, one_mul]
  calc _ = R * (rotation δ Y * (rotation (Real.pi / 2) (X * B) * rotation δ Y) * R) := by
        simp only [mul_assoc]
    _ = (√2 : ℂ)⁻¹ • (R * (rotation (δ + δ) Y * R) - I • (R * (X * B * R))) := by
        rw [hmiddle, smul_mul_assoc, mul_smul_comm, sub_mul, mul_sub, smul_mul_assoc, mul_smul_comm]
    _ = _ := by
        rw [hturned, hfixed, smul_smul, mul_neg, Complex.I_mul_I]
        module

end Product

/-- Quarter turns about x around rotations about y around an interaction. -/
noncomputable def snappedPair (a b : ℕ) (δ : ℝ) : List (Instruction ℝ) :=
  [⟨.rx halfPi, [a]⟩, ⟨.ry (tau + δ), [a]⟩, ⟨.rxx halfPi, [a, b]⟩, ⟨.ry (tau + δ), [a]⟩,
    ⟨.rx halfPi, [a]⟩]

/-- One of two qubits is flipped, the first with a phase that tells its states apart. -/
noncomputable def flipOne (width a b : ℕ) (δ : ℝ) : Matrix (Fin (2 ^ width)) (Fin (2 ^ width)) ℂ :=
  I • embed width [a] (equator δ) + embed width [b] pauliX

section Chain
variable {width a b : ℕ} {δ : ℝ} (h : Addresses width ([a] ++ [b]))
include h

theorem rotations_eq_flipOne (δ : ℝ) :
    rotation (Real.pi / 2) (embed width [a] pauliX) * (rotation δ (embed width [a] pauliY) *
      (rotation (Real.pi / 2) (embed width [a, b] pauliXX) * (rotation δ (embed width [a] pauliY) *
        rotation (Real.pi / 2) (embed width [a] pauliX)))) =
          -(√2 : ℂ)⁻¹ • flipOne width a b δ := by
  have haxis : embed width [a] (equator δ) = (Real.cos δ : ℂ) • embed width [a] pauliX +
      (Real.sin δ : ℂ) • embed width [a] pauliY := by
    rw [Register.embed_smul, Register.embed_smul, Register.embed_add]
    rfl
  rw [embed_pauliXX h, flipOne, haxis]
  exact quarters_around_quarter (embed_pauliX_mul_self h.left) (embed_pauliY_mul_self h.left)
    (embed_pauliY_mul_pauliX h.left) (Register.embed_comm h _ _).symm
    (Register.embed_comm h _ _).symm δ

theorem chain_snappedPair (δ : ℝ) :
    chain width (snappedPair a b δ) = -(√2 : ℂ)⁻¹ • flipOne width a b δ := by
  have hturn : rotation (tau + δ) (embed width [a] pauliY) =
      -rotation δ (embed width [a] pauliY) := by
    have hsplit : tau + δ = δ + 2 * Real.pi * (1 : ℤ) := by
      rw [real_tau]
      push_cast
      ring
    rw [hsplit, rotation_add_turns, zpow_one, neg_one_smul]
  simp only [snappedPair, chain_cons, chain_nil, one_mul, embedded_rx h.left,
    embedded_ry h.left, embedded_interaction h, hturn, real_halfPi, mul_assoc, neg_mul, mul_neg,
    neg_neg]
  exact rotations_eq_flipOne h δ

theorem chain_blocks_snappedPair (hδ : |δ| ≤ zeroBand) :
    chain width ((snappedPair a b δ).flatMap (·.block true)) =
      -(√2 : ℂ)⁻¹ • flipOne width a b 0 := by
  have hx : chain width (Instruction.block true ⟨.rx halfPi, [a]⟩) =
      rotation (Real.pi / 2) (embed width [a] pauliX) := by
    have hprincipal : principal (halfPi : ℝ) = Real.pi / 2 := by
      rw [real_halfPi]
      exact principal_of_mem (by linarith [Real.pi_pos]) (by linarith [Real.pi_pos])
    rw [Instruction.block, chain_cons, chain_nil, one_mul,
      embedded_turned ⟨rfl, h.left.nodup⟩ (by simp), hprincipal, equator_zero]
  have hy : chain width (Instruction.block true ⟨.ry (tau + δ), [a]⟩) = 1 := by
    have hprincipal : principal (tau + δ) = 0 := by
      refine principal_of_inBand ⟨fun hin => ?_, 1, ?_⟩
      · rw [real_tau] at hin
        linarith [hin.2, (abs_le.mp hδ).1, zeroBand_lt_pi]
      · simpa using hδ
    rw [Instruction.block, chain_cons, chain_nil, one_mul,
      embedded_turned ⟨rfl, h.left.nodup⟩ (by simp), hprincipal, rotation_zero]
  have hxx : chain width (Instruction.block true ⟨.rxx halfPi, [a, b]⟩) =
      rotation (Real.pi / 2) (embed width [a, b] pauliXX) := by
    have hpos := Real.pi_div_two_pos
    have hfold : QuarterTurn.ofFinite (halfPi : ℝ) = ⟨Real.pi / 2, false, false⟩ := by
      simp [QuarterTurn.ofFinite, QuarterTurn.ofSigned, abs_of_pos hpos, hpos.le]
    change chain width ((QuarterTurn.ofFinite halfPi).block true a b) = _
    rw [hfold, chain_quarterTurn_block h]
    simp [QuarterTurn.phase, QuarterTurn.angle]
  have hone := rotations_eq_flipOne h 0
  rw [rotation_zero, one_mul, one_mul] at hone
  simp only [snappedPair, List.flatMap_cons, List.flatMap_nil, chain_append, chain_nil, one_mul, hx,
    hy, hxx, mul_one, mul_assoc]
  exact hone

theorem wellFormed_snappedPair (δ : ℝ) : (⟨snappedPair a b δ, width⟩ : Circuit ℝ).WellFormed := by
  have ha : ∀ g : Gate ℝ, g.arity = 1 → (⟨g, [a]⟩ : Instruction ℝ).Fits width :=
    fun g hg => ⟨⟨hg.symm, h.left.nodup⟩, h.left.lt⟩
  have hab : (⟨.rxx halfPi, [a, b]⟩ : Instruction ℝ).Fits width := ⟨⟨rfl, h.nodup⟩, h.lt⟩
  simp only [Circuit.WellFormed, snappedPair, List.forall_mem_cons]
  exact ⟨ha _ rfl, ha _ rfl, hab, ha _ rfl, ha _ rfl, by simp⟩

omit h in
theorem reduced_snappedPair (δ : ℝ) : ∀ i ∈ snappedPair a b δ, i.Reduced := by
  simp [snappedPair, Instruction.Reduced, Instruction.kind, Gate.kind]

/-- The output differs by the excess and by nothing else. -/
theorem exists_equivalent_snappedPair (hδ : |δ| ≤ zeroBand) (t : ℝ) :
    ∃ U V : Operator (Amplitude ℝ), (U.rows = 2 ^ width ∧ U.cols = 2 ^ width) ∧
      (V.rows = 2 ^ width ∧ V.cols = 2 ^ width) ∧
      U.toMatrix (2 ^ width) = -(√2 : ℂ)⁻¹ • flipOne width a b δ ∧
      V.toMatrix (2 ^ width) = -(√2 : ℂ)⁻¹ • flipOne width a b 0 ∧
      (⟨snappedPair a b δ, width⟩ : Circuit ℝ).equivalent
        (Circuit.blocks true ⟨snappedPair a b δ, width⟩) t = .ok (U.phase? V t).isSome := by
  have hwf := wellFormed_snappedPair h δ
  obtain ⟨U, hU, hrows, hcols, hchain⟩ := hwf.hasUnitary
  obtain ⟨V, hV, hrows', hcols', hchain'⟩ := (hwf.blocks true).hasUnitary
  have hwidth : width = (Circuit.blocks true ⟨snappedPair a b δ, width⟩ : Circuit ℝ).width := rfl
  exact ⟨U, V, ⟨hrows, hcols⟩, ⟨hrows', hcols'⟩, hchain.trans (chain_snappedPair h δ),
    hchain'.trans (chain_blocks_snappedPair h hδ), Circuit.equivalent_of_unitary hwidth hU hV t⟩

end Chain

theorem equator_self (δ : ℝ) (r : ℕ) : equator δ r r = 0 := by
  simp [equator, pauliX, pauliY]

theorem equator_of_lt {r c : ℕ} (h : r < c) (δ : ℝ) : equator δ r c = cis (-δ) := by
  simp [equator, pauliX, pauliY, cis_eq, h.ne, h]

theorem equator_of_gt {r c : ℕ} (h : c < r) (δ : ℝ) : equator δ r c = cis δ := by
  simp [equator, pauliX, pauliY, cis_eq, h.ne', h.not_gt]

theorem norm_one_sub_cis_le (x : ℝ) : ‖1 - cis x‖ ≤ |x| := by
  rw [norm_sub_rev, cis, mul_comm]
  exact Real.norm_exp_I_mul_ofReal_sub_one_le

theorem norm_equator_sub_le (δ : ℝ) (r c : ℕ) : ‖equator 0 r c - equator δ r c‖ ≤ |δ| := by
  rcases lt_trichotomy r c with h | rfl | h
  · rw [equator_of_lt h, equator_of_lt h, neg_zero, cis_zero]
    exact (norm_one_sub_cis_le (-δ)).trans_eq (abs_neg δ)
  · simp [equator_self]
  · rw [equator_of_gt h, equator_of_gt h, cis_zero]
    exact norm_one_sub_cis_le δ

theorem norm_embed_le {width : ℕ} {qubits : List ℕ} {m : ℕ → ℕ → ℂ} {d : ℝ} (hd : 0 ≤ d)
    (h : ∀ r c, ‖m r c‖ ≤ d) (i j : Fin (2 ^ width)) : ‖embed width qubits m i j‖ ≤ d := by
  rw [Register.embed_apply]
  split
  · exact h _ _
  · simpa using hd

theorem embed_zero_of_two (m : ℕ → ℕ → ℂ) : embed 2 [0] m =
    !![m 0 0, 0, m 0 1, 0; 0, m 0 0, 0, m 0 1; m 1 0, 0, m 1 1, 0; 0, m 1 0, 0, m 1 1] := by
  ext i j
  fin_cases i <;> fin_cases j <;> rfl

theorem embed_one_of_two (m : ℕ → ℕ → ℂ) : embed 2 [1] m =
    !![m 0 0, m 0 1, 0, 0; m 1 0, m 1 1, 0, 0; 0, 0, m 0 0, m 0 1; 0, 0, m 1 0, m 1 1] := by
  ext i j
  fin_cases i <;> fin_cases j <;> rfl

theorem flipOne_first (δ : ℝ) : flipOne 2 0 1 δ =
    !![0, 1, I * cis (-δ), 0; 1, 0, 0, I * cis (-δ); I * cis δ, 0, 0, 1; 0, I * cis δ, 1, 0] := by
  rw [flipOne, embed_zero_of_two, embed_one_of_two]
  ext i j
  fin_cases i <;> fin_cases j <;> simp [equator_self, equator_of_lt, equator_of_gt, pauliX]

theorem flipOne_second (δ : ℝ) : flipOne 2 1 0 δ =
    !![0, I * cis (-δ), 1, 0; I * cis δ, 0, 0, 1; 1, 0, 0, I * cis (-δ); 0, 1, I * cis δ, 0] := by
  rw [flipOne, embed_zero_of_two, embed_one_of_two]
  ext i j
  fin_cases i <;> fin_cases j <;> simp [equator_self, equator_of_lt, equator_of_gt, pauliX]

theorem norm_flipOne_sub_le (width a b : ℕ) (δ : ℝ) (i j : Fin (2 ^ width)) :
    ‖flipOne width a b 0 i j - flipOne width a b δ i j‖ ≤ |δ| := by
  have hdiff : flipOne width a b 0 i j - flipOne width a b δ i j =
      I * embed width [a] (fun r c => equator 0 r c - equator δ r c) i j := by
    rw [← Register.embed_sub]
    simp only [flipOne, Matrix.smul_apply, Matrix.add_apply, Matrix.sub_apply, smul_eq_mul]
    ring
  rw [hdiff, norm_mul, Complex.norm_I, one_mul]
  exact norm_embed_le (abs_nonneg δ) (norm_equator_sub_le δ) i j

theorem norm_neg_inv_sqrt_two : ‖-(√2 : ℂ)⁻¹‖ = (√2)⁻¹ := by
  rw [norm_neg, norm_inv, Complex.norm_real, Real.norm_of_nonneg (Real.sqrt_nonneg 2)]

section Comparison
variable {U V : Operator (Amplitude ℝ)} {A A' : Matrix (Fin (2 ^ 2)) (Fin (2 ^ 2)) ℂ} {t : ℝ}

/-- When the entry before the last is the last of the largest, the phase is read off there. -/
theorem isSome_phase?_iff_of_last (hU : U.rows = 2 ^ 2 ∧ U.cols = 2 ^ 2)
    (hV : V.rows = 2 ^ 2 ∧ V.cols = 2 ^ 2) (hA : U.toMatrix (2 ^ 2) = A)
    (hA' : V.toMatrix (2 ^ 2) = A') (hmax : ∀ i j, ‖A i j‖ ≤ ‖A 3 2‖)
    (hlast : ‖A 3 3‖ < ‖A 3 2‖) : (U.phase? V t).isSome = true ↔
      t < ‖A 3 2‖ ∧ |‖A' 3 2 / A 3 2‖ - 1| ≤ t ∧
        ∀ i j, ‖A' i j - A' 3 2 / A 3 2 / ‖A' 3 2 / A 3 2‖ * A i j‖ ≤ t := by
  have hentry : ∀ i j : Fin (2 ^ 2), (U.entry i j).toComplex = A i j :=
    fun i j => congrFun (congrFun hA i) j
  have hentry' : ∀ i j : Fin (2 ^ 2), (V.entry i j).toComplex = A' i j :=
    fun i j => congrFun (congrFun hA' i) j
  have hshape : U.SameShape V := ⟨hU.1.trans hV.1.symm, hU.2.trans hV.2.symm⟩
  have hpivot : Operator.pivot? U.data.toList = some (U.entry 3 2, 3 * U.cols + 2) := by
    refine Operator.pivot?_eq_of_last (by omega) (by omega) (fun i hi j hj => ?_)
      fun i hi j hj hlater => ?_
    · rw [hU.1] at hi
      rw [hU.2] at hj
      exact (hentry ⟨i, hi⟩ ⟨j, hj⟩ ▸ hentry 3 2 ▸ hmax ⟨i, hi⟩ ⟨j, hj⟩ :)
    · rw [hU.2] at hlater
      obtain ⟨rfl, rfl⟩ : i = 3 ∧ j = 3 := by omega
      exact (hentry 3 3 ▸ hentry 3 2 ▸ hlast :)
  have hratio : (V.data.getD (3 * U.cols + 2) 0).toComplex / (U.entry 3 2).toComplex =
      A' 3 2 / A 3 2 := by
    rw [hshape.entry_eq]
    exact congrArg₂ (· / ·) (hentry' 3 2) (hentry 3 2)
  rw [Option.isSome_iff_exists]
  constructor
  · rintro ⟨p, hp⟩
    obtain ⟨x, k, r, hfound, rfl, hlarge, hone, hunit, hnear⟩ :=
      (Operator.phase?_eq_some_iff hshape).mp hp
    obtain ⟨rfl, rfl⟩ := Prod.mk.inj (Option.some.inj (hpivot.symm.trans hfound))
    rw [hratio] at hone hunit
    refine ⟨(hentry 3 2 ▸ hlarge :), hone, fun i j => ?_⟩
    have hij := hnear i (by omega) j (by omega)
    rwa [hunit, hentry, hentry'] at hij
  · rintro ⟨hlarge, hone, hnear⟩
    refine ⟨Amplitude.toComplex.symm (A' 3 2 / A 3 2 / ‖A' 3 2 / A 3 2‖),
      (Operator.phase?_eq_some_iff hshape).mpr ⟨_, _, _, hpivot, hratio.symm,
        (hentry 3 2 ▸ hlarge :), hone, RingEquiv.apply_symm_apply _ _, fun i hi j hj => ?_⟩⟩
    rw [hU.1] at hi
    rw [hU.2] at hj
    rw [RingEquiv.apply_symm_apply]
    exact (hentry ⟨i, hi⟩ ⟨j, hj⟩ ▸ hentry' ⟨i, hi⟩ ⟨j, hj⟩ ▸ hnear ⟨i, hi⟩ ⟨j, hj⟩ :)

end Comparison

section Tolerance
variable {U V : Operator (Amplitude ℝ)} {δ : ℝ} (hU : U.rows = 2 ^ 2 ∧ U.cols = 2 ^ 2)
  (hV : V.rows = 2 ^ 2 ∧ V.cols = 2 ^ 2) (hpos : 0 < δ) (hsmall : δ ≤ 1 / 4)
include hU hV hpos hsmall

/-- Read off an entry without the excess, the phase relates all others within it. -/
theorem phase?_flipOne_first (hA : U.toMatrix (2 ^ 2) = -(√2 : ℂ)⁻¹ • flipOne 2 0 1 δ)
    (hA' : V.toMatrix (2 ^ 2) = -(√2 : ℂ)⁻¹ • flipOne 2 0 1 0) :
    (U.phase? V δ).isSome = true := by
  have hlarge : δ < (√2)⁻¹ := by
    have hsqrt : √2 < 4 := by
      rw [Real.sqrt_lt' (by norm_num)]
      norm_num
    rw [lt_inv_comm₀ hpos (by positivity)]
    exact hsqrt.trans_le ((le_inv_comm₀ (by norm_num) hpos).mpr (by linarith))
  have hinv : (√2)⁻¹ ≤ 1 := inv_le_one_of_one_le₀ (Real.one_le_sqrt.mpr one_le_two)
  have hpivot : ∀ x, (-(√2 : ℂ)⁻¹ • flipOne 2 0 1 x) 3 2 = -(√2 : ℂ)⁻¹ :=
    fun x => by simp [flipOne_first]
  have hne : -(√2 : ℂ)⁻¹ ≠ 0 := by simp
  rw [isSome_phase?_iff_of_last hU hV hA hA', hpivot, hpivot, div_self hne]
  · refine ⟨by rwa [norm_neg_inv_sqrt_two], by simpa using hpos.le, fun i j => ?_⟩
    have hoff := norm_flipOne_sub_le 2 0 1 δ i j
    rw [norm_one, Complex.ofReal_one, div_one, one_mul, Matrix.smul_apply, Matrix.smul_apply,
      smul_eq_mul, smul_eq_mul, ← mul_sub, norm_mul, norm_neg_inv_sqrt_two]
    exact (mul_le_of_le_one_left (norm_nonneg _) hinv).trans (hoff.trans_eq (abs_of_pos hpos))
  · intro i j
    rw [flipOne_first]
    fin_cases i <;> fin_cases j <;> simp
  · simp [flipOne_first]

/-- Read off an entry with the excess, the phase is off by twice that at the opposite one. -/
theorem phase?_flipOne_second (hA : U.toMatrix (2 ^ 2) = -(√2 : ℂ)⁻¹ • flipOne 2 1 0 δ)
    (hA' : V.toMatrix (2 ^ 2) = -(√2 : ℂ)⁻¹ • flipOne 2 1 0 0) :
    (U.phase? V δ).isSome = false := by
  have hpivot : ∀ x, (-(√2 : ℂ)⁻¹ • flipOne 2 1 0 x) 3 2 = -(√2 : ℂ)⁻¹ * (I * cis x) :=
    fun x => by simp [flipOne_second]
  have hopposite : ∀ x, (-(√2 : ℂ)⁻¹ • flipOne 2 1 0 x) 0 1 = -(√2 : ℂ)⁻¹ * (I * cis (-x)) :=
    fun x => by simp [flipOne_second]
  have hratio : (-(√2 : ℂ)⁻¹ • flipOne 2 1 0 0) 3 2 / (-(√2 : ℂ)⁻¹ • flipOne 2 1 0 δ) 3 2 =
      cis (-δ) := by
    have hcis : cis (-δ) * cis δ = 1 := by rw [← cis_add, neg_add_cancel, cis_zero]
    have hne : -(√2 : ℂ)⁻¹ * (I * cis δ) ≠ 0 := by simp [right_ne_zero_of_mul_eq_one hcis]
    rw [hpivot, hpivot, cis_zero, div_eq_iff hne]
    linear_combination (√2 : ℂ)⁻¹ * I * hcis
  rw [Bool.eq_false_iff, Ne, isSome_phase?_iff_of_last hU hV hA hA', hratio]
  · rintro ⟨-, -, hnear⟩
    have hoff : (-(√2 : ℂ)⁻¹ • flipOne 2 1 0 0) 0 1 -
        cis (-δ) / ‖cis (-δ)‖ * (-(√2 : ℂ)⁻¹ • flipOne 2 1 0 δ) 0 1 =
          -(√2 : ℂ)⁻¹ * (I * (1 - cis (-(2 * δ)))) := by
      have hsplit : -(2 * δ) = -δ + -δ := by ring
      rw [hopposite, hopposite, hsplit, cis_add, norm_cis, neg_zero, cis_zero]
      push_cast
      ring
    have hle := hnear 0 1
    rw [hoff, norm_mul, norm_mul, norm_neg_inv_sqrt_two, Complex.norm_I, one_mul] at hle
    have him : (1 - cis (-(2 * δ))).im = Real.sin (2 * δ) := by
      rw [Complex.sub_im, Complex.one_im, cis, Complex.exp_ofReal_mul_I_im, Real.sin_neg, zero_sub,
        neg_neg]
    have hfar : Real.sin (2 * δ) ≤ ‖1 - cis (-(2 * δ))‖ :=
      him ▸ (le_abs_self _).trans (Complex.abs_im_le_norm _)
    have hsin : 2 * δ - (2 * δ) ^ 3 / 6 < Real.sin (2 * δ) :=
      Real.sin_gt_sub_cube (by positivity)
    have hsqrt : √2 < 3 / 2 := by
      rw [Real.sqrt_lt' (by norm_num)]
      norm_num
    have hbound : Real.sin (2 * δ) ≤ √2 * δ := by
      rw [inv_mul_le_iff₀ (by positivity)] at hle
      exact hfar.trans hle
    -- twice the excess, less its cube, exceeds the excess times the square root of two
    nlinarith [mul_pos hpos hpos]
  · intro i j
    rw [flipOne_second]
    fin_cases i <;> fin_cases j <;> simp
  · simp [flipOne_second]

end Tolerance

end IonCircuit
