import IonCircuit.Proofs.Preservation

/-! Rotations about x and y over the reals as equatorial ones. The principal angle lies in one
half-open turn, so angles that are whole turns apart have the same one, and each whole turn that
is taken out changes the sign of the unitary. -/
namespace IonCircuit
open Real (pi_pos)
variable {θ φ opposite : ℝ}

section Principal

/-- Outside the band the principal angle is the representative in `(-π, π]`. -/
theorem principal_eq_toIocMod (h : ¬ InBand θ) :
    principal θ = toIocMod Real.two_pi_pos (-Real.pi) θ := by
  unfold principal
  split
  · rename_i hin
    exact ((toIocMod_eq_self Real.two_pi_pos).mpr ⟨hin.1, by linarith [hin.2, real_pi]⟩).symm
  · rename_i hout
    obtain ⟨k, hk⟩ := exists_atan2_eq θ
    refine (if_neg fun hnear => h (inBand_iff.mpr ⟨hout, k, ?_⟩)).trans (atan2_eq_toIocMod θ)
    exact hk ▸ hnear

theorem principal_of_inBand (h : InBand θ) : principal θ = 0 := by
  obtain ⟨hout, k, hk⟩ := inBand_iff.mp h
  obtain ⟨m, hm⟩ := exists_atan2_eq θ
  obtain rfl : k = m := turns_eq_of_near hk (hm ▸ abs_atan2_le _ _)
  have hnear : Scalar.abs (Trig.atan2 (Trig.sin θ) (Trig.cos θ)) ≤ (Scalar.zeroBand : ℝ) := hm ▸ hk
  exact (if_neg hout).trans (if_pos hnear)

theorem principal_mem_Ioc (θ : ℝ) : -Real.pi < principal θ ∧ principal θ ≤ Real.pi := by
  by_cases h : InBand θ
  · rw [principal_of_inBand h]
    exact ⟨neg_lt_zero.mpr pi_pos, pi_pos.le⟩
  · rw [principal_eq_toIocMod h]
    obtain ⟨hlow, hhigh⟩ := toIocMod_mem_Ioc Real.two_pi_pos (-Real.pi) θ
    exact ⟨hlow, by linarith⟩

theorem exists_principal_eq (h : ¬ InBand θ) :
    ∃ k : ℤ, θ = principal θ + 2 * Real.pi * k := by
  obtain ⟨k, hk⟩ := exists_snap_eq θ
  exact ⟨k, (snap_of_not_inBand h).symm.trans hk⟩

theorem principal_of_mem (hlow : -Real.pi < θ) (hhigh : θ ≤ Real.pi) : principal θ = θ :=
  if_pos ⟨hlow, hhigh⟩

theorem principal_add_turns {k : ℤ} (h : ¬ InBand θ) (h' : ¬ InBand (θ + 2 * Real.pi * k)) :
    principal (θ + 2 * Real.pi * k) = principal θ := by
  have hturns : θ + 2 * Real.pi * k = θ + k • (2 * Real.pi) := by
    rw [zsmul_eq_mul, mul_comm]
  rw [principal_eq_toIocMod h, principal_eq_toIocMod h', hturns, toIocMod_add_zsmul]

/-- Of the angles in `(-π, π]` only zero itself is taken for zero. -/
theorem principal_eq_zero_iff : principal θ = 0 ↔ θ = 0 ∨ InBand θ := by
  constructor
  · intro hzero
    by_cases hin : -Real.pi < θ ∧ θ ≤ Real.pi
    · exact .inl (principal_of_mem hin.1 hin.2 ▸ hzero)
    · by_contra hnot
      obtain ⟨k, hk⟩ := exists_principal_eq fun hband : InBand θ => hnot (.inr hband)
      refine hnot (.inr (inBand_iff.mpr ⟨hin, k, ?_⟩))
      rw [hk, hzero, zero_add]
      exact near_turns k
  · rintro (rfl | hband)
    · exact principal_of_mem (neg_lt_zero.mpr pi_pos) pi_pos.le
    · exact principal_of_inBand hband

end Principal

/-- A gate on its own qubits is the rotation about its axis. -/
theorem Gate.toMatrix_eq_rotation {g : Gate ℝ} {n : ℕ} (hn : n = 2 ^ g.arity) :
    g.matrix.toMatrix n = rotation g.theta (Matrix.of fun r c : Fin n => g.axis r c) := by
  ext r c
  have hentry : (g.matrix.entry r c).toComplex = _ :=
    Gate.entry_eq g (hn ▸ r.isLt) (hn ▸ c.isLt)
  rw [Operator.toMatrix_apply, hentry, rotation_eq]
  simp [Matrix.one_apply, Fin.ext_iff]

namespace Gate

theorem turned_eq (θ φ opposite : ℝ) : Gate.turned θ φ opposite =
    .r |principal θ| (if principal θ < 0 then opposite else φ) := by
  unfold Gate.turned
  split
  · rename_i hneg
    rw [abs_of_neg hneg]
  · rfl

theorem toMatrix_turned (ho : equator opposite = -equator φ) (θ : ℝ) :
    (Gate.turned θ φ opposite).matrix.toMatrix 2 =
      rotation (principal θ) (Matrix.of fun r c : Fin 2 => equator φ r c) := by
  have hr : ∀ θ' φ', (Gate.r θ' φ').matrix.toMatrix 2 =
      rotation θ' (Matrix.of fun r c : Fin 2 => equator φ' r c) :=
    fun _ _ => Gate.toMatrix_eq_rotation rfl
  unfold Gate.turned
  split
  · rw [hr, ho]
    exact rotation_neg _ _
  · rename_i hneg
    rw [hr, real_abs, abs_of_nonneg (not_lt.mp hneg)]

/-- Each whole turn that the principal angle leaves out is a sign. -/
theorem toMatrix_turned_of_turns (ho : equator opposite = -equator φ) {k : ℤ}
    (hk : θ = principal θ + 2 * Real.pi * k) : (Gate.turned θ φ opposite).matrix.toMatrix 2 =
      (-1 : ℂ) ^ k • rotation θ (Matrix.of fun r c : Fin 2 => equator φ r c) := by
  rw [toMatrix_turned ho]
  conv_rhs => rw [hk, rotation_add_turns, smul_smul, ← mul_zpow, neg_one_mul, neg_neg,
    one_zpow, one_smul]

/-- The equatorial rotation by `t` about the axis at `ψ` is what a rotation by `θ` becomes. Its
axis is the one at `φ`, or the opposite one for an angle strictly between none and a half turn. -/
structure NormalForm (rotate : ℝ → Gate ℝ) (normal : ℝ → Except (Error ℝ) (Gate ℝ))
    (φ opposite θ t ψ : ℝ) : Prop where
  eq_ok : normal θ = .ok (.r t ψ)
  nonneg : 0 ≤ t
  le_pi : t ≤ Real.pi
  axis : ψ = φ ∨ ψ = opposite ∧ 0 < t ∧ t < Real.pi
  unchanged : 0 ≤ θ → θ ≤ Real.pi → t = θ ∧ ψ = φ
  turns : ¬ InBand θ → ∃ k : ℤ,
    (ψ = φ ∧ θ = t + 2 * Real.pi * k ∨ ψ = opposite ∧ θ = -t + 2 * Real.pi * k) ∧
      (Gate.r t ψ).matrix.toMatrix 2 = (-1 : ℂ) ^ k • (rotate θ).matrix.toMatrix 2
  periodic : ¬ InBand θ → ∀ m : ℤ, ¬ InBand (θ + 2 * Real.pi * m) →
    normal (θ + 2 * Real.pi * m) = normal θ
  zero_iff : t = 0 ↔ θ = 0 ∨ InBand θ

/-- Whatever the axis, turning by the principal angle about it is the normal form. -/
theorem exists_normalForm {rotate : ℝ → Gate ℝ} {normal : ℝ → Except (Error ℝ) (Gate ℝ)}
    (hnormal : ∀ θ, normal θ = .ok (.turned θ φ opposite)) (ho : equator opposite = -equator φ)
    (hrotate : ∀ θ, (rotate θ).matrix.toMatrix 2 =
      rotation θ (Matrix.of fun r c : Fin 2 => equator φ r c)) (θ : ℝ) :
    ∃ t ψ, NormalForm rotate normal φ opposite θ t ψ := by
  obtain ⟨hlow, hhigh⟩ := principal_mem_Ioc θ
  have hforward : ¬ principal θ < 0 → |principal θ| = principal θ :=
    fun hneg => abs_of_nonneg (not_lt.mp hneg)
  refine ⟨|principal θ|, if principal θ < 0 then opposite else φ, ?_⟩
  constructor
  case eq_ok => exact (hnormal θ).trans (congrArg Except.ok (turned_eq θ φ opposite))
  case nonneg => exact abs_nonneg _
  case le_pi => exact abs_le.mpr ⟨hlow.le, hhigh⟩
  case axis =>
    by_cases hneg : principal θ < 0
    · rw [if_pos hneg, abs_of_neg hneg]
      exact .inr ⟨rfl, by linarith, by linarith⟩
    · exact .inl (if_neg hneg)
  case unchanged =>
    intro h0 hpi
    rw [principal_of_mem (by linarith [pi_pos]) hpi, abs_of_nonneg h0, if_neg (not_lt.mpr h0)]
    exact ⟨rfl, rfl⟩
  case turns =>
    intro hband
    obtain ⟨k, hk⟩ := exists_principal_eq hband
    refine ⟨k, ?_, ?_⟩
    · by_cases hneg : principal θ < 0
      · rw [if_pos hneg, abs_of_neg hneg, neg_neg]
        exact .inr ⟨rfl, hk⟩
      · rw [if_neg hneg, hforward hneg]
        exact .inl ⟨rfl, hk⟩
    · rw [← turned_eq, toMatrix_turned_of_turns ho hk, hrotate]
  case periodic =>
    intro hband m hband'
    rw [hnormal, hnormal, Gate.turned, Gate.turned, principal_add_turns hband hband']
  case zero_iff => rw [abs_eq_zero, principal_eq_zero_iff]

end Gate

/-- Rotations about x and y have one normal form: at most a half turn, forward, with the opposite
axis only strictly in between. Outside the band it has their unitary up to a sign for each whole
turn, and only angles within the band lose a rotation that is not zero. -/
theorem Gate.ofX_ofY_normalForm (θ : ℝ) :
    (∃ t φ, Gate.NormalForm .rx Gate.ofX 0 Real.pi θ t φ) ∧
      ∃ t φ, Gate.NormalForm .ry Gate.ofY (Real.pi / 2) (3 * (Real.pi / 2)) θ t φ := by
  constructor
  · refine Gate.exists_normalForm (fun _ => equatorial_of_finite rfl) (by simp) (fun θ => ?_) θ
    rw [equator_zero]
    exact Gate.toMatrix_eq_rotation rfl
  · refine Gate.exists_normalForm (fun θ => ?_) (by simp) (fun θ => ?_) θ
    · rw [← real_threeHalfPi, ← real_halfPi]
      exact equatorial_of_finite rfl
    · rw [equator_half_pi]
      exact Gate.toMatrix_eq_rotation rfl

/-- Seven fifths of a half turn become three fifths the other way about x, one turn less. -/
theorem Gate.ofX_ofY_normalForm_of_reflex :
    Gate.ofX (7 * (Real.pi / 5)) = .ok (.r (3 * (Real.pi / 5)) Real.pi) ∧
      (Gate.r (3 * (Real.pi / 5)) Real.pi).matrix.toMatrix 2 =
        -(Gate.rx (7 * (Real.pi / 5))).matrix.toMatrix 2 := by
  have hpos := pi_pos
  have hband : ¬ InBand (7 * (Real.pi / 5)) := by
    intro h
    obtain ⟨-, k, hk⟩ := inBand_iff.mp h
    have hone : |7 * (Real.pi / 5) - 2 * Real.pi * (1 : ℤ)| ≤ Real.pi := by
      rw [abs_le, Int.cast_one]
      constructor <;> linarith
    obtain rfl := turns_eq_of_near hk hone
    rw [real_zeroBand, Int.cast_one, abs_le] at hk
    have hsmall : (1 / 2 ^ 46 : ℝ) < 1 := by norm_num
    linarith [hk.1, Real.two_le_pi]
  obtain ⟨t, φ, h⟩ := (Gate.ofX_ofY_normalForm (7 * (Real.pi / 5))).1
  have hnonneg := h.nonneg
  have hpi := h.le_pi
  obtain ⟨k, ⟨-, hk⟩ | ⟨rfl, hk⟩, hmatrix⟩ := h.turns hband
  · have hlow : (0 : ℝ) < k := by nlinarith
    have hhigh : (k : ℝ) < 1 := by nlinarith
    have hlow : 0 < k := by exact_mod_cast hlow
    have hhigh : k < 1 := by exact_mod_cast hhigh
    omega
  · have hlow : (0 : ℝ) < k := by nlinarith
    have hhigh : (k : ℝ) < 2 := by nlinarith
    have hlow : 0 < k := by exact_mod_cast hlow
    have hhigh : k < 2 := by exact_mod_cast hhigh
    obtain rfl : k = 1 := by omega
    rw [Int.cast_one] at hk
    obtain rfl : t = 3 * (Real.pi / 5) := by linarith
    exact ⟨h.eq_ok, by rw [hmatrix, zpow_one, neg_one_smul]⟩

end IonCircuit
