import IonCircuit.Circuit
import IonCircuit.Proofs.Reals
import IonCircuit.QuarterTurn
import Mathlib.Algebra.Order.Round

/-! What the reductions of an angle keep of it, over the reals. -/
namespace IonCircuit
open Scalar (zeroBand tau halfPi threeHalfPi)
open Real (pi_pos)
variable {θ : ℝ} {k m : ℤ}

/-- The angle is to be reduced and lies so close to a whole number of turns that it counts
as one. -/
def InBand (θ : ℝ) : Prop :=
  ¬ (-Real.pi < θ ∧ θ ≤ Real.pi) ∧ ∃ k : ℤ, |θ - tau * k| ≤ zeroBand

open Classical in
/-- The angle as the reduction reads it: a whole number of turns within the band. -/
noncomputable def snap (θ : ℝ) : ℝ :=
  if InBand θ then tau * round (θ / tau) else θ

theorem zeroBand_pos : (0 : ℝ) < zeroBand := by
  rw [real_zeroBand]
  positivity

theorem zeroBand_lt_pi : (zeroBand : ℝ) < Real.pi := by
  have hband : (zeroBand : ℝ) < 1 := by
    rw [real_zeroBand]
    norm_num
  linarith [Real.two_le_pi]

/-- Only one whole number of turns is within the band. -/
theorem turns_eq_of_near (hk : |θ - 2 * Real.pi * k| ≤ zeroBand)
    (hm : |θ - 2 * Real.pi * m| ≤ Real.pi) : k = m := by
  rw [abs_le] at hk hm
  have hband := zeroBand_lt_pi
  have hpos := pi_pos
  have hlow : (-1 : ℝ) < k - m := by nlinarith
  have hhigh : (k - m : ℝ) < 1 := by nlinarith
  have hlow : -1 < k - m := by exact_mod_cast hlow
  have hhigh : k - m < 1 := by exact_mod_cast hhigh
  omega

theorem abs_sub_turns_round_le (θ : ℝ) :
    |θ - 2 * Real.pi * round (θ / (2 * Real.pi))| ≤ Real.pi := by
  have hround := abs_sub_round (θ / (2 * Real.pi))
  have hpos := Real.two_pi_pos
  have hsplit : θ - 2 * Real.pi * round (θ / (2 * Real.pi)) =
      2 * Real.pi * (θ / (2 * Real.pi) - round (θ / (2 * Real.pi))) := by
    field_simp
  rw [hsplit, abs_mul, abs_of_pos hpos]
  nlinarith

theorem inBand_iff : InBand θ ↔
    ¬ (-Real.pi < θ ∧ θ ≤ Real.pi) ∧ ∃ k : ℤ, |θ - 2 * Real.pi * k| ≤ zeroBand := by
  rw [InBand, real_tau]

theorem snap_of_not_inBand (h : ¬ InBand θ) : snap θ = θ := if_neg h

theorem snap_of_near (hout : ¬ (-Real.pi < θ ∧ θ ≤ Real.pi))
    (hk : |θ - 2 * Real.pi * k| ≤ zeroBand) : snap θ = 2 * Real.pi * k := by
  rw [snap, if_pos (inBand_iff.mpr ⟨hout, k, hk⟩), real_tau,
    turns_eq_of_near hk (abs_sub_turns_round_le θ)]

theorem near_turns (k : ℤ) : |2 * Real.pi * k - 2 * Real.pi * k| ≤ zeroBand := by
  rw [sub_self, abs_zero]
  exact zeroBand_pos.le

theorem inBand_turns (hk : k ≠ 0) : InBand (2 * Real.pi * k) := by
  refine inBand_iff.mpr ⟨?_, k, near_turns k⟩
  rintro ⟨hlow, hhigh⟩
  have hpos := pi_pos
  have hlow : (-1 : ℝ) < k := by nlinarith
  have hhigh : (k : ℝ) < 1 := by nlinarith
  have hlow : -1 < k := by exact_mod_cast hlow
  have hhigh : k < 1 := by exact_mod_cast hhigh
  omega

/-- A whole number of turns stays as it is, in the band or not. -/
theorem snap_turns (k : ℤ) : snap (2 * Real.pi * k) = 2 * Real.pi * k := by
  by_cases h : InBand (2 * Real.pi * k)
  · exact snap_of_near h.1 (near_turns k)
  · exact snap_of_not_inBand h

/-- The angle of a direction is the representative in `(-π, π]`. -/
theorem atan2_eq_toIocMod (θ : ℝ) :
    Trig.atan2 (Trig.sin θ) (Trig.cos θ) = toIocMod Real.two_pi_pos (-Real.pi) θ := by
  have hpoint : (⟨Trig.cos θ, Trig.sin θ⟩ : ℂ) = Complex.cos θ + Complex.sin θ * Complex.I := by
    apply Complex.ext <;> simp [Complex.cos_ofReal_re, Complex.sin_ofReal_re]
  change Complex.arg ⟨Trig.cos θ, Trig.sin θ⟩ = _
  rw [hpoint, Complex.arg_cos_add_sin_mul_I_eq_toIocMod]

/-- The direction of an angle gives it back up to whole turns. -/
theorem exists_atan2_eq (θ : ℝ) :
    ∃ k : ℤ, θ - 2 * Real.pi * k = Trig.atan2 (Trig.sin θ) (Trig.cos θ) :=
  ⟨toIocDiv Real.two_pi_pos (-Real.pi) θ, by
    rw [atan2_eq_toIocMod, toIocMod, zsmul_eq_mul, mul_comm]⟩

theorem abs_atan2_le (y x : ℝ) : |(Trig.atan2 y x : ℝ)| ≤ Real.pi :=
  abs_le.mpr ⟨(Complex.neg_pi_lt_arg _).le, Complex.arg_le_pi _⟩

/-- The principal angle is the snapped one up to whole turns. -/
theorem exists_snap_eq (θ : ℝ) : ∃ k : ℤ, snap θ = principal θ + 2 * Real.pi * k := by
  unfold principal
  split
  · rename_i hin
    exact ⟨0, by simp [snap_of_not_inBand fun h : InBand θ => h.1 hin]⟩
  · rename_i hout
    obtain ⟨k, hk⟩ := exists_atan2_eq θ
    dsimp only
    rw [← hk, real_abs]
    split
    · rename_i hnear
      exact ⟨k, by rw [snap_of_near hout hnear, zero_add]⟩
    · rename_i hfar
      refine ⟨k, ?_⟩
      have hband : ¬ InBand θ := by
        intro h
        obtain ⟨-, m, hm⟩ := inBand_iff.mp h
        rw [turns_eq_of_near hm (hk ▸ abs_atan2_le _ _)] at hm
        exact hfar hm
      rw [snap_of_not_inBand hband, sub_add_cancel]

namespace QuarterTurn

/-- The angle that a folded one stands for. -/
noncomputable def angle (turn : QuarterTurn ℝ) : ℝ :=
  (if turn.backward then -turn.magnitude else turn.magnitude) +
    if turn.halfTurn then Real.pi else 0

theorem angle_ofSigned {rest : ℝ} (halfTurn : Bool) (h : |rest| ≤ Real.pi / 2) :
    (ofSigned halfTurn rest).angle = rest + if halfTurn then Real.pi else 0 := by
  have hmag : (ofSigned halfTurn rest).magnitude = |rest| := by
    rw [ofSigned, real_abs, real_halfPi, if_pos h]
  rw [angle, hmag, ofSigned]
  by_cases hneg : rest < 0
  · simp [hneg, abs_of_neg hneg]
  · simp [hneg, abs_of_nonneg (not_lt.mp hneg)]

/-- Folding changes an angle by whole turns only. -/
theorem exists_angle_ofFinite (θ : ℝ) :
    ∃ k : ℤ, θ = (ofFinite θ).angle + 2 * Real.pi * k := by
  have hpos := Real.two_pi_pos
  have hrem : Scalar.remainder θ tau = θ - 2 * Real.pi * ⌊θ / (2 * Real.pi)⌋ := by
    rw [real_tau]
    rfl
  have hlow := Int.sub_floor_div_mul_nonneg θ hpos
  have hhigh := Int.sub_floor_div_mul_lt θ hpos
  rw [mul_comm] at hlow hhigh
  unfold ofFinite
  rw [hrem]
  simp only [real_abs, real_halfPi, real_threeHalfPi, real_pi, real_tau]
  split
  · rename_i h
    exact ⟨0, by simp [angle_ofSigned _ h]⟩
  · split
    · rename_i h
      refine ⟨⌊θ / (2 * Real.pi)⌋, ?_⟩
      rw [angle_ofSigned _ (abs_le.mpr ⟨by linarith, h⟩)]
      simp
    · rename_i hquarter
      split
      · rename_i h
        refine ⟨⌊θ / (2 * Real.pi)⌋, ?_⟩
        rw [angle_ofSigned _ (abs_le.mpr ⟨by linarith, by linarith⟩)]
        simp
      · rename_i h
        refine ⟨⌊θ / (2 * Real.pi)⌋ + 1, ?_⟩
        rw [angle_ofSigned _ (abs_le.mpr ⟨by linarith, by linarith⟩)]
        push_cast
        simp
        ring

end QuarterTurn

end IonCircuit
