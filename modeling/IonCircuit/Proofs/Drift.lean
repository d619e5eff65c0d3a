import IonCircuit.Proofs.Binary64.Arithmetic
import IonCircuit.Proofs.Binary64.Lawful
import IonCircuit.Proofs.Snap

/-! Folding takes out whole turns as doubles count them. A double turn is a little shorter
than a real one, so the folded angle of a double drifts with the turns taken out. -/
namespace IonCircuit
open Binary64 (value)
open Scalar (isFinite halfPi tau threeHalfPi)
variable {θ : Float} {q : ℤ} {ε : ℝ}

/-- The turn with its magnitude as a real number. -/
noncomputable def QuarterTurn.toReal (turn : QuarterTurn Float) : QuarterTurn ℝ :=
  ⟨value turn.magnitude, turn.halfTurn, turn.backward⟩

/-- The folded angle is the given one up to whole turns and `1e-8`. -/
def QuarterTurn.Keeps (turn : QuarterTurn Float) (θ : Float) : Prop :=
  ∃ k : ℤ, |value θ - turn.toReal.angle - tau * k| ≤ 1e-8

/-- By how much `π` exceeds the nearest double. -/
noncomputable def piExcess : ℝ := Real.pi - value Binary64.pi

/-- The half turns that folding takes out of an angle: the nearest number of them, of two
the smaller. -/
noncomputable def halfTurns (x : ℝ) : ℤ := -round (-(x / value Binary64.pi))

theorem piExcess_gt : 1.22461e-16 < piExcess := by
  rw [piExcess, Binary64.value_pi]
  linarith [Real.pi_gt_d20]

theorem piExcess_lt : piExcess < 1.22473e-16 := by
  rw [piExcess, Binary64.value_pi]
  linarith [Real.pi_lt_d20]

theorem value_pi_gt : 3.14159 < value Binary64.pi := by
  rw [Binary64.value_pi]
  norm_num

theorem value_pi_lt : value Binary64.pi < 3.1416 := by
  rw [Binary64.value_pi]
  norm_num

section Boundaries
variable (hθ : isFinite θ = true)
include hθ

theorem lt_zero_iff : θ < 0 ↔ value θ < 0 := by
  rw [Binary64.lt_iff_value hθ Binary64.isFinite_zero, Binary64.value_zero]

theorem le_halfPi_iff : θ ≤ halfPi ↔ value θ ≤ value Binary64.pi / 2 := by
  rw [Binary64.le_iff_value hθ rfl, Binary64.value_halfPi]

theorem le_threeHalfPi_iff : θ ≤ threeHalfPi ↔ value θ ≤ 3 * (value Binary64.pi / 2) := by
  rw [Binary64.le_iff_value hθ rfl, Binary64.value_threeHalfPi]

theorem abs_le_halfPi_iff : Scalar.abs θ ≤ halfPi ↔ |value θ| ≤ value Binary64.pi / 2 := by
  rw [← Binary64.value_abs]
  exact le_halfPi_iff (Binary64.isFinite_abs.trans hθ)

end Boundaries

theorem value_abs_tau : value (tau : Float).abs = 2 * value Binary64.pi := by
  rw [Binary64.value_abs, Binary64.value_tau, abs_of_pos (mul_pos two_pos Binary64.value_pi_pos)]

theorem isFinite_abs_tau : isFinite (tau : Float).abs = true := rfl

theorem exists_tau_multiple : ∃ k : ℤ, 2 * value Binary64.pi = k * 2 ^ (-50 : ℤ) :=
  ⟨7074237752028440, by rw [Binary64.value_pi]; norm_num⟩

/-- What is left of an angle after removing whole turns. Only the sum that makes the
remainder of a small negative angle positive is rounded. -/
structure Reduces (θ rest : Float) (q : ℤ) (ε : ℝ) : Prop where
  finite : isFinite rest = true
  nonneg : 0 ≤ value rest
  le : value rest ≤ 2 * value Binary64.pi
  eq : value rest = value θ - q * (2 * value Binary64.pi) + ε
  small : |ε| ≤ 1e-15
  exact : 0 ≤ value θ ∨ 4 ≤ |value θ| → ε = 0 ∧ value rest < 2 * value Binary64.pi

section Lift
variable {r : Float} (hr : isFinite r = true) (hlow : -(2 * value Binary64.pi) < value r)
  (hneg : value r < 0)
include hr hlow hneg

/-- Adding a turn to a negative remainder rounds in the last place at most. -/
theorem value_lift : isFinite (r + (tau : Float).abs) = true ∧
    |value (r + (tau : Float).abs) - (value r + 2 * value Binary64.pi)| ≤ 1e-15 := by
  have hbound : |value r + value (tau : Float).abs| < 2 ^ (-50 + 53 : ℤ) := by
    rw [value_abs_tau, abs_of_pos (by linarith)]
    have := value_pi_lt
    norm_num
    linarith
  obtain ⟨hfin, herror⟩ :=
    Binary64.value_add hr isFinite_abs_tau (by norm_num) (by norm_num) hbound
  rw [value_abs_tau] at herror
  exact ⟨hfin, herror.trans (by norm_num)⟩

/-- The sum is exact if the remainder is no finer than a turn. -/
theorem value_lift_exact {k : ℤ} (hk : value r = k * 2 ^ (-50 : ℤ)) :
    value (r + (tau : Float).abs) = value r + 2 * value Binary64.pi := by
  obtain ⟨j, hj⟩ := exists_tau_multiple
  have hsum : value r + value (tau : Float).abs = ((k + j : ℤ) : ℝ) * 2 ^ (-50 : ℤ) := by
    rw [value_abs_tau, hk, hj]
    push_cast
    ring
  have hlt : |k + j| < 2 ^ 53 := by
    have hbound : |((k + j : ℤ) : ℝ) * 2 ^ (-50 : ℤ)| < 8 := by
      rw [← hsum, value_abs_tau, abs_of_pos (by linarith)]
      linarith [value_pi_lt]
    rw [abs_mul, ← Int.cast_abs] at hbound
    norm_num at hbound
    have hlt : ((|k + j| : ℤ) : ℝ) < 2 ^ 53 := by
      norm_num
      linarith
    exact_mod_cast hlt
  rw [(Binary64.value_add_exact hr isFinite_abs_tau hsum hlt (by norm_num) (by norm_num)).2,
    value_abs_tau]

variable (hq : value r = value θ - q * (2 * value Binary64.pi))
include hq

/-- No digit of a large angle is finer than the last one of a turn, so the sum is exact. -/
theorem reduces_of_far (hθ : isFinite θ = true) (hfar : 4 ≤ |value θ|) :
    Reduces θ (r + (tau : Float).abs) (q - 1) 0 := by
  have hfour : (2 : ℝ) ^ (-50 + 52 : ℤ) ≤ |value θ| := by
    norm_num
    exact hfar
  obtain ⟨k, hk⟩ := Binary64.exists_multiple hθ hfour
  obtain ⟨j, hj⟩ := exists_tau_multiple
  have hmultiple : value r = ((k - q * j : ℤ) : ℝ) * 2 ^ (-50 : ℤ) := by
    rw [hq, hj, hk]
    push_cast
    ring
  have hexact := value_lift_exact hr hlow hneg hmultiple
  refine ⟨(value_lift hr hlow hneg).1, by linarith, by linarith, ?_, by norm_num,
    fun _ => ⟨rfl, by linarith⟩⟩
  rw [hexact, hq]
  push_cast
  ring

/-- Nothing was taken out of a small angle yet, and the sum may round. -/
theorem exists_reduces_of_near (hout : value Binary64.pi / 2 < |value θ|) (hx : value θ < 0)
    (hfar : ¬ 4 ≤ |value θ|) :
    ∃ ε, Reduces θ (r + (tau : Float).abs) (-1) ε := by
  have hpi := value_pi_gt
  obtain ⟨hfin, herror⟩ := value_lift hr hlow hneg
  have hsmall : -4 < value θ := by
    rw [abs_of_neg hx] at hfar
    linarith
  rw [abs_of_neg hx] at hout
  have hq0 : q = 0 := by
    have hlow : (-1 : ℝ) < q := by nlinarith
    have hhigh : (q : ℝ) < 1 := by nlinarith
    have hlow : -1 < q := by exact_mod_cast hlow
    have hhigh : q < 1 := by exact_mod_cast hhigh
    omega
  rw [hq0, Int.cast_zero, zero_mul, sub_zero] at hq
  have hclose := abs_le.mp herror
  refine ⟨_, hfin, ?_, ?_, ?_, herror, fun h => ?_⟩
  · linarith
  · linarith
  · rw [hq]
    push_cast
    ring
  · exact absurd h (not_or.mpr ⟨not_le.mpr hx, hfar⟩)

end Lift

theorem exists_reduces (hθ : isFinite θ = true) (hout : value Binary64.pi / 2 < |value θ|) :
    ∃ q ε, Reduces θ (Scalar.remainder θ tau) q ε := by
  obtain ⟨hfin, ⟨q, hq⟩, hlt, hnonneg⟩ :=
    Binary64.value_truncRemainder hθ Binary64.fields_tau (by norm_num)
  rw [Binary64.value_tau] at hq hlt
  have hneg := lt_zero_iff hfin
  change ∃ q ε, Reduces θ (Binary64.remainder θ tau) q ε
  unfold Binary64.remainder
  dsimp only
  generalize Binary64.truncRemainder θ tau = r at *
  rw [abs_lt] at hlt
  by_cases hr : r < 0
  · rw [if_pos hr]
    have hr := hneg.mp hr
    by_cases hfar : 4 ≤ |value θ|
    · exact ⟨q - 1, 0, reduces_of_far hfin hlt.1 hr hq hθ hfar⟩
    · have hx : value θ < 0 := not_le.mp fun h => absurd (hnonneg h) (not_le.mpr hr)
      exact ⟨-1, exists_reduces_of_near hfin hlt.1 hr hq hout hx hfar⟩
  · rw [if_neg hr]
    have hr := not_lt.mp (fun h => hr (hneg.mpr h))
    exact ⟨q, 0, hfin, hr, hlt.2.le, by rw [hq, add_zero], by norm_num, fun _ => ⟨rfl, hlt.2⟩⟩

/-- The half turns taken out of an angle have drifted by nearly a number of whole turns. -/
def DriftsWhole (x : ℝ) : Prop :=
  ∃ m : ℤ, |halfTurns x * piExcess - tau * m| ≤ 1e-8

theorem driftsWhole_iff {x : ℝ} :
    DriftsWhole x ↔ ∃ m : ℤ, |halfTurns x * piExcess - 2 * Real.pi * m| ≤ 1e-8 := by
  rw [DriftsWhole, real_tau]

theorem halfTurns_eq_iff {x : ℝ} {n : ℤ} : halfTurns x = n ↔
    -(value Binary64.pi / 2) < x - n * value Binary64.pi ∧
      x - n * value Binary64.pi ≤ value Binary64.pi / 2 := by
  have hpos := Binary64.value_pi_pos
  have hsplit : x - n * value Binary64.pi = (x / value Binary64.pi - n) * value Binary64.pi := by
    field_simp
  have hhalf : value Binary64.pi / 2 = 1 / 2 * value Binary64.pi := by ring
  rw [halfTurns, neg_eq_iff_eq_neg, round_eq, Int.floor_eq_iff, hsplit, hhalf, ← neg_mul,
    mul_lt_mul_iff_left₀ hpos, mul_le_mul_iff_left₀ hpos]
  push_cast
  constructor <;> rintro ⟨hlow, hhigh⟩ <;> exact ⟨by linarith, by linarith⟩

theorem abs_halfTurns_sub_le (x : ℝ) :
    |halfTurns x * value Binary64.pi - x| ≤ value Binary64.pi / 2 := by
  obtain ⟨hlow, hhigh⟩ := halfTurns_eq_iff.mp (rfl : halfTurns x = halfTurns x)
  exact abs_le.mpr ⟨by linarith, by linarith⟩

theorem piExcess_pos : 0 < piExcess := by
  refine lt_trans ?_ piExcess_gt
  norm_num

theorem abs_drift (x : ℝ) : |halfTurns x * piExcess| = |(halfTurns x : ℝ)| * piExcess := by
  rw [abs_mul, abs_of_pos piExcess_pos]

theorem abs_halfTurns_mul (x : ℝ) :
    abs (|(halfTurns x : ℝ)| * value Binary64.pi - |x|) ≤ value Binary64.pi / 2 := by
  refine le_trans ?_ (abs_halfTurns_sub_le x)
  rw [← abs_of_pos Binary64.value_pi_pos, ← abs_mul, abs_of_pos Binary64.value_pi_pos]
  exact abs_abs_sub_abs_le_abs_sub _ _

theorem driftsWhole_of_le {x : ℝ} (h : |x| ≤ 2.565e8) : DriftsWhole x := by
  have hpi := value_pi_gt
  have hturns := (abs_le.mp (abs_halfTurns_mul x)).2
  have hcount : |(halfTurns x : ℝ)| ≤ 8.1649e7 := by nlinarith
  refine driftsWhole_iff.mpr ⟨0, ?_⟩
  rw [Int.cast_zero, mul_zero, sub_zero, abs_drift]
  calc |(halfTurns x : ℝ)| * piExcess ≤ 8.1649e7 * 1.22473e-16 :=
        mul_le_mul hcount piExcess_lt.le piExcess_pos.le (by norm_num)
    _ ≤ 1e-8 := by norm_num

/-- In between the drift is neither small nor near a whole turn. -/
theorem not_driftsWhole_of_le {x : ℝ} (hlow : 2.566e8 ≤ |x|) (hhigh : |x| ≤ 1e17) :
    ¬ DriftsWhole x := by
  have hpi := value_pi_gt
  have hpi' := value_pi_lt
  have hturns := abs_le.mp (abs_halfTurns_mul x)
  have hcount : 8.1678e7 ≤ |(halfTurns x : ℝ)| := by nlinarith
  have hcount' : |(halfTurns x : ℝ)| ≤ 3.2e16 := by nlinarith
  have hdrift : 1e-8 < |halfTurns x * piExcess| := by
    rw [abs_drift]
    calc (1e-8 : ℝ) < 8.1678e7 * 1.22461e-16 := by norm_num
      _ ≤ |(halfTurns x : ℝ)| * piExcess :=
        mul_le_mul hcount piExcess_gt.le (by norm_num) (abs_nonneg _)
  have hdrift' : |halfTurns x * piExcess| ≤ 4 := by
    rw [abs_drift]
    calc |(halfTurns x : ℝ)| * piExcess ≤ 3.2e16 * 1.22473e-16 :=
          mul_le_mul hcount' piExcess_lt.le piExcess_pos.le (by norm_num)
      _ ≤ 4 := by norm_num
  intro hdrifts
  obtain ⟨m, hm⟩ := driftsWhole_iff.mp hdrifts
  rcases eq_or_ne m 0 with rfl | hne
  · rw [Int.cast_zero, mul_zero, sub_zero] at hm
    linarith
  · have hturn : 2 * Real.pi ≤ |2 * Real.pi * (m : ℝ)| := by
      have hone : (1 : ℝ) ≤ |(m : ℝ)| := by exact_mod_cast Int.one_le_abs hne
      rw [abs_mul, abs_of_pos Real.two_pi_pos]
      exact le_mul_of_one_le_right Real.two_pi_pos.le hone
    have htriangle := abs_sub_abs_le_abs_sub (2 * Real.pi * (m : ℝ)) (halfTurns x * piExcess)
    rw [abs_sub_comm] at htriangle
    linarith [Real.pi_gt_three]

namespace QuarterTurn

theorem angle_toReal_ofSigned {rest : Float} (halfTurn : Bool) (hfin : isFinite rest = true)
    (h : |value rest| ≤ value Binary64.pi / 2) :
    (ofSigned halfTurn rest).toReal.angle = value rest + if halfTurn then Real.pi else 0 := by
  have hle := (abs_le_halfPi_iff hfin).mpr h
  have hneg := lt_zero_iff hfin
  have hmag : value (Scalar.abs rest) = |value rest| := Binary64.value_abs
  rw [ofSigned, toReal, angle, if_pos hle, hmag]
  by_cases h0 : value rest < 0
  · simp [hneg, h0, abs_of_neg h0]
  · simp [hneg, h0, abs_of_nonneg (not_lt.mp h0)]

/-- The number of half turns taken out, given the whole ones. -/
def taken (turn : QuarterTurn Float) (q : ℤ) : ℤ := 2 * q + if turn.halfTurn then 1 else 0

/-- Folding takes out half turns as doubles count them, and the rest is at most a quarter
turn. The first part of the rest is rounded only if the angle is negative and small. -/
structure Folds (θ : Float) (turn : QuarterTurn Float) (q : ℤ) (ε : ℝ) : Prop where
  angle : turn.toReal.angle = value θ - turn.taken q * value Binary64.pi + ε +
    if turn.halfTurn then Real.pi else 0
  le : |value θ - turn.taken q * value Binary64.pi + ε| ≤ value Binary64.pi / 2
  small : |ε| ≤ 1e-15
  exact : 0 ≤ value θ ∨ 4 ≤ |value θ| →
    ε = 0 ∧ -(value Binary64.pi / 2) < value θ - turn.taken q * value Binary64.pi

theorem folds_ofSigned {rest : Float} {halfTurn : Bool} {q : ℤ} {ε : ℝ}
    (hfin : isFinite rest = true) (hle : |value rest| ≤ value Binary64.pi / 2)
    (hrest : value rest = value θ - (2 * q + if halfTurn then 1 else 0) * value Binary64.pi + ε)
    (hε : |ε| ≤ 1e-15)
    (hexact : 0 ≤ value θ ∨ 4 ≤ |value θ| → ε = 0 ∧ -(value Binary64.pi / 2) < value rest) :
    Folds θ (ofSigned halfTurn rest) q ε := by
  have htaken : ((ofSigned halfTurn rest).taken q : ℝ) = 2 * q + if halfTurn then 1 else 0 := by
    rw [taken]
    push_cast
    rfl
  rw [← htaken] at hrest
  refine ⟨?_, hrest ▸ hle, hε, fun h => ?_⟩
  · rw [angle_toReal_ofSigned halfTurn hfin hle, hrest]
    rfl
  · obtain ⟨rfl, hlow⟩ := hexact h
    rw [hrest, add_zero] at hlow
    exact ⟨rfl, hlow⟩

section Regions
variable {t : Float} (ht : Reduces θ t q ε)
include ht

theorem folds_of_first (h : value t ≤ value Binary64.pi / 2) :
    Folds θ (ofSigned false t) q ε := by
  have hpos := Binary64.value_pi_pos
  have hnonneg := ht.nonneg
  refine folds_ofSigned ht.finite ?_ ?_ ht.small fun hcase => ⟨(ht.exact hcase).1, by linarith⟩
  · rwa [abs_of_nonneg hnonneg]
  · rw [ht.eq]
    simp
    ring

theorem folds_of_middle (hlow : value Binary64.pi / 2 < value t)
    (hhigh : value t ≤ 3 * (value Binary64.pi / 2)) :
    Folds θ (ofSigned true (t - Scalar.pi)) q ε := by
  have hpi := value_pi_gt
  have hpi' := value_pi_lt
  have hclose : |value t - value Binary64.pi| ≤ value Binary64.pi / 2 :=
    abs_le.mpr ⟨by linarith, by linarith⟩
  obtain ⟨hfin, hsub⟩ := Binary64.value_sub_of_near ht.finite Binary64.isFinite_pi
    (by linarith) (by linarith) (by linarith)
  rw [Binary64.scalar_pi]
  refine folds_ofSigned hfin (hsub ▸ hclose) ?_ ht.small fun hcase => ⟨(ht.exact hcase).1, ?_⟩
  · rw [hsub, ht.eq]
    simp
    ring
  · rw [hsub]
    linarith

theorem folds_of_last (h : 3 * (value Binary64.pi / 2) < value t) :
    Folds θ (ofSigned false (t - tau)) (q + 1) ε := by
  have hpi := value_pi_gt
  have hpi' := value_pi_lt
  have hle := ht.le
  have hclose : |value t - 2 * value Binary64.pi| ≤ value Binary64.pi / 2 :=
    abs_le.mpr ⟨by linarith, by linarith⟩
  have hsub := Binary64.value_sub_of_near ht.finite (y := (tau : Float)) rfl
  rw [Binary64.value_tau] at hsub
  obtain ⟨hfin, hsub⟩ := hsub (by linarith) (by linarith) (by linarith)
  refine folds_ofSigned hfin (hsub ▸ hclose) ?_ ht.small fun hcase => ⟨(ht.exact hcase).1, ?_⟩
  · rw [hsub, ht.eq]
    push_cast
    simp
    ring
  · rw [hsub]
    linarith

end Regions

theorem exists_folds (hθ : isFinite θ = true) : ∃ q ε, Folds θ (ofFinite θ) q ε := by
  unfold ofFinite
  split
  · rename_i h
    have h := (abs_le_halfPi_iff hθ).mp h
    refine ⟨0, 0, folds_ofSigned hθ h (by simp) (by norm_num) fun hcase => ⟨rfl, ?_⟩⟩
    rcases hcase with hcase | hcase
    · linarith [Binary64.value_pi_pos]
    · linarith [value_pi_lt]
  · rename_i h
    obtain ⟨q, ε, ht⟩ := exists_reduces hθ (not_le.mp (mt (abs_le_halfPi_iff hθ).mpr h))
    dsimp only
    generalize Scalar.remainder θ tau = t at *
    have hfin := ht.finite
    split
    · rename_i hquarter
      exact ⟨q, ε, folds_of_first ht ((le_halfPi_iff hfin).mp hquarter)⟩
    · rename_i hquarter
      have hquarter := not_le.mp (mt (le_halfPi_iff hfin).mpr hquarter)
      split
      · rename_i hthree
        exact ⟨q, ε, folds_of_middle ht hquarter ((le_threeHalfPi_iff hfin).mp hthree)⟩
      · rename_i hthree
        have hthree := not_le.mp (mt (le_threeHalfPi_iff hfin).mpr hthree)
        exact ⟨q + 1, ε, folds_of_last ht hthree⟩

theorem Folds.sub_angle {turn : QuarterTurn Float} {q : ℤ} {ε : ℝ} (h : Folds θ turn q ε) :
    value θ - turn.toReal.angle = 2 * Real.pi * q - (turn.taken q * piExcess + ε) := by
  rw [h.angle, piExcess, taken]
  cases turn.halfTurn <;> push_cast <;> simp <;> ring

/-- A folded angle is kept when its drift is nearly a number of whole turns. -/
theorem Folds.keeps_iff {turn : QuarterTurn Float} {q : ℤ} {ε : ℝ} (h : Folds θ turn q ε) :
    turn.Keeps θ ↔ ∃ m : ℤ, |turn.taken q * piExcess + ε - 2 * Real.pi * m| ≤ 1e-8 := by
  rw [Keeps, real_tau]
  constructor
  · rintro ⟨k, hk⟩
    refine ⟨q - k, ?_⟩
    rw [h.sub_angle, abs_sub_comm] at hk
    convert hk using 2
    push_cast
    ring
  · rintro ⟨m, hm⟩
    refine ⟨q - m, ?_⟩
    rw [h.sub_angle, abs_sub_comm]
    convert hm using 2
    push_cast
    ring

theorem Folds.taken_eq {turn : QuarterTurn Float} {q : ℤ} {ε : ℝ} (h : Folds θ turn q ε)
    (hcase : 0 ≤ value θ ∨ 4 ≤ |value θ|) : ε = 0 ∧ turn.taken q = halfTurns (value θ) := by
  obtain ⟨hε, hlow⟩ := h.exact hcase
  refine ⟨hε, ?_⟩
  have hhigh := (abs_le.mp h.le).2
  rw [hε, add_zero] at hhigh
  exact (halfTurns_eq_iff.mpr ⟨hlow, hhigh⟩).symm

/-- A small negative angle is off by the rounding of its rest alone. -/
theorem Folds.keeps_of_small {turn : QuarterTurn Float} {q : ℤ} {ε : ℝ} (h : Folds θ turn q ε)
    (hsmall : |value θ| < 4) : turn.Keeps θ := by
  have hpi := value_pi_gt
  have hle := abs_le.mp h.le
  have hx := abs_lt.mp hsmall
  have hε := abs_le.mp h.small
  have hlow : (-2 : ℝ) < turn.taken q := by nlinarith
  have hhigh : (turn.taken q : ℝ) < 2 := by nlinarith
  have hpos := piExcess_pos
  have hexcess := piExcess_lt
  refine h.keeps_iff.mpr ⟨0, abs_le.mpr ⟨?_, ?_⟩⟩ <;> norm_num at * <;> nlinarith

/-- Folding keeps an angle exactly when the turns it takes out drift by whole turns. The
small angles are all kept, and none of the large ones up to `1e17` is. -/
theorem ofAngle_keeps_iff (hθ : isFinite θ = true) :
    ∃ turn, ofAngle θ = .ok turn ∧ (turn.Keeps θ ↔ DriftsWhole (value θ)) ∧
      (|value θ| ≤ 2.565e8 → turn.Keeps θ) ∧
      (2.566e8 ≤ |value θ| → |value θ| ≤ 1e17 → ¬ turn.Keeps θ) := by
  obtain ⟨q, ε, h⟩ := exists_folds hθ
  have hok : ofAngle θ = .ok (ofFinite θ) := by
    simp [ofAngle, finiteAngle, hθ, bind, Except.bind]
    rfl
  have hiff : (ofFinite θ).Keeps θ ↔ DriftsWhole (value θ) := by
    by_cases hcase : 0 ≤ value θ ∨ 4 ≤ |value θ|
    · obtain ⟨rfl, htaken⟩ := h.taken_eq hcase
      rw [h.keeps_iff, htaken, add_zero, driftsWhole_iff]
    · have hsmall := not_le.mp (not_or.mp hcase).2
      exact iff_of_true (h.keeps_of_small hsmall) (driftsWhole_of_le (by linarith))
  exact ⟨ofFinite θ, hok, hiff, fun hle => hiff.mpr (driftsWhole_of_le hle),
    fun hlow hhigh hkeeps => not_driftsWhole_of_le hlow hhigh (hiff.mp hkeeps)⟩

theorem ofAngle_keeps_iff_at_huge :
    isFinite (2e16 : Float) = true ∧ value (2e16 : Float) = 2 * 10 ^ 16 ∧
      ∃ turn, ofAngle (2e16 : Float) = .ok turn ∧ ¬ turn.Keeps (2e16 : Float) := by
  have hvalue : value (2e16 : Float) = 2 * 10 ^ 16 := by
    have hfields : Binary64.fields (2e16 : Float) =
        .finite .positive 5000000000000000 2 (by decide) := by rfl
    rw [value, hfields, Binary64.realOf_positive]
    norm_num
  obtain ⟨turn, hok, -, -, hlost⟩ := ofAngle_keeps_iff (θ := (2e16 : Float)) (by decide)
  refine ⟨by decide, hvalue, turn, hok, hlost ?_ ?_⟩ <;> rw [hvalue] <;> norm_num

end QuarterTurn

end IonCircuit
