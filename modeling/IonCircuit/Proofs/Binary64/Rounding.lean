import IonCircuit.Proofs.Binary64.Value

/-! Rounding an exact number to the nearest double. -/
namespace IonCircuit.Binary64
open Float.Model (UnpackedFloat Format totalExponent)
open Float.Model.UnpackedFloat (Sign ExtendedMantissa)
variable {s : Sign} {m p q r : ℕ} {e t : ℤ} {x z : ℝ} {em : ExtendedMantissa} {u : UnpackedFloat}

/-- The mantissa counts `m` in units of `p`, and the two residual bits tell how the rest
compares with half a unit. -/
structure Tracks (em : ExtendedMantissa) (m p : ℕ) : Prop where
  floor : em.mantissa = m / p
  round : em.roundBit = true ↔ p ≤ 2 * (m % p)
  sticky : em.stickyBit = true ↔ m % p ≠ 0 ∧ 2 * (m % p) ≠ p

theorem tracks_exact (m : ℕ) :
    Tracks (ExtendedMantissa.ofMantissaAndAccuracy m .exact) m 1 := by
  constructor <;> simp [ExtendedMantissa.ofMantissaAndAccuracy, Nat.mod_one]

/-- Division leaves the quotient, and compares the remainder with half of the divisor. -/
theorem tracks_fraction (m : ℕ) (hp : 0 < p) : Tracks
    (.ofMantissaAndAccuracy (m / p) (UnpackedFloat.accuracyOfFraction (m % p) p)) m p := by
  unfold UnpackedFloat.accuracyOfFraction
  by_cases hzero : m % p = 0
  · rw [if_pos hzero]
    constructor <;> simp [ExtendedMantissa.ofMantissaAndAccuracy, hzero]
    omega
  · rw [if_neg hzero]
    rcases lt_trichotomy (2 * (m % p)) p with h | h | h
    · rw [compare_lt_iff_lt.mpr h]
      constructor <;> simp [ExtendedMantissa.ofMantissaAndAccuracy, hzero] <;> omega
    · rw [compare_eq_iff_eq.mpr h]
      constructor <;> simp [ExtendedMantissa.ofMantissaAndAccuracy] <;> omega
    · rw [compare_gt_iff_gt.mpr h]
      constructor <;> simp [ExtendedMantissa.ofMantissaAndAccuracy, hzero] <;> omega

theorem mantissa_ofMantissaAndAccuracy (acc : UnpackedFloat.Accuracy) :
    (ExtendedMantissa.ofMantissaAndAccuracy q acc).mantissa = q := by
  rcases acc with _ | ⟨_ | _ | _⟩ <;> rfl

theorem mod_two_mul (m p : ℕ) : m % (2 * p) = m % p + p * (m / p % 2) := by
  rw [mul_comm 2 p, Nat.mod_mul]

theorem Tracks.shiftRightOne (h : Tracks em m p) (hp : 0 < p) :
    Tracks em.shiftRightOne m (2 * p) := by
  have hlow := Nat.mod_lt m hp
  have hround := h.round
  have hsticky := h.sticky
  have hbit : m / p % 2 = 0 ∨ m / p % 2 = 1 := Nat.mod_two_eq_zero_or_one _
  constructor
  · rw [ExtendedMantissa.shiftRightOne, h.floor, Nat.div_div_eq_div_mul, mul_comm]
  · rw [ExtendedMantissa.shiftRightOne, h.floor, mod_two_mul]
    rcases hbit with hbit | hbit <;> simp [hbit]
    all_goals omega
  · rw [ExtendedMantissa.shiftRightOne, Bool.or_eq_true, h.round, h.sticky, mod_two_mul]
    rcases hbit with hbit | hbit <;> simp [hbit] <;> omega

theorem Tracks.shiftRight (h : Tracks em m p) (hp : 0 < p) (k : ℕ) :
    Tracks (em >>> k) m (2 ^ k * p) := by
  change Tracks (Nat.repeat ExtendedMantissa.shiftRightOne k em) m (2 ^ k * p)
  induction k with
  | zero => rwa [pow_zero, one_mul]
  | succ k ih =>
    rw [pow_succ', mul_assoc]
    exact ih.shiftRightOne (by positivity)

/-- The rounded mantissa is nearest, and even when two are. -/
theorem Tracks.nearest (h : Tracks em m p) (hp : 0 < p) :
    2 * (em.roundedMantissa * p) ≤ 2 * m + p ∧ 2 * m ≤ 2 * (em.roundedMantissa * p) + p ∧
      (2 * (em.roundedMantissa * p) = 2 * m + p ∨ 2 * m = 2 * (em.roundedMantissa * p) + p →
        em.roundedMantissa % 2 = 0) := by
  have hlow := Nat.mod_lt m hp
  have hsplit := Nat.div_add_mod m p
  obtain ⟨hfloor, hround, hsticky⟩ := h
  rw [← hfloor, mul_comm] at hsplit
  obtain ⟨q, r, t⟩ := em
  have hparity : q % 2 = 0 ∨ q % 2 = 1 := Nat.mod_two_eq_zero_or_one q
  cases r <;> cases t <;>
    simp only [ExtendedMantissa.roundedMantissa, ExtendedMantissa.accuracy,
      UnpackedFloat.Accuracy.roundToNearestEven, add_mul, one_mul, Bool.false_eq_true, true_iff,
      false_iff] at *
  · omega
  · omega
  · rcases hparity with hparity | hparity <;> simp only [hparity, zero_mul, one_mul] <;> omega
  · omega

/-- The exponent of the doubles around `m * 2 ^ e`. -/
def grid (m : ℕ) (e : ℤ) : ℤ := max (m.log2 + e - 52) (-1074)

theorem targetExponent_eq (m : ℕ) (e : ℤ) :
    Format.binary64.targetExponent (totalExponent m e) = grid m e := by
  have hmin : Format.binary64.minExponent = -1074 := rfl
  have hbits : Format.binary64.mantissaBits = 53 := rfl
  rw [Format.targetExponent, totalExponent, hmin, hbits, grid]
  omega

/-- A rounded significand with its exponent; one that overflows moves up by one. -/
def carry (s : Sign) (r : ℕ) (t : ℤ) : UnpackedFloat :=
  if h : r = 0 then .zero s
  else if r < 2 ^ 53 then .finite s r t (Nat.pos_of_ne_zero h)
  else .finite s (2 ^ 52) (t + 1) (Nat.two_pow_pos 52)

theorem log2_le (h : m < 2 ^ 53) : m.log2 ≤ 52 := by
  by_cases hm : m = 0
  · simp [hm]
  · exact Nat.lt_succ_iff.mp ((Nat.log2_lt hm).mpr h)

theorem shift_of_lt (h : m < 2 ^ 53) (he : -1074 ≤ e) :
    UnpackedFloat.shiftToTargetExponent .binary64 m e .exact = (⟨m, false, false⟩, e) := by
  have hlog := log2_le h
  have hgrid : (grid m e - e).toNat = 0 := by
    unfold grid
    omega
  rw [UnpackedFloat.shiftToTargetExponent, targetExponent_eq, UnpackedFloat.shiftToExponent, hgrid]
  simp [ExtendedMantissa.ofMantissaAndAccuracy, HShiftRight.hShiftRight, Nat.repeat]

theorem shift_of_eq (he : -1074 ≤ e) :
    UnpackedFloat.shiftToTargetExponent .binary64 (2 ^ 53) e .exact =
      (⟨2 ^ 52, false, false⟩, e + 1) := by
  have hgrid : (grid (2 ^ 53) e - e).toNat = 1 := by
    rw [grid, Nat.log2_two_pow]
    omega
  rw [UnpackedFloat.shiftToTargetExponent, targetExponent_eq, UnpackedFloat.shiftToExponent, hgrid]
  rfl

theorem roundWithAccuracy_eq_carry (s : Sign) (acc : UnpackedFloat.Accuracy)
    (hshift : UnpackedFloat.shiftToTargetExponent .binary64 q e acc = (em, t))
    (hr : em.roundedMantissa ≤ 2 ^ 53) (ht : -1074 ≤ t) :
    UnpackedFloat.roundWithAccuracy .binary64 s q e acc = carry s em.roundedMantissa t := by
  rw [UnpackedFloat.roundWithAccuracy, hshift, carry]
  by_cases hlt : em.roundedMantissa < 2 ^ 53
  · simp only [shift_of_lt hlt ht, if_pos hlt]
  · obtain heq : em.roundedMantissa = 2 ^ 53 := by omega
    simp only [heq, shift_of_eq ht]
    rfl

theorem log2_mul_two_pow (hm : 0 < m) (j : ℕ) : (m * 2 ^ j).log2 = m.log2 + j := by
  rw [Nat.log2_eq_iff (by positivity), pow_add, add_right_comm, pow_add]
  have hlow := Nat.log2_self_le hm.ne'
  have hhigh := @Nat.lt_log2_self m
  exact ⟨Nat.mul_le_mul_right _ hlow, Nat.mul_lt_mul_of_pos_right hhigh (Nat.two_pow_pos j)⟩

/-- Of the multiples of `2 ^ t` one nearest to `x` is the `r`-th, an even one of two. The power is
the step between the doubles around `x`. -/
structure Rounded (x : ℝ) (r : ℕ) (t : ℤ) : Prop where
  error : |(r : ℝ) * 2 ^ t - x| ≤ 2 ^ t / 2
  even : |(r : ℝ) * 2 ^ t - x| = 2 ^ t / 2 → r % 2 = 0
  min_le : -1074 ≤ t
  lower : 2 ^ (t + 52) ≤ x ∨ t = -1074
  upper : x < 2 ^ (t + 53)

theorem two_zpow_add_natCast (t : ℤ) (k : ℕ) : (2 : ℝ) ^ (t + k) = 2 ^ k * 2 ^ t := by
  rw [zpow_add₀ two_ne_zero, zpow_natCast, mul_comm]

theorem two_zpow_add_ofNat (t : ℤ) (k : ℕ) [k.AtLeastTwo] :
    (2 : ℝ) ^ (t + ofNat(k)) = 2 ^ k * 2 ^ t := two_zpow_add_natCast t k

theorem le_of_zpow_le {n : ℤ} (hn : -1074 ≤ n) (hx : x < 2 ^ (n + 53))
    (hlower : 2 ^ (t + 52) ≤ x ∨ t = -1074) : t ≤ n := by
  rcases hlower with hlower | rfl
  · have := (zpow_lt_zpow_iff_right₀ one_lt_two).mp (hlower.trans_lt hx)
    omega
  · exact hn

namespace Rounded
variable (h : Rounded x r t)
include h

theorem le : r ≤ 2 ^ 53 := by
  have hpos : (0 : ℝ) < 2 ^ t := by positivity
  have hupper := h.upper
  rw [two_zpow_add_ofNat] at hupper
  have hlt : (r : ℝ) * 2 ^ t < (2 ^ 53 + 1) * 2 ^ t := by linarith [(abs_le.mp h.error).2]
  exact Nat.lt_succ_iff.mp (by exact_mod_cast lt_of_mul_lt_mul_right hlt hpos.le)

theorem full : 2 ^ 52 ≤ r ∨ t = -1074 := by
  refine h.lower.imp_left fun hlower => ?_
  have hpos : (0 : ℝ) < 2 ^ t := by positivity
  rw [two_zpow_add_ofNat] at hlower
  have hlt : (2 ^ 52 : ℝ) * 2 ^ t < (r + 1) * 2 ^ t := by linarith [(abs_le.mp h.error).1]
  exact Nat.lt_succ_iff.mp (by exact_mod_cast lt_of_mul_lt_mul_right hlt hpos.le)

end Rounded

/-- A mantissa that tracks a number with full precision rounds it. -/
theorem Tracks.rounded {c : ℝ} (h : Tracks em m p) (hp : 0 < p) (hc : 0 < c) (hmin : -1074 ≤ t)
    (hstep : (2 : ℝ) ^ t = p * c) (hlower : 2 ^ 52 * p ≤ m ∨ t = -1074) (hupper : m < 2 ^ 53 * p) :
    Rounded (m * c) em.roundedMantissa t := by
  obtain ⟨hhigh, hlow, heven⟩ := h.nearest hp
  have hhalf : (2 : ℝ) ^ t / 2 = p / 2 * c := by rw [hstep, mul_div_right_comm]
  have hdiff : |(em.roundedMantissa : ℝ) * 2 ^ t - m * c| =
      |(em.roundedMantissa * p - m : ℝ)| * c := by
    rw [hstep, ← mul_assoc, ← sub_mul, abs_mul, abs_of_pos hc]
  refine ⟨?_, fun htie => heven ?_, hmin, hlower.imp_left fun hlower => ?_, ?_⟩
  · have hhigh : 2 * (em.roundedMantissa * p : ℝ) ≤ 2 * m + p := by exact_mod_cast hhigh
    have hlow : 2 * (m : ℝ) ≤ 2 * (em.roundedMantissa * p) + p := by exact_mod_cast hlow
    rw [hdiff, hhalf]
    refine mul_le_mul_of_nonneg_right (abs_le.mpr ⟨?_, ?_⟩) hc.le <;> linarith
  · rw [hdiff, hhalf, mul_left_inj' hc.ne'] at htie
    rcases (abs_eq (by positivity)).mp htie with h | h
    · have htie : 2 * (em.roundedMantissa * p : ℝ) = 2 * m + p := by linarith
      exact .inl (by exact_mod_cast htie)
    · have htie : 2 * (m : ℝ) = 2 * (em.roundedMantissa * p) + p := by linarith
      exact .inr (by exact_mod_cast htie)
  · rw [two_zpow_add_ofNat, hstep, ← mul_assoc]
    exact mul_le_mul_of_nonneg_right (by exact_mod_cast hlower) hc.le
  · rw [two_zpow_add_ofNat, hstep, ← mul_assoc]
    exact mul_lt_mul_of_pos_right (by exact_mod_cast hupper) hc

/-- Rounding a mantissa with its accuracy rounds the number that both stand for. -/
theorem roundWithAccuracy_spec (s : Sign) {acc : UnpackedFloat.Accuracy} (hp : 0 < p)
    (h : Tracks (.ofMantissaAndAccuracy q acc) m p) (he : e ≤ grid q e) :
    ∃ r t, UnpackedFloat.roundWithAccuracy .binary64 s q e acc = carry s r t ∧
      Rounded (m * (2 ^ e / p)) r t := by
  obtain ⟨k, hk⟩ := Int.le.dest he
  have hq : q = m / p := (mantissa_ofMantissaAndAccuracy acc).symm.trans h.floor
  have hlog : q.log2 ≤ 52 + k := by
    unfold grid at hk
    omega
  have hstep : (2 : ℝ) ^ grid q e = (2 ^ k * p : ℕ) * (2 ^ e / p) := by
    rw [← hk, two_zpow_add_natCast]
    push_cast
    field_simp
  have hlower : 2 ^ 52 * (2 ^ k * p) ≤ m ∨ grid q e = -1074 := by
    refine or_iff_not_imp_right.mpr fun hmin => ?_
    have hfull : q.log2 = 52 + k := by
      unfold grid at hk hmin
      omega
    have hpos : q ≠ 0 := by
      rintro rfl
      rw [Nat.log2_zero] at hfull
      omega
    rw [← mul_assoc, ← pow_add, ← hfull]
    exact (Nat.mul_le_mul_right p (Nat.log2_self_le hpos)).trans (hq ▸ Nat.div_mul_le_self m p)
  have hupper : m < 2 ^ 53 * (2 ^ k * p) := by
    rw [← mul_assoc, ← pow_add, ← Nat.div_lt_iff_lt_mul hp, ← hq]
    exact Nat.lt_log2_self.trans_le (Nat.pow_le_pow_right two_pos (by omega))
  have hrounded := (h.shiftRight hp k).rounded (by positivity) (by positivity) (le_max_right _ _)
    hstep hlower hupper
  have hshift : UnpackedFloat.shiftToTargetExponent .binary64 q e acc =
      (ExtendedMantissa.ofMantissaAndAccuracy q acc >>> k, grid q e) := by
    rw [UnpackedFloat.shiftToTargetExponent, targetExponent_eq]
    simp only [UnpackedFloat.shiftToExponent, show (grid q e - e).toNat = k by omega, hk]
  exact ⟨_, _, roundWithAccuracy_eq_carry s acc hshift hrounded.le (le_max_right _ _), hrounded⟩

theorem roundWithAccuracy_exact_spec (s : Sign) (he : e ≤ grid m e) :
    ∃ r t, UnpackedFloat.roundWithAccuracy .binary64 s m e .exact = carry s r t ∧
      Rounded (m * 2 ^ e) r t := by
  simpa using roundWithAccuracy_spec s one_pos (tracks_exact m) he

theorem round_spec (s : Sign) (hm : 0 < m) (e : ℤ) :
    ∃ r t, UnpackedFloat.round .binary64 s m e = carry s r t ∧ Rounded (m * 2 ^ e) r t := by
  have hscaled : ((m * 2 ^ (e - grid m e).toNat : ℕ) : ℝ) * 2 ^ (e - (e - grid m e).toNat) =
      m * 2 ^ e := by
    push_cast
    rw [mul_assoc, ← zpow_natCast, ← zpow_add₀ two_ne_zero, add_sub_cancel]
  have hgrid : grid (m * 2 ^ (e - grid m e).toNat) (e - (e - grid m e).toNat) = grid m e := by
    rw [grid, log2_mul_two_pow hm, grid]
    push_cast
    congr 1
    omega
  rw [← hscaled, UnpackedFloat.round, targetExponent_eq, UnpackedFloat.decreaseExponent,
    Nat.shiftLeft_eq]
  refine roundWithAccuracy_exact_spec s ?_
  rw [hgrid]
  omega

/-- A double with finite fields that stand for a number near `x`. -/
structure Near (u : UnpackedFloat) (x ε : ℝ) : Prop where
  packable : Packable u
  finite : u.isFinite = true
  error : |realOf u - x| ≤ ε

theorem realOf_carry {r : ℕ} (hr : r ≤ 2 ^ 53) (t : ℤ) :
    realOf (carry s r t) = s.apply (r : ℤ) * 2 ^ t := by
  unfold carry
  split
  · rename_i h
    cases s <;> simp [h]
  · split
    · rfl
    · obtain rfl : r = 2 ^ 53 := by omega
      have htwo : (2 : ℝ) ^ (t + 1) = 2 * 2 ^ t := by rw [zpow_add_one₀ two_ne_zero, mul_comm]
      cases s <;> simp only [realOf_negative, realOf_positive, apply_negative, apply_positive, htwo] <;>
        push_cast <;> ring

theorem isFinite_carry (s : Sign) (r : ℕ) (t : ℤ) : (carry s r t).isFinite = true := by
  unfold carry
  split
  · rfl
  · split <;> rfl

theorem normalize_eq_round {k : ℤ} (hk : k ≠ 0) (g : ℤ) (z : Sign) :
    ∃ s : Sign, s.apply (k.natAbs : ℤ) = k ∧
      UnpackedFloat.normalize .binary64 k g z = UnpackedFloat.round .binary64 s k.natAbs g := by
  rcases lt_or_gt_of_ne hk with h | h
  · refine ⟨.negative, by rw [apply_negative]; omega, ?_⟩
    rw [UnpackedFloat.normalize, compare_lt_iff_lt.mpr h, show (-k).toNat = k.natAbs by omega]
  · refine ⟨.positive, by rw [apply_positive]; omega, ?_⟩
    rw [UnpackedFloat.normalize, compare_gt_iff_gt.mpr h, show k.toNat = k.natAbs by omega]

theorem normalize_zero (g : ℤ) (z : Sign) : UnpackedFloat.normalize .binary64 0 g z = .zero z := rfl

theorem multiple_of_le {x : ℝ} {j n t : ℤ} (hx : x = j * 2 ^ n) (h : t ≤ n) :
    ∃ i : ℤ, x = i * 2 ^ t := by
  obtain ⟨d, rfl⟩ := Int.le.dest h
  refine ⟨j * 2 ^ d, ?_⟩
  rw [hx, zpow_add₀ two_ne_zero, zpow_natCast]
  push_cast
  ring

theorem abs_mul_lt {j n : ℤ} (hz : z = j * 2 ^ n) (hj : |j| < 2 ^ 53) : |z| < 2 ^ (n + 53) := by
  have hpos : (0 : ℝ) < 2 ^ n := by positivity
  have hj : ((|j| : ℤ) : ℝ) < 2 ^ 53 := by exact_mod_cast hj
  rw [hz, abs_mul, ← Int.cast_abs, abs_of_pos hpos, two_zpow_add_ofNat]
  exact mul_lt_mul_of_pos_right hj hpos

/-- Two multiples of a step that are less than a step apart are equal. -/
theorem eq_of_near_multiple {x y : ℝ} {i j t : ℤ} (hx : x = i * 2 ^ t) (hy : y = j * 2 ^ t)
    (h : |x - y| < 2 ^ t) : x = y := by
  have hpos : (0 : ℝ) < 2 ^ t := by positivity
  rw [hx, hy, ← sub_mul, abs_mul, abs_of_pos hpos, ← Int.cast_sub, ← Int.cast_abs] at h
  have hlt : ((|i - j| : ℤ) : ℝ) < 1 := by nlinarith
  have hlt : |i - j| < 1 := by exact_mod_cast hlt
  obtain rfl : i = j := by
    rw [abs_lt] at hlt
    omega
  rw [hx, hy]

theorem abs_apply_one_mul (s : Sign) (x : ℝ) : |((s.apply 1 : ℤ) : ℝ) * x| = |x| := by
  cases s <;> simp

theorem abs_apply (s : Sign) (k : ℕ) : |s.apply (k : ℤ)| = k := by
  have hk : |(k : ℤ)| = k := abs_of_nonneg (Int.natCast_nonneg k)
  cases s
  · rw [apply_negative, abs_neg, hk]
  · exact hk

/-- The fields of the double nearest to a number, were there no largest exponent. -/
inductive Rounds : UnpackedFloat → ℝ → Prop
  | carry {x : ℝ} {r : ℕ} {t : ℤ} (s : Sign) (h : Rounded x r t) (hx : 0 ≤ x) :
    Rounds (carry s r t) ((s.apply 1 : ℤ) * x)

theorem rounds_zero (s : Sign) : Rounds (.zero s) 0 := by
  have hzero : Rounded 0 0 (-1074) := by
    constructor <;> norm_num
    positivity
  simpa [carry] using Rounds.carry s hzero le_rfl

theorem rounds_normalize (k g : ℤ) (z : Sign) :
    Rounds (UnpackedFloat.normalize .binary64 k g z) (k * 2 ^ g) := by
  by_cases hk : k = 0
  · rw [hk, normalize_zero, Int.cast_zero, zero_mul]
    exact rounds_zero z
  · obtain ⟨s, hs, hround⟩ := normalize_eq_round hk g z
    obtain ⟨r, t, hcarry, hrounded⟩ := round_spec s (Int.natAbs_pos.mpr hk) g
    have hvalue : (k : ℝ) * 2 ^ g = (s.apply 1 : ℤ) * (k.natAbs * 2 ^ g) := by
      rw [← mul_assoc, ← hs]
      cases s <;> simp
    rw [hround, hcarry, hvalue]
    exact .carry s hrounded (by positivity)

theorem realOf_eq_mul (hm : 0 < m) : realOf (.finite s m e hm) = (s.apply 1 : ℤ) * (m * 2 ^ e) := by
  cases s <;> simp

/-- Doubles are rounded already. -/
theorem rounds_realOf (hu : Packable u) (hfin : u.isFinite = true) : Rounds u (realOf u) := by
  cases u with
  | notANumber | infinity s => cases hfin
  | zero s => exact rounds_zero s
  | finite s m e hm =>
    have hrounded : Rounded (m * 2 ^ e) m e := by
      refine ⟨by simp; positivity, fun htie => ?_, hu.min_le, hu.full.imp_left fun hfull => ?_, ?_⟩
      · rw [sub_self, abs_zero] at htie
        exact absurd htie (by positivity)
      · rw [two_zpow_add_ofNat]
        gcongr
        exact_mod_cast hfull
      · rw [two_zpow_add_ofNat]
        gcongr
        exact_mod_cast hu.lt
    have hcarry : carry s m e = .finite s m e hm := by
      rw [carry, dif_neg hm.ne', if_pos hu.lt]
    rw [realOf_eq_mul, ← hcarry]
    exact .carry s hrounded (by positivity)

/-- Halfway between the largest double and what would come after it. -/
noncomputable def overflow : ℝ := ((2 ^ 54 - 1) * 2 ^ 970 : ℕ)

theorem overflow_eq : overflow = (2 ^ 54 - 1) * 2 ^ (970 : ℤ) := by
  have hcount : ((2 ^ 54 - 1 : ℕ) : ℝ) = 2 ^ 54 - 1 := by norm_num
  rw [overflow, Nat.cast_mul, hcount, Nat.cast_pow, Nat.cast_ofNat, zpow_ofNat]

/-- The largest doubles are as far apart as this power. -/
theorem overflow_eq_steps : overflow = (2 ^ 53 - 1 / 2) * 2 ^ (971 : ℤ) := by
  have hstep : (2 : ℝ) ^ (971 : ℤ) = 2 * 2 ^ (970 : ℤ) := by simpa using two_zpow_add_natCast 970 1
  rw [overflow_eq, hstep]
  ring

theorem overflow_pos : 0 < overflow := by
  rw [overflow_eq]
  exact mul_pos (by norm_num) (by positivity)

theorem lt_overflow (ht : t ≤ 970) : (2 : ℝ) ^ (t + 53) < overflow := by
  have hunit : (0 : ℝ) < 2 ^ (971 : ℤ) := by positivity
  have hpow : (2 : ℝ) ^ (t + 53) ≤ 2 ^ (971 + 52 : ℤ) := zpow_le_zpow_right₀ one_le_two (by omega)
  rw [two_zpow_add_ofNat 971] at hpow
  rw [overflow_eq_steps]
  generalize (2 : ℝ) ^ (971 : ℤ) = unit at *
  linarith

namespace Rounded
variable (h : Rounded x r t)
include h

/-- At the largest exponent the bound itself would be a tie, and goes to the even side. -/
theorem lt_overflow_of_eq (ht : t = 971) (hr : r < 2 ^ 53) : x < overflow := by
  subst ht
  have hunit : (0 : ℝ) < 2 ^ (971 : ℤ) := by positivity
  have heven := h.even
  have hnear := (abs_le.mp h.error).1
  rw [overflow_eq_steps]
  generalize (2 : ℝ) ^ (971 : ℤ) = unit at *
  rcases Nat.lt_or_eq_of_le (Nat.le_sub_one_of_lt hr) with hr | rfl
  · have hr : (r : ℝ) ≤ 2 ^ 53 - 2 := by
      have hr : r + 2 ≤ 2 ^ 53 := by omega
      have hr : (r : ℝ) + 2 ≤ 2 ^ 53 := by exact_mod_cast hr
      linarith
    nlinarith
  · have hodd : (2 ^ 53 - 1) % 2 ≠ 0 := by norm_num
    have hne := mt heven hodd
    contrapose! hne
    push_cast at hnear ⊢
    rw [abs_of_nonpos] <;> linarith

theorem of_lt_overflow (hx : x < overflow) : t ≤ 970 ∨ t = 971 ∧ r < 2 ^ 53 := by
  have hunit : (0 : ℝ) < 2 ^ (971 : ℤ) := by positivity
  rw [overflow_eq_steps] at hx
  have hbelow : x < 2 ^ (971 + 53 : ℤ) := by
    rw [two_zpow_add_ofNat]
    generalize (2 : ℝ) ^ (971 : ℤ) = unit at *
    linarith
  refine (Int.lt_or_eq_of_le (le_of_zpow_le (by norm_num) hbelow h.lower)).imp Int.lt_add_one_iff.mp ?_
  rintro rfl
  have hnear := (abs_le.mp h.error).2
  generalize (2 : ℝ) ^ (971 : ℤ) = unit at *
  have hr : (r : ℝ) < 2 ^ 53 := by nlinarith
  exact ⟨rfl, by exact_mod_cast hr⟩

/-- From the overflow on, and only there, rounding leaves the exponents of doubles. -/
theorem lt_overflow_iff : x < overflow ↔ t ≤ 970 ∨ t = 971 ∧ r < 2 ^ 53 :=
  ⟨h.of_lt_overflow, fun ht => ht.elim (h.upper.trans <| lt_overflow ·) fun ⟨ht, hr⟩ =>
    h.lt_overflow_of_eq ht hr⟩

end Rounded

theorem packable_carry (hfull : 2 ^ 52 ≤ r ∨ t = -1074) (hmin : -1074 ≤ t)
    (hmax : t ≤ 970 ∨ t = 971 ∧ r < 2 ^ 53) : Packable (carry s r t) := by
  unfold carry
  split
  · trivial
  · split
    · rename_i hlt
      exact ⟨hlt, hmin, by omega, hfull⟩
    · exact ⟨by norm_num, by omega, by omega, .inl le_rfl⟩

namespace Rounds
variable (h : Rounds u z)
include h

theorem isFinite : u.isFinite = true := by
  obtain ⟨s, -, -⟩ := h
  exact isFinite_carry s _ _

theorem packable (hz : |z| < overflow) : Packable u := by
  obtain ⟨s, h, hx⟩ := h
  rw [abs_apply_one_mul, abs_of_nonneg hx] at hz
  exact packable_carry h.full h.min_le (h.lt_overflow_iff.mp hz)

/-- The fields count the steps around the number, and are off by at most half of one. -/
theorem exists_step : ∃ t j : ℤ, -1074 ≤ t ∧ realOf u = j * 2 ^ t ∧ |j| ≤ 2 ^ 53 ∧
    |realOf u - z| ≤ 2 ^ t / 2 ∧ (2 ^ (t + 52) ≤ |z| ∨ t = -1074) := by
  obtain @⟨x, r, t, s, h, hx⟩ := h
  have hvalue : (s.apply (r : ℤ) : ℝ) * 2 ^ t = (s.apply 1 : ℤ) * (r * 2 ^ t) := by cases s <;> simp
  have hle : |s.apply (r : ℤ)| ≤ 2 ^ 53 := by
    rw [abs_apply]
    exact_mod_cast h.le
  refine ⟨t, _, h.min_le, realOf_carry h.le t, hle, ?_, ?_⟩
  · rw [realOf_carry h.le, hvalue, ← mul_sub, abs_apply_one_mul]
    exact h.error
  · rw [abs_apply_one_mul, abs_of_nonneg hx]
    exact h.lower

/-- Below `2 ^ (n + 53)` the error is at most half of `2 ^ n`. -/
theorem near {n : ℤ} (hn : -1074 ≤ n) (hmax : n ≤ 970) (hz : |z| < 2 ^ (n + 53)) :
    Near u z (2 ^ n / 2) := by
  obtain ⟨t, -, -, -, -, herror, hlower⟩ := h.exists_step
  refine ⟨h.packable (hz.trans (lt_overflow hmax)), h.isFinite, herror.trans ?_⟩
  gcongr
  · exact one_le_two
  · exact le_of_zpow_le hn hz hlower

/-- A number that fits is not changed. -/
theorem realOf_eq {j n : ℤ} (hz : z = j * 2 ^ n) (hj : |j| < 2 ^ 53) (hn : -1074 ≤ n) :
    realOf u = z := by
  obtain ⟨t, i, -, hi, -, herror, hlower⟩ := h.exists_step
  obtain ⟨i', hi'⟩ := multiple_of_le hz (le_of_zpow_le hn (abs_mul_lt hz hj) hlower)
  exact eq_of_near_multiple hi hi' (herror.trans_lt (half_lt_self (by positivity)))

theorem near_exact {j n : ℤ} (hz : z = j * 2 ^ n) (hj : |j| < 2 ^ 53) (hn : -1074 ≤ n)
    (hmax : n ≤ 970) : Near u z 0 := by
  refine ⟨h.packable ((abs_mul_lt hz hj).trans (lt_overflow hmax)), h.isFinite, ?_⟩
  rw [h.realOf_eq hz hj hn, sub_self, abs_zero]

end Rounds

end IonCircuit.Binary64
