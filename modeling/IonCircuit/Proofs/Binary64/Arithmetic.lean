import IonCircuit.Proofs.Binary64.Rounding

/-! Sums, differences and remainders of doubles as real numbers. -/
namespace IonCircuit.Binary64
open Float.Model (UnpackedFloat Format)
open Float.Model.UnpackedFloat (Sign)
open Scalar (isFinite)
variable {s : Sign} {m : ℕ} {e g n : ℤ} {u v : UnpackedFloat} {x y : Float} {ε : ℝ}

/-- The double with some fields stands for the same number. -/
theorem value_ofFields (h : Packable u) : value (ofFields u) = realOf u := by
  rw [value, fields_ofFields h]

theorem isFinite_ofFields (h : Packable u) : isFinite (ofFields u) = u.isFinite := by
  rw [isFinite_iff_fields, fields_ofFields h]

theorem realOf_finite (hpos : 0 < m) : realOf (.finite s m e hpos) = s.apply (m : ℤ) * 2 ^ e :=
  rfl

/-- Counting in units of a smaller power does not change a number. -/
theorem apply_shiftLeft (s : Sign) (m : ℕ) (h : g ≤ e) :
    (s.apply ((m <<< (e - g).toNat : ℕ) : ℤ) : ℝ) * 2 ^ g = s.apply (m : ℤ) * 2 ^ e := by
  have hpow : (2 : ℝ) ^ (e - g).toNat * 2 ^ g = 2 ^ e := by
    rw [← zpow_natCast, ← zpow_add₀ two_ne_zero, show ((e - g).toNat : ℤ) + g = e by omega]
  rw [Nat.shiftLeft_eq]
  cases s <;> push_cast [apply_negative, apply_positive] <;> rw [← hpow] <;> ring

theorem rounds_add (hu : Packable u) (hv : Packable v) (hfu : u.isFinite = true)
    (hfv : v.isFinite = true) :
    Rounds (UnpackedFloat.add .binary64 u v) (realOf u + realOf v) := by
  cases u with
  | notANumber | infinity s => cases hfu
  | zero s =>
    cases v with
    | notANumber | infinity s => cases hfv
    | zero t =>
      have hzero : ∀ w : Sign, Rounds (.zero w) (realOf (.zero s) + realOf (.zero t)) :=
        fun w => by simpa using rounds_zero w
      cases s <;> cases t <;> exact hzero _
    | finite t n f hn =>
      rw [realOf_zero, zero_add]
      exact rounds_realOf hv rfl
  | finite s m e hm =>
    cases v with
    | notANumber | infinity s => cases hfv
    | zero t =>
      rw [realOf_zero, add_zero]
      exact rounds_realOf hu rfl
    | finite t n f hn =>
      have hsum : (realOf (.finite s m e hm) + realOf (.finite t n f hn)) =
          ((s.apply ((m <<< (e - min e f).toNat : ℕ) : ℤ) +
            t.apply ((n <<< (f - min e f).toNat : ℕ) : ℤ) : ℤ) : ℝ) * 2 ^ min e f := by
        rw [Int.cast_add, add_mul, apply_shiftLeft s m (min_le_left e f),
          apply_shiftLeft t n (min_le_right e f)]
        rfl
      rw [hsum]
      exact rounds_normalize _ _ _

theorem value_of_near {r : ℝ} (h : Near u r ε) :
    isFinite (ofFields u) = true ∧ |value (ofFields u) - r| ≤ ε := by
  rw [isFinite_ofFields h.packable, value_ofFields h.packable]
  exact ⟨h.finite, h.error⟩

theorem sub_eq_add (x y : Float) : x - y = x + -y := by
  have hsub : UnpackedFloat.sub .binary64 (fields x) (fields y) =
      UnpackedFloat.add .binary64 (fields x) (fields (-y)) := by
    rw [fields_neg]
    cases fields x with
    | finite s m e hm =>
      cases fields y with
      | finite t n f hn =>
        refine congrArg (UnpackedFloat.normalize .binary64 · (min e f) .positive) ?_
        cases t
        · exact sub_neg_eq_add _ _
        · exact sub_eq_add_neg _ _
      | notANumber | infinity t | zero t => rfl
    | notANumber | infinity s | zero s => cases fields y <;> rfl
  exact congrArg ofFields hsub

section Sum
variable (hx : isFinite x = true) (hy : isFinite y = true)
include hx hy

/-- Below `2 ^ (n + 53)` a sum is off by at most half of `2 ^ n`. -/
theorem value_add (hn : -1074 ≤ n) (hmax : n ≤ 970) (h : |value x + value y| < 2 ^ (n + 53)) :
    isFinite (x + y) = true ∧ |value (x + y) - (value x + value y)| ≤ 2 ^ n / 2 :=
  value_of_near ((rounds_add (packable_fields x) (packable_fields y) hx hy).near hn hmax h)

/-- A sum that fits is exact. -/
theorem value_add_exact {j : ℤ} (hsum : value x + value y = j * 2 ^ n) (hj : |j| < 2 ^ 53)
    (hn : -1074 ≤ n) (hmax : n ≤ 970) :
    isFinite (x + y) = true ∧ value (x + y) = value x + value y := by
  have hrounds := rounds_add (packable_fields x) (packable_fields y) hx hy
  obtain ⟨hfin, herror⟩ := value_of_near (hrounds.near_exact hsum hj hn hmax)
  exact ⟨hfin, sub_eq_zero.mp (abs_nonpos_iff.mp herror)⟩

theorem value_sub_exact {j : ℤ} (hdiff : value x - value y = j * 2 ^ n) (hj : |j| < 2 ^ 53)
    (hn : -1074 ≤ n) (hmax : n ≤ 970) :
    isFinite (x - y) = true ∧ value (x - y) = value x - value y := by
  have hneg : value x + value (-y) = value x - value y := by
    rw [value_neg, sub_eq_add_neg]
  obtain ⟨hfin, hexact⟩ :=
    value_add_exact hx (isFinite_neg.trans hy) (hneg.trans hdiff) hj hn hmax
  rw [sub_eq_add, ← hneg]
  exact ⟨hfin, hexact⟩

end Sum

/-- One of two aligned significands is the original one, so their remainder fits. -/
theorem align_mod_lt {n : ℕ} {f : ℤ} (hm : m < 2 ^ 53) (hn : n < 2 ^ 53) (hpos : 0 < n) :
    align m e (min e f) % align n f (min e f) < 2 ^ 53 := by
  rcases le_total e f with h | h
  · have hself : align m e (min e f) = m := by simp [align, h]
    rw [hself]
    exact (Nat.mod_le _ _).trans_lt hm
  · have hself : align n f (min e f) = n := by simp [align, h]
    rw [hself]
    exact (Nat.mod_lt _ hpos).trans hn

/-- The remainder is taken of the significands in a common unit. -/
theorem exists_truncRemainder_eq {n : ℕ} {f : ℤ} {hm : 0 < m} {hn : 0 < n}
    (hx : fields x = .finite s m e hm) (hy : fields y = .finite .positive n f hn)
    (hf : f ≤ 970) : ∃ a b g, 0 < b ∧ value x = s.apply ((a : ℕ) : ℤ) * 2 ^ (g : ℤ) ∧
      value y = (b : ℕ) * 2 ^ g ∧ isFinite (truncRemainder x y) = true ∧
      value (truncRemainder x y) = s.apply ((a % b : ℕ) : ℤ) * 2 ^ g := by
  have hfx := packable_fields x
  have hfy := packable_fields y
  rw [hx] at hfx
  rw [hy] at hfy
  have heq : truncRemainder x y = ofFields (.normalize .binary64
      (s.apply (align m e (min e f) % align n f (min e f) : ℕ)) (min e f) s) := by
    simp only [truncRemainder, ← fields.eq_1, hx, hy]
    rfl
  have hb : 0 < align n f (min e f) := by
    rw [align, Nat.shiftLeft_eq]
    positivity
  have hfits : |s.apply ((align m e (min e f) % align n f (min e f) : ℕ) : ℤ)| < 2 ^ 53 := by
    rw [abs_apply]
    exact_mod_cast align_mod_lt hfx.lt hfy.lt hn
  have hnear := (rounds_normalize _ _ s).near_exact rfl hfits (le_min hfx.min_le hfy.min_le)
    ((min_le_right e f).trans hf)
  obtain ⟨hfin, herror⟩ := value_of_near hnear
  rw [← heq] at hfin herror
  refine ⟨align m e (min e f), align n f (min e f), min e f, hb, ?_, ?_, hfin,
    sub_eq_zero.mp (abs_nonpos_iff.mp herror)⟩
  · rw [value, hx, realOf_finite]
    exact (apply_shiftLeft s m (min_le_left e f)).symm
  · rw [value, hy, realOf_finite]
    exact (apply_shiftLeft .positive n (min_le_right e f)).symm

/-- The remainder toward zero is exact: it differs from the dividend by a multiple of the
divisor, is smaller than that and not negative unless the dividend is. -/
theorem value_truncRemainder {n : ℕ} {f : ℤ} {hn : 0 < n} (hx : isFinite x = true)
    (hy : fields y = .finite .positive n f hn) (hf : f ≤ 970) :
    isFinite (truncRemainder x y) = true ∧
      (∃ q : ℤ, value (truncRemainder x y) = value x - q * value y) ∧
      |value (truncRemainder x y)| < value y ∧
      (0 ≤ value x → 0 ≤ value (truncRemainder x y)) := by
  have hpos : 0 < value y := by
    rw [value, hy, realOf_positive]
    exact magnitude_pos hn
  cases hu : fields x with
  | notANumber | infinity s =>
    rw [isFinite_iff_fields, hu] at hx
    cases hx
  | zero s =>
    have hsame : truncRemainder x y = x := by
      simp only [truncRemainder, ← fields.eq_1, hu, hy]
    have hzero : value x = 0 := by rw [value, hu, realOf_zero]
    rw [hsame]
    exact ⟨hx, ⟨0, by simp⟩, by rwa [hzero, abs_zero], id⟩
  | finite s m e hm =>
    obtain ⟨a, b, g, hb, hxa, hyb, hfin, hr⟩ := exists_truncRemainder_eq hu hy hf
    have hunit : (0 : ℝ) < 2 ^ g := by positivity
    have hsplit : (a : ℝ) = (a % b : ℕ) + b * (a / b : ℕ) := by
      exact_mod_cast (Nat.mod_add_div a b).symm
    have hlt : ((a % b : ℕ) : ℝ) < b := by exact_mod_cast Nat.mod_lt a hb
    refine ⟨hfin, ⟨s.apply ((a / b : ℕ) : ℤ), ?_⟩, ?_, fun hnonneg => ?_⟩
    · rw [hr, hxa, hyb]
      cases s <;>
        simp only [apply_negative, apply_positive, Int.cast_neg, Int.cast_natCast, hsplit] <;> ring
    · rw [hr, hyb, abs_mul, abs_of_pos hunit, ← Int.cast_abs, abs_apply, Int.cast_natCast]
      exact mul_lt_mul_of_pos_right hlt hunit
    · rw [value, hu] at hnonneg
      cases s
      · rw [realOf_negative] at hnonneg
        exact absurd (magnitude_pos hm) (not_lt.mpr (neg_nonneg.mp hnonneg))
      · rw [hr, apply_positive, Int.cast_natCast]
        positivity

/-- A double that is not small is a multiple of a power. -/
theorem exists_multiple (hx : isFinite x = true) (h : 2 ^ (g + 52) ≤ |value x|) :
    ∃ k : ℤ, value x = k * 2 ^ g := by
  have hfx := packable_fields x
  cases hu : fields x with
  | notANumber | infinity s =>
    rw [isFinite_iff_fields, hu] at hx
    cases hx
  | zero s => exact ⟨0, by rw [value, hu, realOf_zero, Int.cast_zero, zero_mul]⟩
  | finite s m e hm =>
    rw [hu] at hfx
    have hval : value x = s.apply (m : ℤ) * 2 ^ e := by rw [value, hu, realOf_finite]
    have hlt : (2 : ℝ) ^ (g + 52) < 2 ^ (e + 53) := by
      have hunit : (0 : ℝ) < 2 ^ e := by positivity
      have hm : (m : ℝ) < 2 ^ 53 := by exact_mod_cast hfx.lt
      rw [hval, abs_mul, ← Int.cast_abs, abs_apply, Int.cast_natCast, abs_of_pos hunit] at h
      rw [add_comm, zpow_add₀ two_ne_zero] at h ⊢
      rw [add_comm e, zpow_add₀ two_ne_zero]
      exact h.trans_lt (mul_lt_mul_of_pos_right hm hunit)
    have hge := (zpow_lt_zpow_iff_right₀ one_lt_two).mp hlt
    exact multiple_of_le hval (by omega)

/-- Doubles above one that are less than two apart have an exact difference. -/
theorem value_sub_of_near (hx : isFinite x = true) (hy : isFinite y = true) (hx1 : 1 ≤ value x)
    (hy1 : 1 ≤ value y) (h : |value x - value y| < 2) :
    isFinite (x - y) = true ∧ value (x - y) = value x - value y := by
  have hone : (2 : ℝ) ^ (-52 + 52 : ℤ) = 1 := by norm_num
  obtain ⟨i, hi⟩ := exists_multiple hx (hone.trans_le (hx1.trans (le_abs_self _)))
  obtain ⟨j, hj⟩ := exists_multiple hy (hone.trans_le (hy1.trans (le_abs_self _)))
  have hdiff : value x - value y = ((i - j : ℤ) : ℝ) * 2 ^ (-52 : ℤ) := by
    rw [hi, hj]
    push_cast
    ring
  refine value_sub_exact hx hy hdiff ?_ (by norm_num) (by norm_num)
  rw [hdiff, abs_mul, ← Int.cast_abs] at h
  have hlt : ((|i - j| : ℤ) : ℝ) < 2 ^ 53 := by
    norm_num at h ⊢
    linarith
  exact_mod_cast hlt

end IonCircuit.Binary64
