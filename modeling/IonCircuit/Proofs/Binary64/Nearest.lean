import IonCircuit.Proofs.Binary64.Arithmetic

/-! Sums, products and quotients of doubles are the doubles nearest to the exact results: which of
them overflow, and that rounding keeps the order. -/
namespace IonCircuit.Binary64
open Float.Model (UnpackedFloat Format totalExponent)
open Float.Model.UnpackedFloat (Sign)
open Scalar (isFinite)
variable {s : Sign} {m n : ℕ} {e f : ℤ} {u v : UnpackedFloat} {x y : Float} {z w : ℝ}

theorem isFinite_of_exponent (hm : 0 < m) (he : 972 ≤ e) :
    isFinite (ofFields (.finite s m e hm)) = false := by
  have hpack : UnpackedFloat.pack .binary64 (.finite s m e hm) =
      UnpackedFloat.pack .binary64 (.infinity s) := by
    have hlarge : 2 ^ 11 ≤ (e + 1023 + 52).toNat + 1 := by omega
    unfold UnpackedFloat.pack
    exact if_pos hlarge
  rw [isFinite_iff_fields]
  change (UnpackedFloat.unpack .binary64 (UnpackedFloat.pack .binary64 _)).isFinite = false
  rw [hpack]
  cases s <;> rfl

/-- A rounded number is finite below the overflow. -/
theorem isFinite_iff_lt_overflow (h : Rounds u z) :
    isFinite (ofFields u) = true ↔ |z| < overflow := by
  constructor
  · obtain @⟨x, r, t, s, h, hx⟩ := h
    intro hfin
    rw [abs_apply_one_mul, abs_of_nonneg hx, h.lt_overflow_iff]
    by_contra hlarge
    have hfull : 2 ^ 52 ≤ r := h.full.resolve_right (by omega)
    have hcarry : isFinite (ofFields (carry s r t)) = false := by
      unfold carry
      rw [dif_neg (by omega)]
      split <;> exact isFinite_of_exponent _ (by omega)
    rw [hcarry] at hfin
    cases hfin
  · intro hz
    rw [isFinite_ofFields (h.packable hz)]
    exact h.isFinite

theorem apply_mul (s t : Sign) : (s * t).apply 1 = s.apply 1 * t.apply 1 := by
  cases s <;> cases t <;> rfl

theorem apply_div (s t : Sign) : (s / t).apply 1 = s.apply 1 * t.apply 1 := by
  cases s <;> cases t <;> rfl

theorem le_grid (h : 2 ^ 52 ≤ m ∨ e ≤ -1074) : e ≤ grid m e := by
  unfold grid
  rcases h with h | h
  · have hm : m ≠ 0 := by
      rintro rfl
      omega
    have hlog := (Nat.le_log2 hm).mpr h
    omega
  · omega

theorem rounds_mul (hu : Packable u) (hv : Packable v) (hfu : u.isFinite = true)
    (hfv : v.isFinite = true) :
    Rounds (UnpackedFloat.mul .binary64 u v) (realOf u * realOf v) := by
  cases u with
  | notANumber | infinity s => cases hfu
  | zero s =>
    rw [realOf_zero, zero_mul]
    cases v with
    | notANumber | infinity t => cases hfv
    | zero t | finite t n f hn => exact rounds_zero _
  | finite s m e hm =>
    cases v with
    | notANumber | infinity t => cases hfv
    | zero t =>
      rw [realOf_zero, mul_zero]
      exact rounds_zero _
    | finite t n f hn =>
      have hprecise : 2 ^ 52 ≤ m * n ∨ e + f ≤ -1074 := by
        rcases hu.full, hv.full with ⟨hm' | rfl, hn' | rfl⟩
        · exact .inl (hm'.trans (Nat.le_mul_of_pos_right m hn))
        · exact .inl (hm'.trans (Nat.le_mul_of_pos_right m hn))
        · exact .inl (hn'.trans (Nat.le_mul_of_pos_left n hm))
        · exact .inr (by norm_num)
      obtain ⟨r, k, hround, hrounded⟩ := roundWithAccuracy_exact_spec (s * t) (le_grid hprecise)
      have hvalue : realOf (.finite s m e hm) * realOf (.finite t n f hn) =
          ((s * t).apply 1 : ℤ) * ((m * n : ℕ) * 2 ^ (e + f)) := by
        rw [realOf_eq_mul, realOf_eq_mul, apply_mul, zpow_add₀ two_ne_zero]
        push_cast
        ring
      rw [hvalue, UnpackedFloat.mul, hround]
      exact .carry (s * t) hrounded (by positivity)

/-- Enough bits of the quotient are computed for rounding. -/
theorem divCore_precise (hm : 0 < m) (hn : 0 < n) {t : ℤ} (ht : t ≤ e - f)
    (htarget : t ≤ Format.binary64.targetExponent (totalExponent m e - totalExponent n f)) :
    2 ^ 52 ≤ m <<< (e - f - t).toNat / n ∨ t ≤ -1074 := by
  refine or_iff_not_imp_right.mpr fun hmin => ?_
  have hminExponent : Format.binary64.minExponent = -1074 := rfl
  have hbits : Format.binary64.mantissaBits = 53 := rfl
  rw [Format.targetExponent, totalExponent, totalExponent, hminExponent, hbits] at htarget
  rw [Nat.le_div_iff_mul_le hn, Nat.shiftLeft_eq]
  calc 2 ^ 52 * n ≤ 2 ^ 52 * 2 ^ (n.log2 + 1) := Nat.mul_le_mul_left _ Nat.lt_log2_self.le
    _ = 2 ^ (n.log2 + 53) := by rw [← pow_add]; congr 1; omega
    _ ≤ 2 ^ (m.log2 + (e - f - t).toNat) := Nat.pow_le_pow_right two_pos (by omega)
    _ = 2 ^ m.log2 * 2 ^ (e - f - t).toNat := pow_add ..
    _ ≤ m * 2 ^ (e - f - t).toNat := Nat.mul_le_mul_right _ (Nat.log2_self_le hm.ne')

theorem rounds_div (hfu : u.isFinite = true) (hfv : v.isFinite = true) (hv : realOf v ≠ 0) :
    Rounds (UnpackedFloat.div .binary64 u v) (realOf u / realOf v) := by
  cases v with
  | notANumber | infinity t => cases hfv
  | zero t => exact (hv rfl).elim
  | finite t n f hn =>
    cases u with
    | notANumber | infinity s => cases hfu
    | zero s =>
      rw [realOf_zero, zero_div]
      exact rounds_zero _
    | finite s m e hm =>
      generalize htarget : min (e - f)
        (Format.binary64.targetExponent (totalExponent m e - totalExponent n f)) = g
      have hprecise := le_grid (divCore_precise hm hn (htarget ▸ min_le_left _ _)
        (htarget ▸ min_le_right _ _))
      obtain ⟨r, k, hround, hrounded⟩ :=
        roundWithAccuracy_spec (s / t) hn (tracks_fraction _ hn) hprecise
      have hvalue : realOf (.finite s m e hm) / realOf (.finite t n f hn) =
          ((s / t).apply 1 : ℤ) * ((m <<< (e - f - g).toNat : ℕ) * (2 ^ g / n)) := by
        have hshift := apply_shiftLeft .positive m (show g ≤ e - f from htarget ▸ min_le_left _ _)
        simp only [apply_positive, Int.cast_natCast] at hshift
        rw [← mul_div_assoc, hshift, realOf_eq_mul, realOf_eq_mul, apply_div, zpow_sub₀ two_ne_zero]
        cases t <;> simp <;> field_simp
      rw [hvalue, UnpackedFloat.div]
      simp only [UnpackedFloat.divCore, htarget, hround]
      exact .carry (s / t) hrounded (by positivity)

section Order

theorem Rounded.unique {r r' : ℕ} {t t' : ℤ} (h : Rounded z r t) (h' : Rounded z r' t') :
    r = r' ∧ t = t' := by
  obtain rfl : t = t' := le_antisymm (le_of_zpow_le h'.min_le h'.upper h.lower)
    (le_of_zpow_le h.min_le h.upper h'.lower)
  have hpos : (0 : ℝ) < 2 ^ t := by positivity
  refine ⟨?_, rfl⟩
  by_contra hne
  wlog hlt : r < r' generalizing r r'
  · exact this h' h (Ne.symm hne) (by omega)
  -- both are half a step away, so both are even
  have hstep : ((r : ℝ) + 1) * 2 ^ t ≤ r' * 2 ^ t := by
    gcongr
    exact_mod_cast hlt
  have hlow := (abs_le.mp h.error).1
  have hhigh := (abs_le.mp h'.error).2
  have heven := h.even (by rw [abs_of_nonpos] <;> nlinarith)
  have heven' := h'.even (by rw [abs_of_nonneg] <;> nlinarith)
  have hnext : ((r' : ℝ) - r) * 2 ^ t ≤ 1 * 2 ^ t := by nlinarith
  have hnext : (r' : ℝ) ≤ r + 1 := by linarith [le_of_mul_le_mul_right hnext hpos]
  have hnext : r' ≤ r + 1 := by exact_mod_cast hnext
  omega

theorem Rounds.exists_rounded (h : Rounds u z) : ∃ (s : Sign) (r : ℕ) (t : ℤ), Rounded |z| r t ∧
    realOf u = (s.apply 1 : ℤ) * (r * 2 ^ t) ∧ z = (s.apply 1 : ℤ) * |z| := by
  obtain @⟨x, r, t, s, h, hx⟩ := h
  rw [abs_apply_one_mul, abs_of_nonneg hx]
  refine ⟨s, r, t, h, ?_, rfl⟩
  rw [realOf_carry h.le]
  cases s <;> simp

/-- No other double is nearer, were there no largest exponent. -/
theorem Rounds.nearest (h : Rounds u z) (h' : Rounds v w) : |realOf u - z| ≤ |realOf v - z| := by
  obtain ⟨t, i, hmin, hi, -, herror, hlower⟩ := h.exists_step
  obtain ⟨t', j, hmin', hj, hle, -, -⟩ := h'.exists_step
  have hpos : (0 : ℝ) < 2 ^ t := by positivity
  have hmultiple : ∀ {y : ℝ} {k : ℤ}, y = k * 2 ^ t → |realOf u - z| ≤ |y - z| := by
    intro y k hy
    by_contra hlt
    rw [not_le] at hlt
    have hnear : |realOf u - y| < 2 ^ t := by
      calc |realOf u - y| = |(realOf u - z) - (y - z)| := by rw [sub_sub_sub_cancel_right]
        _ ≤ |realOf u - z| + |y - z| := abs_sub _ _
        _ < 2 ^ t := by linarith
    rw [eq_of_near_multiple hi hy hnear] at hlt
    exact hlt.false
  rcases Int.lt_or_le t' t with ht | ht
  · -- the number is not below the step's smallest full significand, the other double not above it
    have hsmall : |realOf v| ≤ 2 ^ 52 * 2 ^ t := by
      have hle : ((|j| : ℤ) : ℝ) ≤ 2 ^ 53 := by exact_mod_cast hle
      have hpow : (2 : ℝ) ^ (t' + 53) ≤ 2 ^ (t + 52) := zpow_le_zpow_right₀ one_le_two (by omega)
      rw [two_zpow_add_ofNat, two_zpow_add_ofNat] at hpow
      have hpos' : (0 : ℝ) < 2 ^ t' := by positivity
      rw [hj, abs_mul, ← Int.cast_abs, abs_of_pos hpos']
      exact (mul_le_mul_of_nonneg_right hle hpos'.le).trans hpow
    have hlarge : 2 ^ 52 * 2 ^ t ≤ |z| := by
      rw [← two_zpow_add_ofNat]
      exact hlower.resolve_right (by omega)
    obtain ⟨hlow, hhigh⟩ := abs_le.mp hsmall
    rcases le_total 0 z with hz | hz
    · rw [abs_of_nonneg hz] at hlarge
      refine (hmultiple (y := 2 ^ 52 * 2 ^ t) (k := 2 ^ 52) (by norm_num)).trans ?_
      rw [abs_of_nonpos (by linarith), abs_of_nonpos (by linarith)]
      linarith
    · rw [abs_of_nonpos hz] at hlarge
      refine (hmultiple (y := -(2 ^ 52 * 2 ^ t)) (k := -2 ^ 52) (by norm_num)).trans ?_
      rw [abs_of_nonneg (by linarith), abs_of_nonneg (by linarith)]
      linarith
  · obtain ⟨k, hk⟩ := multiple_of_le hj ht
    exact hmultiple hk

theorem Rounds.realOf_unique (h : Rounds u z) (h' : Rounds v z) : realOf u = realOf v := by
  by_cases hz : z = 0
  · have hzero : ∀ {u}, Rounds u z → realOf u = 0 := fun h => by
      simpa [hz] using h.nearest (rounds_zero .positive)
    rw [hzero h, hzero h']
  · obtain ⟨s, r, t, hr, hu, hs⟩ := h.exists_rounded
    obtain ⟨s', r', t', hr', hv, hs'⟩ := h'.exists_rounded
    obtain ⟨rfl, rfl⟩ := hr.unique hr'
    have hsign := mul_right_cancel₀ (abs_ne_zero.mpr hz) (hs.symm.trans hs')
    rw [hu, hv, hsign]

/-- Rounding keeps the order. -/
theorem Rounds.mono (h : Rounds u z) (h' : Rounds v w) (hzw : z ≤ w) : realOf u ≤ realOf v := by
  rcases hzw.eq_or_lt with rfl | hlt
  · exact (h.realOf_unique h').le
  · -- a crossing pair would lie around the midpoint on the wrong sides
    have hu := sq_le_sq.mpr (h.nearest h')
    have hv := sq_le_sq.mpr (h'.nearest h)
    nlinarith

end Order

/-- The double is finite and what the number is rounded to. -/
structure IsRounding (x : Float) (z : ℝ) : Prop where
  finite : isFinite x = true
  rounds : Rounds (fields x) z

theorem isRounding_ofFields (h : Rounds u z) (hz : |z| < overflow) : IsRounding (ofFields u) z := by
  refine ⟨(isFinite_iff_lt_overflow h).mpr hz, ?_⟩
  rwa [fields_ofFields (h.packable hz)]

theorem IsRounding.mono (h : IsRounding x z) (h' : IsRounding y w) (hzw : z ≤ w) :
    value x ≤ value y := h.rounds.mono h'.rounds hzw

theorem IsRounding.value_eq (h : IsRounding x z) (h' : IsRounding y z) : value x = value y :=
  h.rounds.realOf_unique h'.rounds

section Finite
variable (hx : isFinite x = true) (hy : isFinite y = true)

section
include hx

theorem isRounding_value : IsRounding x (value x) := ⟨hx, rounds_realOf (packable_fields x) hx⟩

theorem abs_value_lt_overflow : |value x| < overflow := by
  rw [← isFinite_iff_lt_overflow (isRounding_value hx).rounds, isFinite_ofFields (packable_fields x)]
  exact hx

end

include hx hy

theorem isFinite_add_iff : isFinite (x + y) = true ↔ |value x + value y| < overflow :=
  isFinite_iff_lt_overflow (rounds_add (packable_fields x) (packable_fields y) hx hy)

theorem isRounding_add (h : |value x + value y| < overflow) :
    IsRounding (x + y) (value x + value y) :=
  isRounding_ofFields (rounds_add (packable_fields x) (packable_fields y) hx hy) h

theorem isRounding_mul (h : |value x * value y| < overflow) :
    IsRounding (x * y) (value x * value y) :=
  isRounding_ofFields (rounds_mul (packable_fields x) (packable_fields y) hx hy) h

theorem isFinite_div_iff (h : value y ≠ 0) :
    isFinite (x / y) = true ↔ |value x / value y| < overflow :=
  isFinite_iff_lt_overflow (rounds_div hx hy h)

theorem isRounding_div (h0 : value y ≠ 0) (h : |value x / value y| < overflow) :
    IsRounding (x / y) (value x / value y) :=
  isRounding_ofFields (rounds_div hx hy h0) h

end Finite

theorem exists_significand (hx : isFinite x = true) :
    ∃ j e : ℤ, value x = j * 2 ^ e ∧ |j| < 2 ^ 53 ∧ -1074 ≤ e := by
  have hfx := packable_fields x
  cases hu : fields x with
  | notANumber | infinity s =>
    rw [isFinite_iff_fields, hu] at hx
    cases hx
  | zero s => exact ⟨0, 0, by simp [value, hu], by norm_num, by norm_num⟩
  | finite s m e hm =>
    rw [hu] at hfx
    refine ⟨s.apply m, e, by rw [value, hu, realOf_finite], ?_, hfx.min_le⟩
    rw [abs_apply]
    exact_mod_cast hfx.lt

/-- Doubling is exact, up to the overflow. -/
theorem isRounding_add_self (hx : isFinite x = true) (h : |value x + value x| < overflow) :
    isFinite (x + x) = true ∧ value (x + x) = value x + value x := by
  have hround := isRounding_add hx hx h
  obtain ⟨j, e, hj, hlt, hmin⟩ := exists_significand hx
  have htwice : value x + value x = j * 2 ^ (e + 1) := by
    rw [hj, zpow_add_one₀ two_ne_zero]
    ring
  exact ⟨hround.finite, hround.rounds.realOf_eq htwice hlt (by omega)⟩

theorem isFinite_ofFields_infinity (s : Sign) : isFinite (ofFields (.infinity s)) = false := by
  cases s <;> rfl

/-- A quotient by a finite double is not finite unless the dividend is. -/
theorem isFinite_of_div (h : isFinite (x / y) = true) (hy : isFinite y = true) :
    isFinite x = true := by
  rw [isFinite_iff_fields] at hy ⊢
  change isFinite (ofFields (.div .binary64 (fields x) (fields y))) = true at h
  cases hu : fields x with
  | zero s | finite s m e hm => rfl
  | notANumber =>
    rw [hu] at h
    have hdiv : UnpackedFloat.div .binary64 .notANumber (fields y) = .notANumber := by
      cases fields y <;> rfl
    rw [hdiv] at h
    exact h
  | infinity s =>
    cases hv : fields y with
    | notANumber | infinity t => simp [hv, UnpackedFloat.isFinite] at hy
    | zero t | finite t n f hn =>
      rw [hu, hv] at h
      exact (isFinite_ofFields_infinity _).symm.trans h

end IonCircuit.Binary64
