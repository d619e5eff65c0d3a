import IonCircuit.Proofs.Binary64.Canonical

/-! The real number that a double stands for, and the order of doubles by it. -/
namespace IonCircuit.Binary64
open Float.Model (UnpackedFloat Format)
open Float.Model.UnpackedFloat (Sign)
variable {s : Sign} {m n : ℕ} {e f : ℤ} {u v : UnpackedFloat} {x y : Float}

/-- The real number with these fields, zero for those that stand for none. -/
noncomputable def realOf : UnpackedFloat → ℝ
  | .finite s m e _ => (s.apply m : ℝ) * 2 ^ e
  | _ => 0

noncomputable def value (x : Float) : ℝ := realOf (fields x)

theorem le_iff_fields : x ≤ y ↔ (fields x).le (fields y) = true := decide_eq_true_iff

theorem lt_iff_fields : x < y ↔ (fields x).lt (fields y) = true := decide_eq_true_iff

theorem isFinite_iff_fields : Scalar.isFinite x = (fields x).isFinite := rfl

@[simp] theorem apply_positive (k : ℤ) : Sign.positive.apply k = k := rfl

@[simp] theorem apply_negative (k : ℤ) : Sign.negative.apply k = -k := rfl

@[simp] theorem realOf_zero : realOf (.zero s) = 0 := rfl

@[simp] theorem realOf_positive (hpos : 0 < m) : realOf (.finite .positive m e hpos) = m * 2 ^ e := by
  simp [realOf]

@[simp] theorem realOf_negative (hpos : 0 < m) :
    realOf (.finite .negative m e hpos) = -(m * 2 ^ e) := by
  simp [realOf]

theorem magnitude_pos (hpos : 0 < m) : (0 : ℝ) < m * 2 ^ e := by positivity

/-- A larger exponent outweighs any significand. -/
theorem magnitude_lt_of_exponent_lt (hm : Canonical m e) (hn : Canonical n f) (h : e < f) :
    (m : ℝ) * 2 ^ e < n * 2 ^ f := by
  have hfull : 2 ^ 52 ≤ n := hn.full.resolve_right (by have := hm.min_le; omega)
  have hm : (m : ℝ) < 2 ^ 53 := by exact_mod_cast hm.lt
  have hn : (2 : ℝ) ^ 52 ≤ n := by exact_mod_cast hfull
  have hpos : (0 : ℝ) < 2 ^ e := by positivity
  have hpow : (2 : ℝ) ^ (e + 1) ≤ 2 ^ f := zpow_le_zpow_right₀ one_le_two h
  calc (m : ℝ) * 2 ^ e < 2 ^ 53 * 2 ^ e := by gcongr
    _ = 2 ^ 52 * 2 ^ (e + 1) := by rw [zpow_add_one₀ two_ne_zero]; ring
    _ ≤ n * 2 ^ f := by gcongr

theorem compare_magnitude (hm : Canonical m e) (hn : Canonical n f) :
    (compare e f).then (compare m n) = cmp ((m : ℝ) * 2 ^ e) (n * 2 ^ f) := by
  rcases lt_trichotomy e f with h | rfl | h
  · have hlt := magnitude_lt_of_exponent_lt hm hn h
    rw [compare_lt_iff_lt.mpr h, cmp_eq_lt_iff _ _ |>.mpr hlt]
    rfl
  · have hpos : (0 : ℝ) < 2 ^ e := by positivity
    rw [compare_eq_iff_eq.mpr rfl, Ordering.eq_then, cmp_mul_pos_right hpos,
      Nat.strictMono_cast.cmp_map_eq, cmp_eq_compare]
  · have hlt := magnitude_lt_of_exponent_lt hn hm h
    rw [compare_gt_iff_gt.mpr h, cmp_eq_gt_iff _ _ |>.mpr hlt]
    rfl

/-- Finite doubles are ordered like the numbers they stand for. -/
theorem compare_eq_cmp (hu : Packable u) (hv : Packable v) (hfu : u.isFinite = true)
    (hfv : v.isFinite = true) : u.compare v = some (cmp (realOf u) (realOf v)) := by
  cases u with
  | notANumber | infinity s => cases hfu
  | zero s =>
    cases v with
    | notANumber | infinity s => cases hfv
    | zero t => exact congrArg some (cmp_self_eq_eq _).symm
    | finite t n f hn =>
      have hpos : (0 : ℝ) < n * 2 ^ f := magnitude_pos hn
      cases t with
      | positive =>
        rw [realOf_positive, realOf_zero, (cmp_eq_lt_iff _ _).mpr hpos]
        rfl
      | negative =>
        rw [realOf_negative, realOf_zero, (cmp_eq_gt_iff _ _).mpr (neg_lt_zero.mpr hpos)]
        rfl
  | finite s m e hm =>
    have hpos : (0 : ℝ) < m * 2 ^ e := magnitude_pos hm
    cases v with
    | notANumber | infinity s => cases hfv
    | zero t =>
      cases s with
      | positive =>
        rw [realOf_positive, realOf_zero, (cmp_eq_gt_iff _ _).mpr hpos]
        rfl
      | negative =>
        rw [realOf_negative, realOf_zero, (cmp_eq_lt_iff _ _).mpr (neg_lt_zero.mpr hpos)]
        rfl
    | finite t n f hn =>
      have hpos' : (0 : ℝ) < n * 2 ^ f := magnitude_pos hn
      have hcmp := compare_magnitude hu hv
      cases s <;> cases t
      · have hanti : StrictAnti (Neg.neg : ℝ → ℝ) := fun _ _ h => neg_lt_neg h
        rw [realOf_negative, realOf_negative, hanti.cmp_map_eq, ← cmp_swap, ← hcmp]
        rfl
      · rw [realOf_negative, realOf_positive, (cmp_eq_lt_iff _ _).mpr (by linarith)]
        rfl
      · rw [realOf_negative, realOf_positive, (cmp_eq_gt_iff _ _).mpr (by linarith)]
        rfl
      · rw [realOf_positive, realOf_positive, ← hcmp]
        rfl

section Order
variable (hx : Scalar.isFinite x = true) (hy : Scalar.isFinite y = true)
include hx hy

theorem le_iff_value : x ≤ y ↔ value x ≤ value y := by
  rw [le_iff_fields, UnpackedFloat.le,
    compare_eq_cmp (packable_fields x) (packable_fields y) hx hy, Option.any_some,
    Ordering.isLE_iff_ne_gt, cmp_eq_gt_iff, not_lt]
  rfl

theorem lt_iff_value : x < y ↔ value x < value y := by
  rw [lt_iff_fields, UnpackedFloat.lt,
    compare_eq_cmp (packable_fields x) (packable_fields y) hx hy, Option.some_beq_some,
    beq_iff_eq, cmp_eq_lt_iff]
  rfl

end Order

theorem fields_neg (x : Float) : fields (-x) = (fields x).neg := by
  refine fields_ofFields ?_
  have h := packable_fields x
  unfold fields at h
  cases hu : x.toModel.unpack <;> simp_all [UnpackedFloat.neg, Packable]

theorem fields_abs (x : Float) : fields x.abs = (fields x).abs := by
  refine fields_ofFields ?_
  have h := packable_fields x
  unfold fields at h
  cases hu : x.toModel.unpack <;> simp_all [UnpackedFloat.abs, Packable]

theorem isFinite_neg : Scalar.isFinite (-x) = Scalar.isFinite x := by
  rw [isFinite_iff_fields, isFinite_iff_fields, fields_neg]
  cases fields x <;> rfl

theorem isFinite_abs : Scalar.isFinite x.abs = Scalar.isFinite x := by
  rw [isFinite_iff_fields, isFinite_iff_fields, fields_abs]
  cases fields x <;> rfl

theorem value_neg : value (-x) = -value x := by
  rw [value, value, fields_neg]
  cases fields x with
  | notANumber | infinity s | zero s => exact neg_zero.symm
  | finite s m e hm =>
    cases s
    · rw [realOf_negative, neg_neg]
      exact realOf_positive hm
    · rw [realOf_positive]
      exact realOf_negative hm

theorem value_abs : value x.abs = |value x| := by
  rw [value, value, fields_abs]
  cases fields x with
  | notANumber | infinity s | zero s => exact abs_zero.symm
  | finite s m e hm =>
    have hpos : (0 : ℝ) < m * 2 ^ e := magnitude_pos hm
    cases s
    · rw [realOf_negative, abs_neg, abs_of_pos hpos]
      exact realOf_positive hm
    · rw [realOf_positive, abs_of_pos hpos]
      exact realOf_positive hm

end IonCircuit.Binary64
