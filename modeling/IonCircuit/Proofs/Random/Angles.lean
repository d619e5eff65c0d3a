import IonCircuit.Proofs.Binary64.Bits
import IonCircuit.Proofs.Binary64.Nearest
import IonCircuit.Proofs.Equality
import IonCircuit.Random.Words

/-! The angles drawn from words: up to which bound there are any, and that they keep to it. -/
namespace IonCircuit.Random.Words
open Binary64
open Scalar (isFinite)
variable {low bound : Float}

theorem fields_topFraction :
    fields topFraction = .finite .positive (2 ^ 53 - 2) (-53) (by decide) := rfl

theorem isFinite_topFraction : isFinite topFraction = true := rfl

theorem value_topFraction : value topFraction = (2 ^ 52 - 1) / 2 ^ 52 := by
  rw [value, fields_topFraction, realOf_positive]
  norm_num

/-- The largest bound whose range, measured in units of its top, is finite. -/
def widest : Float := Float.ofBits 0x7fdffffffffffffd

theorem fields_widest : fields widest = .finite .positive (2 ^ 53 - 3) 970 (by decide) := rfl

theorem isFinite_widest : isFinite widest = true := rfl

theorem value_widest : value widest = (2 ^ 53 - 3) * 2 ^ (970 : ℤ) := by
  rw [value, fields_widest, realOf_positive]
  norm_num

/-- The range from the negative of the bound to the bound, in units of its top. -/
def span (bound : Float) : Float := (bound - -bound) / topFraction

theorem sub_neg_self (x : Float) : x - -x = x + x := by
  rw [sub_eq_add, Binary64.neg_neg]

/-- Bounds beyond the widest are larger by a whole step. -/
theorem value_of_widest_lt (hfin : isFinite bound = true) (h : ¬ bound ≤ widest) :
    (2 ^ 53 - 2) * 2 ^ (970 : ℤ) ≤ value bound := by
  have hunit : (0 : ℝ) < 2 ^ (970 : ℤ) := by positivity
  rw [le_iff_value hfin isFinite_widest, value_widest, not_le] at h
  have hlarge : (2 : ℝ) ^ (970 + 52 : ℤ) ≤ |value bound| := by
    refine le_trans ?_ (h.le.trans (le_abs_self _))
    rw [two_zpow_add_ofNat]
    exact mul_le_mul_of_nonneg_right (by norm_num) hunit.le
  obtain ⟨k, hk⟩ := exists_multiple hfin hlarge
  rw [hk] at h ⊢
  have hlt : (2 ^ 53 - 3 : ℝ) < k := lt_of_mul_lt_mul_right h hunit.le
  have hlt : (2 ^ 53 - 3 : ℤ) < k := by exact_mod_cast hlt
  have hle : (2 ^ 53 - 2 : ℤ) ≤ k := by omega
  exact mul_le_mul_of_nonneg_right (by exact_mod_cast hle) hunit.le

theorem value_topFraction_ne_zero : value topFraction ≠ 0 := by
  rw [value_topFraction]
  norm_num

theorem div_topFraction (z : ℝ) : z / value topFraction = z * (2 ^ 52 / (2 ^ 52 - 1)) := by
  rw [value_topFraction, div_div_eq_mul_div, mul_div_assoc]

section Span
variable (hfin : isFinite bound = true) (hbound : 0 ≤ bound)
include hfin

theorem le_widest_of_isFinite_span (h : isFinite (span bound) = true) : bound ≤ widest := by
  rw [span, sub_neg_self] at h
  have hsum := isFinite_of_div h isFinite_topFraction
  rw [isFinite_div_iff hsum isFinite_topFraction value_topFraction_ne_zero, (isRounding_add_self hfin
    ((isFinite_add_iff hfin hfin).mp hsum)).2, div_topFraction, overflow_eq] at h
  have h := (le_abs_self _).trans_lt h
  have hunit : (0 : ℝ) < 2 ^ (970 : ℤ) := by positivity
  by_contra hwide
  have hlarge := value_of_widest_lt hfin hwide
  generalize (2 : ℝ) ^ (970 : ℤ) = unit at *
  linarith

include hbound

theorem value_nonneg : 0 ≤ value bound := (le_iff_value isFinite_zero hfin).mp hbound

theorem isRounding_span (h : bound ≤ widest) :
    IsRounding (span bound) ((value bound + value bound) / value topFraction) := by
  have hnonneg := value_nonneg hfin hbound
  have hle := (le_iff_value hfin isFinite_widest).mp h
  rw [value_widest] at hle
  have hunit : (0 : ℝ) < 2 ^ (970 : ℤ) := by positivity
  have hsum : |value bound + value bound| < overflow := by
    rw [abs_of_nonneg (by linarith), overflow_eq]
    generalize (2 : ℝ) ^ (970 : ℤ) = unit at *
    linarith
  obtain ⟨hdouble, hvalue⟩ := isRounding_add_self hfin hsum
  rw [span, sub_neg_self, ← hvalue]
  refine isRounding_div hdouble isFinite_topFraction value_topFraction_ne_zero ?_
  rw [hvalue, div_topFraction, abs_of_nonneg (by linarith), overflow_eq]
  generalize (2 : ℝ) ^ (970 : ℤ) = unit at *
  linarith

/-- In units of its top a range is finite up to the widest bound. -/
theorem isFinite_span_iff : isFinite (span bound) = true ↔ bound ≤ widest :=
  ⟨le_widest_of_isFinite_span hfin, fun h => (isRounding_span hfin hbound h).finite⟩

end Span

/-- A scale of the range with which its top does not pass its end. -/
structure IsScale (low high scale : Float) : Prop where
  finite : isFinite scale = true
  nonneg : 0 ≤ value scale
  fits : ¬ high < scale * topFraction + low

section Scale
variable {high : Float}

theorem isScale_fitScale (hzero : IsScale low high 0) {bits : ℕ} (hbits : bits < infinityBits) :
    IsScale low high (fitScale low high bits) := by
  induction bits with
  | zero => exact hzero
  | succ bits ih =>
    rw [fitScale]
    split
    · exact ih (by omega)
    · rename_i hfits
      obtain ⟨hfin, hnonneg⟩ := isFinite_ofBits hbits
      exact ⟨hfin, hnonneg, hfits⟩

theorem fitScale_of_isScale {scale : Float} (hzero : IsScale low high 0)
    (h : IsScale low high scale) :
    IsScale low high (fitScale low high scale.toBits.toNat) := by
  cases hbits : scale.toBits.toNat with
  | zero => exact hzero
  | succ bits =>
    have hscale : Float.ofBits (bits + 1).toUInt64 = scale := by
      rw [← hbits]
      have hround : scale.toBits.toNat.toUInt64 = scale.toBits := UInt64.ofNat_toNat
      rw [hround]
      exact ofFields_fields scale
    rw [fitScale]
    simp only [hscale, if_neg h.fits]
    exact h

end Scale

/-- The fraction of the range that a word stands for. -/
def fraction (w : ℕ) : Float := ofScaled (w >>> 12) (-52) .positive

theorem value_fraction {w : ℕ} (hw : w < 2 ^ 64) : isFinite (fraction w) = true ∧
    0 ≤ value (fraction w) ∧ value (fraction w) ≤ value topFraction := by
  have hlt : w >>> 12 < 2 ^ 52 := by
    rw [Nat.shiftRight_eq_div_pow]
    omega
  generalize hk : w >>> 12 = k at hlt
  have hexact : Near _ ((k : ℤ) * 2 ^ (-52 : ℤ)) 0 :=
    (rounds_normalize k (-52) .positive).near_exact rfl (by rw [abs_of_nonneg] <;> omega)
      (by norm_num) (by norm_num)
  obtain ⟨hfin, herror⟩ := value_of_near hexact
  have hvalue := sub_eq_zero.mp (abs_nonpos_iff.mp herror)
  rw [fraction, hk]
  have hle : ((k : ℤ) : ℝ) ≤ 2 ^ 52 - 1 := by
    have hle : (k : ℤ) ≤ 2 ^ 52 - 1 := by omega
    exact_mod_cast hle
  refine ⟨hfin, hvalue ▸ by positivity, ?_⟩
  have hpow : (2 : ℝ) ^ (-52 : ℤ) = 1 / 2 ^ 52 := by norm_num
  refine hvalue.trans_le ?_
  rw [hpow, mul_one_div, value_topFraction]
  exact div_le_div_of_nonneg_right hle (by positivity)

section Range
variable (hfin : isFinite bound = true) (hbound : 0 ≤ bound)
include hfin hbound

theorem isRounding_add_neg {x : Float} (hx : isFinite x = true) (hnonneg : 0 ≤ value x) :
    IsRounding (x + -bound) (value x + value (-bound)) := by
  have h0 := value_nonneg hfin hbound
  have hlarge := (le_abs_self _).trans_lt (abs_value_lt_overflow hx)
  have hlow := (le_abs_self _).trans_lt (abs_value_lt_overflow hfin)
  refine isRounding_add hx (isFinite_neg.trans hfin) ?_
  rw [value_neg, abs_lt]
  constructor <;> linarith

theorem isScale_of_value_eq_zero {scale : Float} (hscale : isFinite scale = true)
    (hzero : value scale = 0) : IsScale (-bound) bound scale := by
  have hproduct : IsRounding (scale * topFraction) 0 := by
    have h := isRounding_mul hscale isFinite_topFraction
    rw [hzero, zero_mul, abs_zero] at h
    exact h overflow_pos
  have hvalue : value (scale * topFraction) = 0 := hproduct.value_eq (isRounding_value isFinite_zero)
  have hsum := isRounding_add_neg hfin hbound hproduct.finite hvalue.ge
  refine ⟨hscale, hzero.ge, ?_⟩
  rw [lt_iff_value hfin hsum.finite, not_lt]
  refine hsum.mono (isRounding_value hfin) ?_
  rw [hvalue, value_neg]
  linarith [value_nonneg hfin hbound]

theorem isScale_span (h : bound ≤ widest) :
    IsScale (-bound) bound (fitScale (-bound) bound (span bound).toBits.toNat) := by
  have hspan := isRounding_span hfin hbound h
  have hzero := isScale_of_value_eq_zero hfin hbound isFinite_zero value_zero
  rcases eq_or_ne (value (span bound)) 0 with hvalue | hvalue
  · exact fitScale_of_isScale hzero (isScale_of_value_eq_zero hfin hbound hspan.finite hvalue)
  · refine isScale_fitScale hzero (toBits_lt hspan.finite (lt_of_le_of_ne ?_ hvalue.symm))
    refine (isRounding_value isFinite_zero).mono hspan ?_
    have hnonneg := value_nonneg hfin hbound
    rw [value_zero, div_topFraction]
    positivity

/-- An angle up to the bound, whatever the word. -/
theorem angle_mem {scale : Float} (hscale : IsScale (-bound) bound scale) {w : ℕ}
    (hw : w < 2 ^ 64) :
    -bound ≤ fraction w * scale + -bound ∧ fraction w * scale + -bound ≤ bound := by
  obtain ⟨hfraction, hnonneg, hle⟩ := value_fraction hw
  have hlow : isFinite (-bound) = true := isFinite_neg.trans hfin
  have htop : value topFraction ≤ 1 := by
    rw [value_topFraction]
    norm_num
  have hbelow := (le_abs_self _).trans_lt (abs_value_lt_overflow hscale.finite)
  have hscaled : value (fraction w) * value scale ≤ value scale * value topFraction := by
    rw [mul_comm (value scale)]
    exact mul_le_mul_of_nonneg_right hle hscale.nonneg
  have hsmall : value scale * value topFraction ≤ value scale :=
    mul_le_of_le_one_right hscale.nonneg htop
  have hzero : 0 ≤ value (fraction w) * value scale := mul_nonneg hnonneg hscale.nonneg
  have hproduct : IsRounding (fraction w * scale) (value (fraction w) * value scale) :=
    isRounding_mul hfraction hscale.finite (by rw [abs_of_nonneg] <;> linarith)
  have htopProduct : IsRounding (scale * topFraction) (value scale * value topFraction) :=
    isRounding_mul hscale.finite isFinite_topFraction (by rw [abs_of_nonneg] <;> linarith)
  have hproductNonneg := (isRounding_value isFinite_zero).mono hproduct (value_zero.trans_le hzero)
  rw [value_zero] at hproductNonneg
  have horder := hproduct.mono htopProduct hscaled
  have hangle := isRounding_add_neg hfin hbound hproduct.finite hproductNonneg
  have htopAngle := isRounding_add_neg hfin hbound htopProduct.finite (hproductNonneg.trans horder)
  constructor
  · rw [le_iff_value hlow hangle.finite]
    exact (isRounding_value hlow).mono hangle (by linarith)
  · have hfits := hscale.fits
    rw [lt_iff_value hfin htopAngle.finite, not_lt] at hfits
    rw [le_iff_value hangle.finite hfin]
    exact (hangle.mono htopAngle (by linarith)).trans hfits

end Range

end IonCircuit.Random.Words
