import IonCircuit.Proofs.Binary64.Rounding

/-! The bits of doubles: those below the bits of infinity are the bits of the finite ones that are
not negative. -/
namespace IonCircuit.Binary64
open Float.Model (UnpackedFloat)
open Float.Model.UnpackedFloat (Sign)
open Scalar (isFinite)
variable {b : BitVec 64}

theorem toNat_unpackExponent :
    (@UnpackedFloat.unpackExponent .binary64 b).toNat = b.toNat / 2 ^ 52 % 2 ^ 11 := by
  simp [UnpackedFloat.unpackExponent, BitVec.extractLsb, Nat.shiftRight_eq_div_pow]

theorem toNat_unpackSign :
    (@UnpackedFloat.unpackSign .binary64 b).toNat = b.toNat / 2 ^ 63 % 2 := by
  simp [UnpackedFloat.unpackSign, BitVec.extractLsb, Nat.shiftRight_eq_div_pow]

theorem isFinite_unpack_iff : (UnpackedFloat.unpack .binary64 b).isFinite = true ↔
    b.toNat / 2 ^ 52 % 2 ^ 11 ≠ 2047 := by
  have hones : @UnpackedFloat.unpackExponent .binary64 b = -1#11 ↔
      b.toNat / 2 ^ 52 % 2 ^ 11 = 2047 := by
    rw [← toNat_unpackExponent, ← BitVec.toNat_inj]
    rfl
  unfold UnpackedFloat.unpack
  dsimp only
  rw [ne_eq, ← hones]
  split
  · rename_i h
    refine iff_of_false ?_ (not_not.mpr h)
    split <;> exact Bool.false_ne_true
  · rename_i h
    refine iff_of_true ?_ h
    split
    · split <;> rfl
    · rfl

/-- The first bit is the sign of the number. -/
theorem exists_realOf_unpack (b : BitVec 64) : ∃ x : ℝ, 0 ≤ x ∧
    realOf (UnpackedFloat.unpack .binary64 b) =
      ((Sign.ofBitVec (@UnpackedFloat.unpackSign .binary64 b)).apply 1 : ℤ) * x := by
  unfold UnpackedFloat.unpack
  dsimp only
  repeat' split
  all_goals first
    | exact ⟨_, by positivity, realOf_eq_mul _⟩
    | exact ⟨0, le_rfl, (mul_zero _).symm⟩

theorem zero_le_unpack (h : b.toNat < 2 ^ 63) : 0 ≤ realOf (UnpackedFloat.unpack .binary64 b) := by
  have hsign : @UnpackedFloat.unpackSign .binary64 b = 0#1 := by
    rw [← BitVec.toNat_inj, toNat_unpackSign, Nat.div_eq_of_lt h]
    rfl
  obtain ⟨x, hx, hvalue⟩ := exists_realOf_unpack b
  rw [hvalue, hsign]
  simpa [Sign.ofBitVec] using hx

theorem unpack_le_zero (h : 2 ^ 63 ≤ b.toNat) : realOf (UnpackedFloat.unpack .binary64 b) ≤ 0 := by
  have hsign : @UnpackedFloat.unpackSign .binary64 b = 1#1 := by
    have hlt := b.isLt
    rw [← BitVec.toNat_inj, toNat_unpackSign]
    change _ = 1
    omega
  obtain ⟨x, hx, hvalue⟩ := exists_realOf_unpack b
  rw [hvalue, hsign]
  simpa [Sign.ofBitVec] using hx

/-- The bits of infinity. -/
def infinityBits : ℕ := 2047 * 2 ^ 52

theorem fields_ofBits (a : UInt64) :
    fields (Float.ofBits a) = UnpackedFloat.unpack .binary64 a.toBitVec :=
  fields_ofFields (packable_unpack _)

theorem isFinite_ofBits {k : ℕ} (hk : k < infinityBits) :
    isFinite (Float.ofBits k.toUInt64) = true ∧ 0 ≤ value (Float.ofBits k.toUInt64) := by
  unfold infinityBits at hk
  have htoNat : k.toUInt64.toBitVec.toNat = k := Nat.mod_eq_of_lt (by omega)
  rw [isFinite_iff_fields, value, fields_ofBits, isFinite_unpack_iff, htoNat]
  refine ⟨by omega, zero_le_unpack ?_⟩
  rw [htoNat]
  omega

theorem toBits_lt {x : Float} (hfin : isFinite x = true) (hpos : 0 < value x) :
    x.toBits.toNat < infinityBits := by
  have hfin := isFinite_unpack_iff.mp hfin
  have hlt : x.toBits.toNat < 2 ^ 63 := by
    by_contra h
    exact hpos.not_ge (unpack_le_zero (not_lt.mp h))
  change x.toBits.toNat / 2 ^ 52 % 2 ^ 11 ≠ 2047 at hfin
  unfold infinityBits
  omega

end IonCircuit.Binary64
