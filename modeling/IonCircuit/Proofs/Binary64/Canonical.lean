import IonCircuit.Binary64
import Mathlib

/-! The fields of doubles: which fields occur, and that packing keeps them. -/
namespace IonCircuit.Binary64
open Float.Model (UnpackedFloat Format)
open Float.Model.UnpackedFloat (Sign)
variable {s : Sign} {m : ℕ} {e : ℤ} {u : UnpackedFloat} {x y : Float}

/-- The fields that a double stands for. -/
def fields (x : Float) : UnpackedFloat := x.toModel.unpack

/-- A significand and an exponent as a finite double has them: full precision, unless the
exponent is the smallest. -/
structure Canonical (m : ℕ) (e : ℤ) : Prop where
  lt : m < 2 ^ 53
  min_le : -1074 ≤ e
  le_max : e ≤ 971
  full : 2 ^ 52 ≤ m ∨ e = -1074

/-- Fields that survive packing. -/
def Packable : UnpackedFloat → Prop
  | .finite _ m e _ => Canonical m e
  | _ => True

theorem toNat_implicit (v : BitVec 52) : (1#1 ++ v).toNat = 2 ^ 52 + v.toNat := by
  rw [BitVec.toNat_append, ← Nat.shiftLeft_add_eq_or_of_lt v.isLt]
  rfl

theorem packable_unpack (b : BitVec 64) : Packable (UnpackedFloat.unpack .binary64 b) := by
  have hm : (@UnpackedFloat.unpackMantissa .binary64 b).toNat < 2 ^ 52 := BitVec.isLt _
  have he : (@UnpackedFloat.unpackExponent .binary64 b).toNat < 2 ^ 11 := BitVec.isLt _
  have hbias : Format.binary64.exponentBias = 1023 := rfl
  unfold UnpackedFloat.unpack
  dsimp only
  split
  · split <;> trivial
  · rename_i hones
    have hones : (@UnpackedFloat.unpackExponent .binary64 b).toNat ≠ 2047 :=
      fun h => hones (BitVec.eq_of_toNat_eq h)
    split
    · rename_i hzero
      split
      · trivial
      · refine ⟨?_, ?_, ?_, .inr ?_⟩
        · omega
        all_goals
          rw [hzero, hbias]
          simp
    · rename_i hzero
      have hzero : (@UnpackedFloat.unpackExponent .binary64 b).toNat ≠ 0 :=
        fun h => hzero (BitVec.eq_of_toNat_eq h)
      refine ⟨?_, ?_, ?_, .inl ?_⟩
      · rw [toNat_implicit]
        omega
      · rw [hbias]
        omega
      · rw [hbias]
        omega
      · rw [toNat_implicit]
        omega

theorem packable_fields (x : Float) : Packable (fields x) := packable_unpack _

theorem finite_congr {n : ℕ} {f : ℤ} {hm : 0 < m} {hn : 0 < n} (hmn : m = n) (hef : e = f) :
    UnpackedFloat.finite s m e hm = .finite s n f hn := by
  subst hmn hef
  rfl

section Components
variable {w : BitVec 11} {v : BitVec 52}

theorem unpack_normal (hones : w ≠ -1#11) (hzero : w ≠ 0#11) (hpos : 0 < 2 ^ 52 + v.toNat) :
    UnpackedFloat.unpack .binary64 (UnpackedFloat.packComponents .binary64 s w v) =
      .finite s (2 ^ 52 + v.toNat) (w.toNat - 1075) hpos := by
  unfold UnpackedFloat.unpack
  dsimp only
  rw [UnpackedFloat.unpackExponent_packComponents, if_neg hones, if_neg hzero,
    UnpackedFloat.unpackSign_packComponents, Sign.ofBitVec_toBitVec]
  refine finite_congr ?_ rfl
  rw [UnpackedFloat.unpackMantissa_packComponents, toNat_implicit]

theorem unpack_subnormal (hne : v ≠ 0#52) (hpos : 0 < v.toNat) :
    UnpackedFloat.unpack .binary64 (UnpackedFloat.packComponents .binary64 s 0#11 v) =
      .finite s v.toNat (-1074) hpos := by
  have hones : (0#11 : BitVec 11) ≠ -1#11 := by decide
  have hmant : @UnpackedFloat.unpackMantissa .binary64
      (UnpackedFloat.packComponents .binary64 s 0#11 v) = v :=
    UnpackedFloat.unpackMantissa_packComponents
  unfold UnpackedFloat.unpack
  dsimp only
  rw [UnpackedFloat.unpackExponent_packComponents, if_neg hones, if_pos rfl,
    dif_neg (hmant.symm ▸ hne), UnpackedFloat.unpackSign_packComponents, Sign.ofBitVec_toBitVec]
  exact finite_congr (congrArg BitVec.toNat hmant) rfl

end Components

theorem unpack_pack_of_full (h : Canonical m e) (hfull : 2 ^ 52 ≤ m) (hpos : 0 < m) :
    UnpackedFloat.unpack .binary64 (UnpackedFloat.pack .binary64 (.finite s m e hpos)) =
      .finite s m e hpos := by
  obtain ⟨hlt, hmin, hmax, -⟩ := h
  have hlog : m.log2 + 1 = 53 := by
    rw [(Nat.log2_eq_iff hpos.ne').mpr ⟨hfull, hlt⟩]
  have hexp : (e + 1023 + 52).toNat = (e + 1075).toNat := by omega
  have hpack : UnpackedFloat.pack .binary64 (.finite s m e hpos) =
      UnpackedFloat.packComponents .binary64 s (BitVec.ofNat 11 (e + 1023 + 52).toNat)
        (BitVec.ofNat 52 m) := by
    have hfits : ¬ 2 ^ 11 ≤ (e + 1023 + 52).toNat + 1 := by omega
    unfold UnpackedFloat.pack
    exact (if_neg hfits).trans (if_pos hlog)
  have hw : (BitVec.ofNat 11 (e + 1023 + 52).toNat).toNat = (e + 1075).toNat := by
    rw [BitVec.toNat_ofNat, hexp, Nat.mod_eq_of_lt (by omega)]
  have hv : 2 ^ 52 + (BitVec.ofNat 52 m).toNat = m := by
    rw [BitVec.toNat_ofNat]
    omega
  rw [hpack, unpack_normal _ _ (by omega)]
  · exact finite_congr hv (by omega)
  · intro h
    have := congrArg BitVec.toNat h
    rw [hw] at this
    have hones : (-1#11 : BitVec 11).toNat = 2047 := rfl
    omega
  · intro h
    have := congrArg BitVec.toNat h
    rw [hw] at this
    have hzero : (0#11 : BitVec 11).toNat = 0 := rfl
    omega

theorem unpack_pack_of_subnormal (hlt : m < 2 ^ 52) (hpos : 0 < m) :
    UnpackedFloat.unpack .binary64 (UnpackedFloat.pack .binary64 (.finite s m (-1074) hpos)) =
      .finite s m (-1074) hpos := by
  have hlog : m.log2 + 1 ≠ 53 := by
    have := (Nat.log2_lt hpos.ne').mpr hlt
    omega
  have hv : (BitVec.ofNat 52 m).toNat = m := by
    rw [BitVec.toNat_ofNat, Nat.mod_eq_of_lt hlt]
  have hne : BitVec.ofNat 52 m ≠ 0#52 := by
    intro h
    rw [h] at hv
    exact hpos.ne hv
  have hpack : UnpackedFloat.pack .binary64 (.finite s m (-1074) hpos) =
      UnpackedFloat.packComponents .binary64 s 0#11 (BitVec.ofNat 52 m) := by
    unfold UnpackedFloat.pack
    exact (if_neg (by decide)).trans (if_neg hlog)
  rw [hpack, unpack_subnormal hne (by omega)]
  exact finite_congr hv rfl

/-- Packing loses nothing of the fields of a double. -/
theorem fields_ofFields (h : Packable u) : fields (ofFields u) = u := by
  change UnpackedFloat.unpack .binary64 (UnpackedFloat.pack .binary64 u) = u
  cases u with
  | notANumber => rfl
  | infinity s | zero s => cases s <;> rfl
  | finite s m e hpos =>
    by_cases hfull : 2 ^ 52 ≤ m
    · exact unpack_pack_of_full h hfull hpos
    · obtain rfl : e = -1074 := h.full.resolve_left hfull
      exact unpack_pack_of_subnormal (not_le.mp hfull) hpos

end IonCircuit.Binary64
