import IonCircuit.Proofs.Binary64.Lawful
import Mathlib.Data.EReal.Basic

/-! The order of all doubles. Those that are numbers, infinities among them, are ordered like
extended reals; what is not a number compares with nothing, and no arithmetic makes a number of it. -/
namespace IonCircuit.Binary64
open Float.Model (UnpackedFloat)
variable {s : UnpackedFloat.Sign} {u v : UnpackedFloat} {x y z : Float}

/-- The extended real with these fields. -/
noncomputable def extendedOf : UnpackedFloat → EReal
  | .infinity .positive => ⊤
  | .infinity .negative => ⊥
  | u => realOf u

noncomputable def extended (x : Float) : EReal := extendedOf (fields x)

/-- A finite double or an infinity. -/
def IsNumber (x : Float) : Prop := fields x ≠ .notANumber

theorem extendedOf_of_isFinite (h : u.isFinite = true) : extendedOf u = realOf u := by
  cases u with
  | notANumber | infinity s => cases h
  | zero s | finite s m e hm => rfl

/-- An infinity lies beyond every finite double. -/
theorem compare_infinity (hv : v.isFinite = true) :
    (UnpackedFloat.infinity s).compare v = some (cmp (extendedOf (.infinity s)) (extendedOf v)) ∧
      v.compare (.infinity s) = some (cmp (extendedOf v) (extendedOf (.infinity s))) := by
  rw [extendedOf_of_isFinite hv]
  cases s with
  | positive =>
    change _ = some (cmp ⊤ _) ∧ _ = some (cmp _ ⊤)
    rw [(cmp_eq_gt_iff _ _).mpr (EReal.coe_lt_top _), (cmp_eq_lt_iff _ _).mpr (EReal.coe_lt_top _)]
    cases v with
    | notANumber | infinity s => cases hv
    | zero t => exact ⟨rfl, rfl⟩
    | finite t m e hm => cases t <;> exact ⟨rfl, rfl⟩
  | negative =>
    change _ = some (cmp ⊥ _) ∧ _ = some (cmp _ ⊥)
    rw [(cmp_eq_lt_iff _ _).mpr (EReal.bot_lt_coe _), (cmp_eq_gt_iff _ _).mpr (EReal.bot_lt_coe _)]
    cases v with
    | notANumber | infinity s => cases hv
    | zero t => exact ⟨rfl, rfl⟩
    | finite t m e hm => cases t <;> exact ⟨rfl, rfl⟩

theorem isFinite_or_infinity (h : u ≠ .notANumber) : u.isFinite = true ∨ ∃ s, u = .infinity s := by
  cases u with
  | notANumber => exact (h rfl).elim
  | infinity s => exact .inr ⟨s, rfl⟩
  | zero s | finite s m e hm => exact .inl rfl

theorem isFinite_eq_false_iff :
    Scalar.isFinite x = false ↔ x.isNaN = true ∨ x.isInf = true := by
  change (fields x).isFinite = false ↔ (fields x).isNaN = true ∨ (fields x).isInf = true
  cases fields x with
  | notANumber => exact iff_of_true rfl (.inl rfl)
  | infinity s => exact iff_of_true rfl (.inr rfl)
  | zero s | finite s m e hm => exact iff_of_false nofun (by rintro (h | h) <;> cases h)

theorem compare_eq_cmp_extended (hu : Packable u) (hv : Packable v) (hnu : u ≠ .notANumber)
    (hnv : v ≠ .notANumber) : u.compare v = some (cmp (extendedOf u) (extendedOf v)) := by
  rcases isFinite_or_infinity hnu with hfu | ⟨s, rfl⟩ <;>
    rcases isFinite_or_infinity hnv with hfv | ⟨t, rfl⟩
  · rw [compare_eq_cmp hu hv hfu hfv, extendedOf_of_isFinite hfu, extendedOf_of_isFinite hfv,
      EReal.coe_strictMono.cmp_map_eq]
  · exact (compare_infinity hfu).2
  · exact (compare_infinity hfv).1
  · cases s <;> cases t
    · exact congrArg some (cmp_self_eq_eq _).symm
    · exact congrArg some ((cmp_eq_lt_iff _ _).mpr bot_lt_top).symm
    · exact congrArg some ((cmp_eq_gt_iff _ _).mpr bot_lt_top).symm
    · exact congrArg some (cmp_self_eq_eq _).symm

section Order
variable (hx : IsNumber x) (hy : IsNumber y)
include hx hy

theorem compare_fields : (fields x).compare (fields y) = some (cmp (extended x) (extended y)) :=
  compare_eq_cmp_extended (packable_fields x) (packable_fields y) hx hy

theorem le_iff_extended_le : x ≤ y ↔ extended x ≤ extended y := by
  rw [le_iff_fields, UnpackedFloat.le, compare_fields hx hy, Option.any_some,
    Ordering.isLE_iff_ne_gt, cmp_eq_gt_iff, not_lt]

theorem lt_iff_extended_lt : x < y ↔ extended x < extended y := by
  rw [lt_iff_fields, UnpackedFloat.lt, compare_fields hx hy, Option.some_beq_some, beq_iff_eq,
    cmp_eq_lt_iff]

theorem lt_of_not_le (h : ¬ x ≤ y) : y < x := by
  rw [le_iff_extended_le hx hy, not_le] at h
  exact (lt_iff_extended_lt hy hx).mpr h

end Order

/-- What compares is a number. -/
theorem isNumber_of_le (h : x ≤ y) : IsNumber x ∧ IsNumber y := by
  rw [le_iff_fields] at h
  constructor
  · intro hx
    rw [hx] at h
    cases h
  · intro hy
    rw [hy] at h
    cases hu : fields x <;> rw [hu] at h <;> cases h

theorem le_trans (hxy : x ≤ y) (hyz : y ≤ z) : x ≤ z := by
  obtain ⟨hx, hy⟩ := isNumber_of_le hxy
  obtain ⟨-, hz⟩ := isNumber_of_le hyz
  rw [le_iff_extended_le hx hy] at hxy
  rw [le_iff_extended_le hy hz] at hyz
  exact (le_iff_extended_le hx hz).mpr (hxy.trans hyz)

theorem lt_of_le_of_lt (hxy : x ≤ y) (hyz : y < z) : x < z := by
  obtain ⟨hx, hy⟩ := isNumber_of_le hxy
  obtain ⟨-, hz⟩ := isNumber_of_le (le_of_lt hyz)
  rw [le_iff_extended_le hx hy] at hxy
  rw [lt_iff_extended_lt hy hz] at hyz
  exact (lt_iff_extended_lt hx hz).mpr (hxy.trans_lt hyz)

theorem lt_irrefl (x : Float) : ¬ x < x := by
  intro h
  obtain ⟨hx, -⟩ := isNumber_of_le (le_of_lt h)
  exact ((lt_iff_extended_lt hx hx).mp h).false

instance : Scalar.Ordered Float where
  lt_irrefl := lt_irrefl
  lt_of_le_of_lt := lt_of_le_of_lt

/-! What is not a number stays so. -/

theorem unpack_packComponents_ne {w : BitVec 11} {m : BitVec 52} (hw : w ≠ -1#11) :
    UnpackedFloat.unpack .binary64 (UnpackedFloat.packComponents .binary64 s w m) ≠
      .notANumber := by
  unfold UnpackedFloat.unpack
  dsimp only
  rw [UnpackedFloat.unpackExponent_packComponents, if_neg hw]
  split
  · split <;> exact nofun
  · exact nofun

theorem isNumber_ofFields_iff : IsNumber (ofFields u) ↔ u ≠ .notANumber := by
  constructor
  · rintro h rfl
    exact h rfl
  · intro h
    change UnpackedFloat.unpack .binary64 (UnpackedFloat.pack .binary64 u) ≠ .notANumber
    cases u with
    | notANumber => exact (h rfl).elim
    | infinity s | zero s => cases s <;> exact nofun
    | finite s m e hpos =>
      unfold UnpackedFloat.pack
      dsimp only
      split
      · cases s <;> exact nofun
      · rename_i hfits
        split
        · refine unpack_packComponents_ne fun hw => hfits ?_
          -- All exponent bits are set only from the exponent on that packs as infinity.
          have hones := congrArg BitVec.toNat hw
          rw [BitVec.toNat_ofNat] at hones
          have hle := hones ▸ Nat.mod_le _ _
          exact Nat.succ_le_succ hle
        · exact unpack_packComponents_ne (by decide)

section Arithmetic
variable {op : UnpackedFloat → UnpackedFloat → UnpackedFloat}

theorem isNumber_of_strict (hleft : ∀ v, op .notANumber v = .notANumber)
    (hright : ∀ u, op u .notANumber = .notANumber)
    (h : IsNumber (ofFields (op (fields x) (fields y)))) : IsNumber x ∧ IsNumber y := by
  rw [isNumber_ofFields_iff] at h
  constructor
  · intro hx
    rw [hx] at h
    exact h (hleft _)
  · intro hy
    rw [hy] at h
    exact h (hright _)

theorem isNumber_of_mul (h : IsNumber (x * y)) : IsNumber x ∧ IsNumber y :=
  isNumber_of_strict (fun _ => rfl) (fun u => by cases u <;> rfl) h

theorem isNumber_of_sub (h : IsNumber (x - y)) : IsNumber x ∧ IsNumber y :=
  isNumber_of_strict (fun _ => rfl) (fun u => by cases u <;> rfl) h

theorem isNumber_of_add (h : IsNumber (x + y)) : IsNumber x ∧ IsNumber y :=
  isNumber_of_strict (fun _ => rfl) (fun u => by cases u <;> rfl) h

end Arithmetic

theorem isNumber_of_hypot (h : IsNumber (hypot x y)) : IsNumber x ∨ IsNumber y := by
  by_contra hnone
  rw [not_or, IsNumber, IsNumber, not_not, not_not] at hnone
  obtain ⟨hx, hy⟩ := hnone
  unfold fields at hx hy
  rw [hypot, hx, hy] at h
  exact isNumber_ofFields_iff.mp h rfl

theorem isNumber_abs (hx : IsNumber x) : IsNumber x.abs := by
  unfold IsNumber at hx ⊢
  rw [fields_abs]
  cases hu : fields x with
  | notANumber => exact (hx hu).elim
  | infinity s | zero s | finite s m e hm => exact nofun

theorem sqrt_ne_notANumber {m : ℕ} {e : ℤ} (hm : 0 < m) :
    UnpackedFloat.sqrt .binary64 (.finite .positive m e hm) ≠ .notANumber := by
  unfold UnpackedFloat.sqrt UnpackedFloat.roundWithAccuracy
  dsimp only
  split <;> exact nofun

theorem isNumber_hypot (hx : IsNumber x) (hy : IsNumber y) : IsNumber (hypot x y) := by
  unfold hypot
  split
  case h_1 | h_2 => exact isNumber_ofFields_iff.mpr nofun
  case h_3 h _ => exact (hx h).elim
  case h_4 h _ _ => exact (hy h).elim
  case h_5 => exact isNumber_abs hy
  case h_6 => exact isNumber_abs hx
  case h_7 =>
    dsimp only
    split
    · rename_i hsum
      exact isNumber_ofFields_iff.mpr (sqrt_ne_notANumber hsum)
    · exact nofun

end IonCircuit.Binary64
