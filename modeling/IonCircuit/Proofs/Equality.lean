import IonCircuit.Circuit
import IonCircuit.Proofs.Binary64.Lawful

/-! Equality of doubles, and of gates and circuits with them: zero equals minus zero, and
what is not a number equals nothing. -/
namespace IonCircuit

namespace Binary64
open Scalar (isFinite)
variable {x y z : Float}

theorem beq_iff_value (hx : isFinite x = true) (hy : isFinite y = true) :
    (x == y) = true ↔ value x = value y := by
  have hcmp := compare_eq_cmp (packable_fields x) (packable_fields y) hx hy
  change ((fields x).compare (fields y) == some .eq) = true ↔ _
  rw [hcmp, Option.some_beq_some, beq_iff_eq, cmp_eq_eq_iff]
  rfl

/-- Packing the fields of a double gives it back. -/
theorem ofFields_fields (x : Float) : ofFields (fields x) = x := by
  rcases x with ⟨⟨bits, hvalid⟩⟩
  have hpack := Float.Model.UnpackedFloat.pack_unpack_of_valid hvalid
  exact congrArg Float.ofModel (Float.Model.mk.injEq .. ▸ congrArg UInt64.ofBitVec hpack)

theorem neg_neg (x : Float) : - -x = x := by
  have hfields : (fields x).neg.neg = fields x := by
    cases fields x with
    | notANumber => rfl
    | infinity s | zero s | finite s m e hm => cases s <;> rfl
  calc - -x = ofFields (fields (-x)).neg := rfl
    _ = x := by rw [fields_neg, hfields, ofFields_fields]

theorem abs_abs (x : Float) : x.abs.abs = x.abs := by
  have hfields : (fields x).abs.abs = (fields x).abs := by cases fields x <;> rfl
  calc x.abs.abs = ofFields (fields x.abs).abs := rfl
    _ = x.abs := by rw [fields_abs, hfields]; rfl

theorem isFinite_congr (h : (x == y) = true) : isFinite x = isFinite y := by
  obtain ⟨-, -, rfl | ⟨rfl, rfl⟩ | ⟨rfl, rfl⟩⟩ := Float.beq_iff_ne_nan_and_eq.mp h <;> rfl

section Finite
variable (hx : isFinite x = true)
include hx

theorem beq_self : (x == x) = true := (beq_iff_value hx hx).mpr rfl

theorem value_congr (h : (x == y) = true) : value x = value y :=
  (beq_iff_value hx (isFinite_congr h ▸ hx)).mp h

/-- A bound does not tell equal doubles apart. -/
theorem mem_range_congr (hz : isFinite z = true) (h : (x == y) = true) :
    0 ≤ x ∧ x ≤ z ↔ 0 ≤ y ∧ y ≤ z := by
  have hy : isFinite y = true := isFinite_congr h ▸ hx
  rw [le_iff_value isFinite_zero hx, le_iff_value hx hz, le_iff_value isFinite_zero hy,
    le_iff_value hy hz, value_congr hx h]

theorem beq_abs (h : 0 ≤ x) : (x == x.abs) = true := by
  have hvalue := (le_iff_value isFinite_zero hx).mp h
  rw [value_zero] at hvalue
  exact (beq_iff_value hx (isFinite_abs.trans hx)).mpr (by rw [value_abs, abs_of_nonneg hvalue])

end Finite

end Binary64

/-- What a relation carries over from each member of a list holds of the related members. -/
theorem forall_of_forall₂ {α β : Type} {R : α → β → Prop} {P : α → Prop} {Q : β → Prop}
    {xs : List α} {ys : List β} (h : List.Forall₂ R xs ys) (hR : ∀ x y, R x y → P x → Q y)
    (hP : ∀ x ∈ xs, P x) : ∀ y ∈ ys, Q y := by
  induction h with
  | nil => simp
  | cons hxy _ ih =>
    rw [List.forall_mem_cons] at hP ⊢
    exact ⟨hR _ _ hxy hP.1, ih hP.2⟩

section Entries
variable {α : Type} [BEq α]

theorem list_beq_iff {xs ys : List α} :
    (xs == ys) = true ↔ List.Forall₂ (fun x y => (x == y) = true) xs ys := by
  induction xs generalizing ys with
  | nil => cases ys <;> simp
  | cons x xs ih => cases ys <;> simp [ih]

theorem Gate.beq_iff {g h : Gate α} : (g == h) = true ↔
    g.kind = h.kind ∧ List.Forall₂ (fun x y => (x == y) = true) g.params h.params := by
  cases g <;> cases h <;>
    simp [BEq.beq, instBEqGate.beq, Gate.kind, Gate.params]

theorem Gate.beq_symm [PartialEquivBEq α] {g h : Gate α} (he : (g == h) = true) :
    (h == g) = true := by
  obtain ⟨hkind, hparams⟩ := Gate.beq_iff.mp he
  exact Gate.beq_iff.mpr ⟨hkind.symm, (hparams.imp fun _ _ hxy => BEq.symm hxy).flip⟩

theorem Instruction.beq_iff {i j : Instruction α} :
    (i == j) = true ↔ (i.gate == j.gate) = true ∧ i.qubits = j.qubits := by
  obtain ⟨g, qs⟩ := i
  obtain ⟨h, rs⟩ := j
  change ((g == h) && (qs == rs)) = true ↔ _
  simp

theorem Instruction.beq_symm [PartialEquivBEq α] {i j : Instruction α} (he : (i == j) = true) :
    (j == i) = true := by
  obtain ⟨hgate, hqubits⟩ := Instruction.beq_iff.mp he
  exact Instruction.beq_iff.mpr ⟨Gate.beq_symm hgate, hqubits.symm⟩

theorem Circuit.beq_iff {c d : Circuit α} : (c == d) = true ↔
    List.Forall₂ (fun i j => (i == j) = true) c.instructions d.instructions ∧
      c.width = d.width := by
  obtain ⟨is, n⟩ := c
  obtain ⟨js, m⟩ := d
  change ((is == js) && (n == m)) = true ↔ _
  simp [list_beq_iff]

/-- A circuit equals itself when its parameters do. -/
theorem Circuit.beq_self_iff {c : Circuit α} : (c == c) = true ↔
    ∀ i ∈ c.instructions, ∀ x ∈ i.gate.params, (x == x) = true := by
  simp [Circuit.beq_iff, Instruction.beq_iff, Gate.beq_iff, List.forall₂_same]

end Entries

end IonCircuit
