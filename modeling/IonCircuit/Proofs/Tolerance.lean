import IonCircuit.Proofs.Binary64.Order
import IonCircuit.Proofs.SelfCheck

/-! Comparisons to within a larger tolerance. What was accepted stays accepted as long as some
entry of the first matrix is larger than the tolerance; beyond that no phase can be read off. -/
namespace IonCircuit
open Binary64 (IsNumber)

section Number
variable {x y p : Amplitude Float}

/-- What is not a number in an amplitude stays in its difference from any other. -/
theorem Amplitude.isNumber_norm (h : IsNumber (y - p * x).norm) : IsNumber x.norm := by
  have hparts : IsNumber x.re ∧ IsNumber x.im := by
    rcases Binary64.isNumber_of_hypot h with hre | him
    · obtain ⟨-, hprod⟩ := Binary64.isNumber_of_sub hre
      obtain ⟨hre, him⟩ := Binary64.isNumber_of_sub hprod
      exact ⟨(Binary64.isNumber_of_mul hre).2, (Binary64.isNumber_of_mul him).2⟩
    · obtain ⟨-, hprod⟩ := Binary64.isNumber_of_sub him
      obtain ⟨him, hre⟩ := Binary64.isNumber_of_add hprod
      exact ⟨(Binary64.isNumber_of_mul hre).2, (Binary64.isNumber_of_mul him).2⟩
  exact Binary64.isNumber_hypot hparts.1 hparts.2

end Number

namespace Operator
variable {a b : Operator (Amplitude Float)} {t t' : Float} {p : Amplitude Float}

/-- Some entry is larger in modulus. -/
def Exceeds {α : Type} [Scalar α] (a : Operator (Amplitude α)) (t : α) : Prop :=
  ∃ i < a.rows, ∃ j < a.cols, t < (a.entry i j).norm

instance {α : Type} [Scalar α] (a : Operator (Amplitude α)) (t : α) : Decidable (a.Exceeds t) :=
  inferInstanceAs (Decidable (∃ i < a.rows, ∃ j < a.cols, t < (a.entry i j).norm))

/-- With a phase that relates the entries, the pivot is a number and so compares. -/
theorem exceeds_iff_pivot (h : a.SameShape b) (hall : a.isMultiple b p t = true)
    {x : Amplitude Float} {k : ℕ} (hpivot : pivot? a.data.toList = some (x, k)) :
    a.Exceeds t ↔ ¬ x.norm ≤ t := by
  obtain ⟨⟨i, hi, j, hj, rfl, -⟩, hmax⟩ := exists_entry_of_pivot? hpivot
  constructor
  · rintro ⟨i', hi', j', hj', hlt⟩ hle
    exact hmax i' hi' j' hj' (Binary64.lt_of_le_of_lt hle hlt)
  · intro hx
    have hnear : (b.entry i j - p * a.entry i j).norm ≤ t :=
      (isMultiple_eq_true_iff h).mp hall i hi j hj
    obtain ⟨hdist, ht⟩ := Binary64.isNumber_of_le hnear
    exact ⟨i, hi, j, hj, Binary64.lt_of_not_le (Amplitude.isNumber_norm hdist) ht hx⟩

theorem isMultiple_mono (ht : t ≤ t') (h : a.isMultiple b p t = true) :
    a.isMultiple b p t' = true := by
  simp only [isMultiple, List.all_eq_true, decide_eq_true_eq] at h ⊢
  intro pair hpair
  exact Binary64.le_trans (h pair hpair) ht

/-- Of the three comparisons with the tolerance only that of the pivot goes against it. -/
theorem phase?_of_le (ht : t ≤ t') (h : a.phase? b t = some p) :
    (a.Exceeds t' → a.phase? b t' = some p) ∧ (¬ a.Exceeds t' → a.phase? b t' = none) := by
  have hshape : a.SameShape b := by
    by_contra hne
    simp [phase?, hne] at h
  obtain ⟨x, k, r, hpivot, hr, -, hmodulus, hp, hall⟩ := (phase?_eq_some_iff_pivot hshape).mp h
  have hexceeds := exceeds_iff_pivot hshape (isMultiple_mono ht hall) hpivot
  constructor
  · intro hlarge
    refine (phase?_eq_some_iff_pivot hshape).mpr ⟨x, k, r, hpivot, hr, hexceeds.mp hlarge, ?_, hp,
      isMultiple_mono ht hall⟩
    intro hlt
    exact hmodulus (Binary64.lt_of_le_of_lt ht hlt)
  · intro hsmall
    have hx : x.norm ≤ t' := not_not.mp fun hx => hsmall (hexceeds.mpr hx)
    simp [phase?, hpivot, hx]

end Operator

section Loosened
variable [Trig Float] {left right : Circuit Float} {t t' : Float}

theorem Circuit.equivalent_of_le (ht : t ≤ t') (h : left.equivalent right t = .ok true) :
    ∃ U, left.unitary = .ok U ∧ (U.Exceeds t' → left.equivalent right t' = .ok true) ∧
      (¬ U.Exceeds t' → left.equivalent right t' = .ok false) := by
  obtain ⟨hw, U, V, p, hU, hV, hp⟩ := Circuit.equivalent_eq_ok_iff.mp h
  obtain ⟨hkeep, hlose⟩ := Operator.phase?_of_le ht hp
  refine ⟨U, hU, fun hlarge => ?_, fun hsmall => ?_⟩
  · rw [Circuit.equivalent_of_unitary hw hU hV, hkeep hlarge, Option.isSome_some]
  · rw [Circuit.equivalent_of_unitary hw hU hV, hlose hsmall, Option.isSome_none]

end Loosened

/-- The pass with another tolerance for its comparison of unitaries. -/
def Pass.withTolerance {α : Type} (p : Pass α) (t : α) : Pass α :=
  { p with settings := { p.settings with tolerance := t } }

/-- Without the comparison the tolerance has no part in a run. -/
theorem run_withTolerance_comparing_false {α : Type} [Scalar α] [Trig α] (p : Pass α)
    (c : Circuit α) (t : α) :
    ((p.withTolerance t).comparing false).run c = (p.comparing false).run c := by
  have hreplace : (p.comparing false).replaceAll c = p.replaceAll c := rfl
  have hreplace' : ((p.withTolerance t).comparing false).replaceAll c = p.replaceAll c := rfl
  simp only [Pass.run, hreplace, hreplace']
  simp only [Pass.comparing, Pass.withTolerance, Bool.false_eq_true, if_false]

/-- Two circuits equivalent to within one tolerance are equivalent to within a larger one just
as long as some entry of the first unitary is larger still, and a run that compares unitaries
then returns the same; otherwise the circuits count as different and the run fails. -/
theorem equivalent_loosened [Trig Float] :
    (∀ (left right : Circuit Float) (t t' : Float), t ≤ t' →
      left.equivalent right t = .ok true → ∃ U, left.unitary = .ok U ∧
        (U.Exceeds t' → left.equivalent right t' = .ok true) ∧
        (¬ U.Exceeds t' → left.equivalent right t' = .ok false)) ∧
    ∀ (p : Pass Float) (c r : Circuit Float) (t' : Float),
      p.settings.compareUnitaries = true → p.settings.tolerance ≤ t' → p.run c = .ok r →
        ∃ U, c.unitary = .ok U ∧ (U.Exceeds t' → (p.withTolerance t').run c = .ok r) ∧
          (¬ U.Exceeds t' → (p.withTolerance t').run c = .error (.notEquivalent t')) := by
  refine ⟨fun left right t t' ht h => Circuit.equivalent_of_le ht h, ?_⟩
  intro p c r t' hcompare ht hr
  rw [← Pass.comparing_eq_self hcompare, run_comparing_true_eq_ok_iff] at hr
  obtain ⟨hrun, hsame⟩ := hr
  obtain ⟨U, hU, hkeep, hlose⟩ := Circuit.equivalent_of_le ht hsame
  have hcompare' : (p.withTolerance t').settings.compareUnitaries = true := hcompare
  rw [← run_withTolerance_comparing_false p c t'] at hrun
  rw [← Pass.comparing_eq_self hcompare']
  refine ⟨U, hU, fun hlarge => ?_, fun hsmall => ?_⟩
  · exact run_comparing_true_eq_ok_iff.mpr ⟨hrun, hkeep hlarge⟩
  · exact run_comparing_true_eq_error_iff.mpr (.inr ⟨r, hrun, .inr ⟨hlose hsmall, rfl⟩⟩)

/-- The trigonometric functions as they are at zero and at a half. -/
abbrev Trig.atHalf : Trig Float where
  sin x := if x = 0 then x else 0.479425538604203
  cos x := if x = 0 then 1 else 0.8775825618903728
  atan2 _ _ := 0.5

/-- A rotation and an interaction against their native form. The largest entry of the unitary is the
square of the cosine of a half, which lies between the two larger tolerances. -/
theorem equivalent_loosened_to_half :
    let c : Circuit Float := ⟨[⟨.rx 1, [0]⟩, ⟨.rxx 1, [0, 1]⟩], 2⟩
    let r : Circuit Float := ⟨[⟨.r 1 0, [0]⟩, ⟨.rxx 1, [0, 1]⟩], 2⟩
    let p : Pass Float := ⟨⟨0.25, true, true, true⟩, .trappedIon⟩
    (@Circuit.equivalent Float _ Trig.atHalf c r 0.25 = .ok true ∧
      @Circuit.equivalent Float _ Trig.atHalf c r 0.5 = .ok true ∧
      @Circuit.equivalent Float _ Trig.atHalf c r 0.8 = .ok false) ∧
    @Pass.run Float _ Trig.atHalf p c = .ok r ∧
      @Pass.run Float _ Trig.atHalf (p.withTolerance 0.5) c = .ok r ∧
      @Pass.run Float _ Trig.atHalf (p.withTolerance 0.8) c = .error (.notEquivalent 0.8) := by
  intro c r p
  have hwf : c.WellFormed := by decide
  have hunitary := @Circuit.unitary_eq_ok Float _ Trig.atHalf c hwf
  have hlarge : ∀ U, @Circuit.unitary Float _ Trig.atHalf c = .ok U → U.Exceeds (0.5 : Float) := by
    intro U hU
    cases hunitary.symm.trans hU
    decide +kernel
  have hsmall : ∀ U, @Circuit.unitary Float _ Trig.atHalf c = .ok U → ¬ U.Exceeds (0.8 : Float) := by
    intro U hU
    cases hunitary.symm.trans hU
    decide +kernel
  have hsame : @Circuit.equivalent Float _ Trig.atHalf c r 0.25 = .ok true := by decide +kernel
  have hrun : @Pass.run Float _ Trig.atHalf p c = .ok r := by decide +kernel
  have hhalf : (0.25 : Float) ≤ 0.5 := by decide
  have hwide : (0.25 : Float) ≤ 0.8 := by decide
  obtain ⟨hpair, hpass⟩ := @equivalent_loosened Trig.atHalf
  obtain ⟨U, hU, hkeep, -⟩ := hpair c r 0.25 0.5 hhalf hsame
  obtain ⟨U', hU', -, hlose⟩ := hpair c r 0.25 0.8 hwide hsame
  obtain ⟨V, hV, hkeep', -⟩ := hpass p c r 0.5 rfl hhalf hrun
  obtain ⟨V', hV', -, hlose'⟩ := hpass p c r 0.8 rfl hwide hrun
  exact ⟨⟨hsame, hkeep (hlarge U hU), hlose (hsmall U' hU')⟩,
    hrun, hkeep' (hlarge V hV), hlose' (hsmall V' hV')⟩

/-- No entry of the identity is larger than one, so to within one nothing is equivalent to it. -/
theorem equivalent_lost_at_one : (0.5 : Float) ≤ 1 ∧
    Settings.check (⟨0.5, true, true, true⟩ : Settings Float) = .ok () ∧
    Settings.check (⟨1, true, true, true⟩ : Settings Float) = .ok () ∧
    (Circuit.empty 1).equivalent (.empty 1) (0.5 : Float) = .ok true ∧
    (Circuit.empty 1).equivalent (.empty 1) (1 : Float) = .ok false ∧
    (⟨⟨0.5, true, true, true⟩, .trappedIon⟩ : Pass Float).run (.empty 1) = .ok (.empty 1) ∧
    (⟨⟨1, true, true, true⟩, .trappedIon⟩ : Pass Float).run (.empty 1) =
      .error (.notEquivalent 1) := by
  decide +kernel

end IonCircuit
