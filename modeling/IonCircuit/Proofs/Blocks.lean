import IonCircuit.Pass
import IonCircuit.Proofs.LawfulScalar
import Mathlib.Data.List.Basic
import Mathlib.Tactic.Tauto

/-! The instructions that stand in the output for one instruction, and when there are any. -/
namespace IonCircuit
open Scalar (pi halfPi threeHalfPi isFinite)
variable {α : Type} [Scalar α] {width : Nat} {i : Instruction α} {e : Error α}

/-- The rotation by the principal angle, about the opposite axis if that is negative. -/
def Gate.turned [Trig α] (θ φ opposite : α) : Gate α :=
  if principal θ < 0 then .r (-principal θ) opposite else .r (Scalar.abs (principal θ)) φ

/-- A half turn about x, native if asked for. -/
def correction (lower : Bool) (q : Nat) : Instruction α :=
  ⟨if lower then .r pi 0 else .rx pi, [q]⟩

/-- The corrections and the interaction of a folded angle. -/
def QuarterTurn.block (lower : Bool) (turn : QuarterTurn α) (a b : Nat) : List (Instruction α) :=
  let core := if turn.backward then
    [⟨.rz pi, [a]⟩, ⟨.rxx turn.magnitude, [a, b]⟩, ⟨.rz pi, [a]⟩]
    else [⟨.rxx turn.magnitude, [a, b]⟩]
  if turn.halfTurn then correction lower a :: correction lower b :: core else core

/-- What replaces an instruction; those without a rule stay. -/
def Instruction.block [Trig α] (lower : Bool) (i : Instruction α) : List (Instruction α) :=
  match i.gate, i.qubits with
  | .rx θ, qubits => [⟨.turned θ 0 pi, qubits⟩]
  | .ry θ, qubits => [⟨.turned θ halfPi threeHalfPi, qubits⟩]
  | .rxx θ, [a, b] => (QuarterTurn.ofFinite θ).block lower a b
  | _, _ => [i]

namespace Instruction

/-- The angle is reduced before the gate is native. -/
def Reduced (i : Instruction α) : Prop := i.kind = .rx ∨ i.kind = .ry ∨ i.kind = .rxx

/-- Nothing is wrong with the instruction on a register of this width. -/
structure Accepted (width : Nat) (i : Instruction α) : Prop where
  fits : i.Fits width
  finite : i.Reduced → isFinite i.gate.theta = true

/-- The first thing wrong with an instruction: arity, repetition, angle, range. -/
inductive Rejected (width : Nat) (i : Instruction α) : Error α → Prop
  | arity (h : i.qubits.length ≠ i.gate.arity) :
      Rejected width i (.wrongArity i.kind i.gate.arity i.qubits.length)
  | repeated {pre post : List Nat} {q : Nat} (h : i.qubits.length = i.gate.arity)
      (hq : i.qubits = pre ++ q :: post) (hpre : pre.Nodup) (hmem : q ∈ pre) :
      Rejected width i (.repeatedQubit q)
  | nonFinite (h : i.WellFormed) (hr : i.Reduced) (hθ : isFinite i.gate.theta = false) :
      Rejected width i (.nonFinite i.kind i.gate.theta)
  | outOfRange {pre post : List Nat} {q : Nat} (h : i.WellFormed)
      (hθ : i.Reduced → isFinite i.gate.theta = true) (hq : i.qubits = pre ++ q :: post)
      (hpre : ∀ p ∈ pre, p < width) (hw : width ≤ q) :
      Rejected width i (.qubitOutOfRange q width)

end Instruction

theorem firstRepeat_eq_some_iff {seen qs : List Nat} {q : Nat} :
    firstRepeat seen qs = some q ↔ ∃ pre post, qs = pre ++ q :: post ∧ pre.Nodup ∧
      (∀ p ∈ pre, p ∉ seen) ∧ (q ∈ pre ∨ q ∈ seen) := by
  constructor
  · intro h
    induction qs generalizing seen with
    | nil => simp [firstRepeat] at h
    | cons p qs ih =>
      by_cases hp : p ∈ seen
      · obtain rfl : p = q := by simpa [firstRepeat, hp] using h
        exact ⟨[], qs, rfl, .nil, by simp, .inr hp⟩
      · simp only [firstRepeat, hp, if_false] at h
        obtain ⟨pre, post, rfl, hnodup, hseen, hq⟩ := ih h
        refine ⟨p :: pre, post, rfl, List.nodup_cons.mpr ⟨?_, hnodup⟩, ?_, ?_⟩
        · exact fun hmem => hseen p hmem List.mem_cons_self
        · simp only [List.mem_cons, forall_eq_or_imp]
          exact ⟨hp, fun r hr hs => hseen r hr (List.mem_cons_of_mem p hs)⟩
        · simp only [List.mem_cons] at hq ⊢
          tauto
  · rintro ⟨pre, post, rfl, hnodup, hseen, hq⟩
    induction pre generalizing seen with
    | nil =>
      have hmem : q ∈ seen := by simpa using hq
      simp [firstRepeat, hmem]
    | cons p pre ih =>
      rw [List.nodup_cons] at hnodup
      have hp : p ∉ seen := hseen p List.mem_cons_self
      rw [List.cons_append, firstRepeat, if_neg hp]
      refine ih hnodup.2 (fun r hr => ?_) ?_
      · rw [List.mem_cons, not_or]
        exact ⟨fun he => hnodup.1 (he ▸ hr), hseen r (List.mem_cons_of_mem p hr)⟩
      · simp only [List.mem_cons] at hq ⊢
        tauto

namespace Instruction

/-- Every instruction is accepted or has a first fault. -/
theorem accepted_or_rejected (width : Nat) (i : Instruction α) :
    i.Accepted width ∨ ∃ e, i.Rejected width e := by
  by_cases hlen : i.qubits.length = i.gate.arity
  · cases hrep : firstRepeat [] i.qubits with
    | some q =>
      obtain ⟨pre, post, hq, hpre, -, hmem | hmem⟩ := firstRepeat_eq_some_iff.mp hrep
      · exact .inr ⟨_, .repeated hlen hq hpre hmem⟩
      · simp at hmem
    | none =>
      have hwf : i.WellFormed := ⟨hlen, (firstRepeat_eq_none_iff.mp hrep).1⟩
      by_cases hθ : i.Reduced → isFinite i.gate.theta = true
      · cases hfind : i.qubits.find? (width ≤ ·) with
        | none =>
          refine .inl ⟨⟨hwf, fun q hq => ?_⟩, hθ⟩
          simpa using List.find?_eq_none.mp hfind q hq
        | some q =>
          obtain ⟨hw, pre, post, hq, hpre⟩ := List.find?_eq_some_iff_append.mp hfind
          refine .inr ⟨_, .outOfRange hwf hθ hq (fun p hp => ?_) (by simpa using hw)⟩
          simpa using hpre p hp
      · rw [Classical.not_imp, Bool.not_eq_true] at hθ
        exact .inr ⟨_, .nonFinite hwf hθ.1 hθ.2⟩
  · exact .inr ⟨_, .arity hlen⟩

/-- A fault of form shows at once; the others concern well-formed instructions. -/
theorem Rejected.checkForm_eq_or_wellFormed (h : i.Rejected width e) :
    i.checkForm = .error e ∨ i.WellFormed := by
  cases h with
  | arity hlen => exact .inl (by simp [checkForm, Ne.symm hlen])
  | repeated hlen hq hpre hmem =>
    have hrep : firstRepeat [] i.qubits = _ :=
      firstRepeat_eq_some_iff.mpr ⟨_, _, hq, hpre, by simp, .inl hmem⟩
    exact .inl (by simp [checkForm, hlen, hrep])
  | nonFinite h => exact .inr h
  | outOfRange h => exact .inr h

/-- What can be wrong with a well-formed instruction is its angle or else a qubit. -/
theorem Rejected.angle_or_qubit (h : i.Rejected width e) (hwf : i.WellFormed) :
    (i.Reduced ∧ isFinite i.gate.theta = false ∧ e = .nonFinite i.kind i.gate.theta) ∨
    (i.Reduced → isFinite i.gate.theta = true) ∧
      ∃ q, i.qubits.find? (width ≤ ·) = some q ∧ e = .qubitOutOfRange q width := by
  cases h with
  | arity hlen => exact (hlen hwf.1).elim
  | repeated _ hq _ hmem =>
    have hnodup := hwf.2
    rw [hq, List.nodup_append] at hnodup
    exact (hnodup.2.2 _ hmem _ List.mem_cons_self rfl).elim
  | nonFinite _ hr hθ => exact .inl ⟨hr, hθ, rfl⟩
  | @outOfRange pre post q _ hθ hq hpre hw =>
    refine .inr ⟨hθ, q, ?_, rfl⟩
    rw [hq, List.find?_append, List.find?_eq_none.mpr (by simpa using hpre)]
    simp [hw]

/-- On its own register an instruction can only have a bad angle. -/
theorem Fits.rejected_iff (h : i.Fits width) : i.Rejected width e ↔
    i.Reduced ∧ isFinite i.gate.theta = false ∧ e = .nonFinite i.kind i.gate.theta := by
  constructor
  · intro hr
    rcases hr.angle_or_qubit h.1 with hangle | ⟨-, q, hfind, -⟩
    · exact hangle
    · have hlt : q < width := h.2 q (List.mem_of_find?_eq_some hfind)
      have hw : width ≤ q := by simpa using List.find?_some hfind
      omega
  · rintro ⟨hr, hθ, rfl⟩
    exact .nonFinite h.1 hr hθ

theorem Fits.accepted_iff (h : i.Fits width) :
    i.Accepted width ↔ (i.Reduced → isFinite i.gate.theta = true) :=
  ⟨fun ha => ha.finite, fun hθ => ⟨h, hθ⟩⟩

variable [Trig α] (lower : Bool)

theorem block_of_not_reduced (h : ¬ i.Reduced) : i.block lower = [i] := by
  obtain ⟨g, qubits⟩ := i
  cases g <;> simp_all [Reduced, kind, Gate.kind, block]

theorem wellFormed_block (h : i.WellFormed) : ∀ j ∈ i.block lower, j.WellFormed := by
  obtain ⟨g, qubits⟩ := i
  obtain ⟨hlen, hnodup⟩ := h
  cases g with
  | rz θ | r θ φ => simp_all [block, WellFormed]
  | rx θ | ry θ =>
    simp only [block, Gate.turned, List.mem_singleton, forall_eq]
    split <;> exact ⟨hlen, hnodup⟩
  | rxx θ =>
    obtain ⟨a, b, rfl⟩ := List.length_eq_two.mp hlen
    simp only [block, QuarterTurn.block, correction]
    cases (QuarterTurn.ofFinite θ).backward <;> cases (QuarterTurn.ofFinite θ).halfTurn <;>
      cases lower <;> simp_all [WellFormed, Gate.arity, Gate.kind, Kind.arity]

/-- The templates name the qubits of their instruction in different orders, but the first
with any property is the same. -/
theorem find?_block (p : Nat → Bool) (h : i.WellFormed) :
    ((i.block lower).flatMap (·.qubits)).find? p = i.qubits.find? p := by
  obtain ⟨g, qubits⟩ := i
  cases g with
  | rx θ | ry θ | rz θ | r θ φ => simp [block]
  | rxx θ =>
    obtain ⟨a, b, rfl⟩ := List.length_eq_two.mp h.1
    simp only [block, QuarterTurn.block, correction]
    cases (QuarterTurn.ofFinite θ).backward <;> cases (QuarterTurn.ofFinite θ).halfTurn <;>
      cases ha : p a <;> cases hb : p b <;> simp [ha, hb]

theorem fits_block (h : i.Fits width) : ∀ j ∈ i.block lower, j.Fits width := by
  intro j hj
  refine ⟨i.wellFormed_block lower h.1 j hj, fun q hq => ?_⟩
  have hnone : ((i.block lower).flatMap (·.qubits)).find? (width ≤ ·) = none := by
    rw [i.find?_block lower _ h.1]
    simpa [List.find?_eq_none] using h.2
  simpa using List.find?_eq_none.mp hnone q (List.mem_flatMap.mpr ⟨j, hj, hq⟩)

end Instruction

omit [Scalar α] in
/-- Well-formed instructions are appended up to the first qubit outside the register. -/
theorem foldlM_add {is : List (Instruction α)} {output : Circuit α}
    (h : ∀ j ∈ is, j.WellFormed) : is.foldlM Circuit.add output =
      match (is.flatMap (·.qubits)).find? (output.width ≤ ·) with
      | some q => .error (.qubitOutOfRange q output.width)
      | none => .ok ⟨output.instructions ++ is, output.width⟩ := by
  induction is generalizing output with
  | nil => simp [pure, Except.pure]
  | cons j is ih =>
    have hj : j.checkForm = .ok () :=
      Instruction.checkForm_eq_ok_iff.mpr (h j List.mem_cons_self)
    rw [List.foldlM_cons, List.flatMap_cons, List.find?_append]
    cases hfind : j.qubits.find? (output.width ≤ ·) with
    | some q => simp [Circuit.add, Instruction.checkIn, hj, hfind, bind, Except.bind]
    | none =>
      have hadd : output.add j = .ok ⟨output.instructions ++ [j], output.width⟩ := by
        simp [Circuit.add, Instruction.checkIn, hj, hfind, bind, Except.bind, pure, Except.pure]
      rw [hadd]
      refine (ih fun k hk => h k (List.mem_cons_of_mem j hk)).trans ?_
      simp

section Pass
variable [Trig α] {p : Pass α} {output : Circuit α} {θ φ opposite : α} {kind : Kind}

theorem equatorial_of_finite (h : isFinite θ = true) :
    Gate.equatorial kind θ φ opposite = .ok (.turned θ φ opposite) := by
  simp only [Gate.equatorial, finiteAngle, h, if_true, Gate.turned, bind, Except.bind, pure,
    Except.pure]

theorem equatorial_of_nonFinite (h : isFinite θ = false) :
    Gate.equatorial kind θ φ opposite = .error (.nonFinite kind θ) := by
  simp [Gate.equatorial, finiteAngle, h, bind, Except.bind]

/-- Lowering turns a half turn about x into the native one. -/
theorem turned_pi [Scalar.Lawful α] : Gate.turned (pi : α) φ opposite = .r pi φ := by
  rw [Gate.turned, Scalar.Lawful.principal_pi, if_neg Scalar.Lawful.not_pi_lt_zero,
    Scalar.Lawful.abs_pi]

theorem replacement_of_nonFinite (h : i.WellFormed) (hr : i.Reduced)
    (hθ : isFinite i.gate.theta = false) :
    p.replacement i = .error (.nonFinite i.kind i.gate.theta) := by
  obtain ⟨g, qubits⟩ := i
  cases g with
  | rz θ | r θ φ => simp [Instruction.Reduced, Instruction.kind, Gate.kind] at hr
  | rx θ | ry θ =>
    simp_all [Pass.replacement, Instruction.kind, Gate.kind, Rule.forKind?, Rule.apply, Gate.ofX,
      Gate.ofY, equatorial_of_nonFinite, Gate.theta, bind, Except.bind]
  | rxx θ =>
    obtain ⟨a, b, rfl⟩ := List.length_eq_two.mp h.1
    simp_all [Pass.replacement, Instruction.kind, Gate.kind, Rule.forKind?, Rule.apply,
      nativeInteraction, QuarterTurn.ofAngle, finiteAngle, Gate.theta, bind, Except.bind]

omit [Trig α] in
theorem expand_eq_block {turn : QuarterTurn α} {a b : Nat} (h : a ≠ b) :
    turn.expand a b = .ok (turn.block false a b) := by
  have hform : (⟨.rxx turn.magnitude, [a, b]⟩ : Instruction α).checkForm = .ok () :=
    Instruction.checkForm_eq_ok_iff.mpr ⟨rfl, by simpa using h⟩
  simp only [QuarterTurn.expand, Instruction.ofGate?, hform, QuarterTurn.block, correction, bind,
    Except.bind, pure, Except.pure]
  rfl

theorem lower_block [Scalar.Lawful α] (turn : QuarterTurn α) (a b : Nat) :
    ((turn.block false a b).mapM Pass.lower).map List.flatten = .ok (turn.block true a b) := by
  have hx : ∀ q, Pass.lower (correction false q : Instruction α) = .ok [correction true q] := by
    intro q
    simp [Pass.lower, correction, Instruction.kind, Gate.kind, Rule.handles, Rule.apply, Gate.ofX,
      equatorial_of_finite Scalar.Lawful.isFinite_pi, turned_pi, bind, Except.bind, pure,
      Except.pure]
  have hz : ∀ q, Pass.lower (⟨.rz pi, [q]⟩ : Instruction α) = .ok [⟨.rz pi, [q]⟩] :=
    fun _ => rfl
  have hxx : Pass.lower (⟨.rxx turn.magnitude, [a, b]⟩ : Instruction α) =
      .ok [⟨.rxx turn.magnitude, [a, b]⟩] := rfl
  unfold QuarterTurn.block
  cases turn.backward <;> cases turn.halfTurn <;>
    simp [hx, hz, hxx, List.mapM_cons, bind, Except.bind, pure, Except.pure, Except.map]

theorem lower_turned (qubits : List Nat) : Pass.lower ⟨.turned θ φ opposite, qubits⟩ =
    .ok [(⟨.turned θ φ opposite, qubits⟩ : Instruction α)] := by
  unfold Gate.turned
  split <;> rfl

theorem replacement_of_finite [Scalar.Lawful α] (h : i.WellFormed)
    (hθ : i.Reduced → isFinite i.gate.theta = true) :
    p.replacement i = .ok (i.block p.settings.lowerCorrections) := by
  obtain ⟨g, qubits⟩ := i
  cases g with
  | rz θ | r θ φ => rfl
  | rx θ | ry θ =>
    have hfin : isFinite θ = true := hθ (by simp [Instruction.Reduced, Instruction.kind, Gate.kind])
    simp [Pass.replacement, Instruction.kind, Gate.kind, Rule.forKind?, Rule.apply, Gate.ofX,
      Gate.ofY, equatorial_of_finite hfin, lower_turned, Instruction.block, bind, Except.bind,
      pure, Except.pure]
  | rxx θ =>
    have hfin : isFinite θ = true := hθ (by simp [Instruction.Reduced, Instruction.kind, Gate.kind])
    obtain ⟨a, b, rfl⟩ := List.length_eq_two.mp h.1
    have hab : a ≠ b := by simpa using h.2
    have hlower := lower_block (QuarterTurn.ofFinite θ) a b
    simp only [Pass.replacement, Instruction.kind, Gate.kind, Rule.forKind?, Rule.apply,
      nativeInteraction, QuarterTurn.ofAngle, finiteAngle, hfin, if_true, expand_eq_block hab,
      Instruction.block, bind, Except.bind, pure, Except.pure]
    cases hl : p.settings.lowerCorrections with
    | false => rfl
    | true =>
      cases hm : ((QuarterTurn.ofFinite θ).block false a b).mapM Pass.lower with
      | error e => simp [hm, Except.map] at hlower
      | ok native => simpa [hm, Except.map] using hlower

end Pass

end IonCircuit
