import IonCircuit.Proofs.Execution
import IonCircuit.Proofs.Lowering

/-! The simulator, the appending of instructions one by one and the pass check a circuit each in
its own way. They accept the same circuits and find the same first fault in all others. -/
namespace IonCircuit
open Scalar (isFinite)

section Faults
variable {α : Type} [Scalar α] {width : Nat} {i : Instruction α} {is : List (Instruction α)}
  {c : Circuit α} {e : Error α}

/-- A register refuses a rejected instruction for the same reason, unless that is its angle. -/
theorem Instruction.Rejected.checkIn_eq (h : i.Rejected width e)
    (hθ : i.Reduced → isFinite i.gate.theta = true) : i.checkIn width = .error e := by
  rcases h.checkForm_eq_or_wellFormed with hform | hwf
  · simp [checkIn, hform, bind, Except.bind]
  · rcases h.angle_or_qubit hwf with ⟨hr, hfalse, -⟩ | ⟨-, q, hfind, rfl⟩
    · simp [hθ hr] at hfalse
    · simp [checkIn, checkForm_eq_ok_iff.mpr hwf, hfind, bind, Except.bind]

/-- The circuit made anew by appending its instructions one by one to an empty register. -/
def Circuit.rebuilt {α : Type} (c : Circuit α) : Except (Error α) (Circuit α) :=
  c.instructions.foldlM Circuit.add (.empty c.width)

omit [Scalar α] in
theorem foldlM_add_of_fits (done : List (Instruction α)) (h : ∀ i ∈ is, i.Fits width) :
    is.foldlM Circuit.add ⟨done, width⟩ = .ok ⟨done ++ is, width⟩ := by
  induction is generalizing done with
  | nil => simp [pure, Except.pure]
  | cons i is ih =>
    have hadd : Circuit.add ⟨done, width⟩ i = .ok ⟨done ++ [i], width⟩ :=
      Circuit.add_eq_ok_iff.mpr ⟨h i List.mem_cons_self, rfl⟩
    rw [List.foldlM_cons, hadd]
    refine (ih _ fun j hj => h j (List.mem_cons_of_mem i hj)).trans ?_
    simp

/-- Appending stops at the instruction that the pass rejects first. -/
theorem foldlM_add_of_firstRejected (h : FirstRejected width is e)
    (hfin : ∀ i ∈ is, i.Reduced → isFinite i.gate.theta = true) :
    is.foldlM Circuit.add (.empty width) = .error e := by
  obtain ⟨pre, i, post, rfl, hpre, hi⟩ := h
  have hcheck : i.checkIn width = .error e := hi.checkIn_eq (hfin i (by simp))
  have hadd : Circuit.add ⟨[] ++ pre, width⟩ i = .error e := by
    simp [Circuit.add, hcheck, bind, Except.bind]
  rw [List.foldlM_append, Circuit.empty, foldlM_add_of_fits [] fun j hj => (hpre j hj).fits]
  change (i :: post).foldlM Circuit.add ⟨[] ++ pre, width⟩ = _
  rw [List.foldlM_cons, hadd]
  rfl

omit [Scalar α] in
/-- A register that is checked before anything is simulated is checked like one that is built. -/
theorem checkAll_eq_map_rebuilt (c : Circuit α) : c.checkAll = c.rebuilt.map fun _ => () :=
  forM_checkIn (.empty c.width) c.instructions

end Faults

/-- When every angle to be reduced is finite, the simulator, the appending of instructions one by
one and a pass without checks of its output all succeed, or they all fail with the error of the
first faulty instruction. -/
theorem validations_agree [Trig Float] {p : Pass Float} {c : Circuit Float}
    (hn : p.settings.checkNative = false) (hc : p.settings.compareUnitaries = false)
    (hfin : ∀ i ∈ c.instructions, i.Reduced → isFinite i.gate.theta = true) :
    (c.WellFormed ∧ (∃ U, c.unitary = .ok U) ∧ c.rebuilt = .ok c ∧ ∃ r, p.run c = .ok r) ∨
    ∃ e, FirstRejected c.width c.instructions e ∧ c.unitary = .error e ∧ c.rebuilt = .error e ∧
      p.run c = .error e := by
  rcases accepted_or_firstRejected c.width c.instructions with hacc | ⟨e, he⟩
  · have hwf : c.WellFormed := fun i hi => (hacc i hi).fits
    exact .inl ⟨hwf, exists_unitary_iff.mpr hwf, foldlM_add_of_fits [] hwf, _,
      (run_eq_ok_iff_of_unchecked hn hc).mpr ⟨hacc, rfl⟩⟩
  · have hrebuilt : c.rebuilt = .error e := foldlM_add_of_firstRejected he hfin
    refine .inr ⟨e, he, ?_, hrebuilt, (run_eq_error_iff_of_unchecked hn hc).mpr he⟩
    rw [unitary_eq_error_iff, checkAll_eq_map_rebuilt, hrebuilt]
    rfl

/-- An interaction past a half turn, whose corrections come first in the output, is the first to
miss a qubit; an angle that is not a number is none of the faults of a copied rotation. -/
theorem validations_agree_at_missing_qubit :
    let p : Pass Float := ⟨⟨1e-8, false, true, false⟩, .trappedIon⟩
    let c : Circuit Float := ⟨[⟨.rz (0 / 0), [0]⟩, ⟨.rxx 2, [1, 0]⟩, ⟨.rxx 3, [0, 7]⟩,
      ⟨.rx 1, [9, 9]⟩], 2⟩
    c.unitary = .error (.qubitOutOfRange 7 2) ∧ c.rebuilt = .error (.qubitOutOfRange 7 2) ∧
      p.run c = .error (.qubitOutOfRange 7 2) := by
  intro p c
  have hfin : ∀ i ∈ c.instructions, i.Reduced → isFinite i.gate.theta = true := by
    simp only [c, List.forall_mem_cons]
    exact ⟨by simp [Instruction.Reduced, Instruction.kind, Gate.kind], fun _ => by decide,
      fun _ => by decide, fun _ => by decide, by simp⟩
  have hrebuilt : c.rebuilt = .error (.qubitOutOfRange 7 2) := rfl
  rcases validations_agree (p := p) rfl rfl hfin with ⟨-, -, hok, -⟩ | ⟨e, -, hU, he, hrun⟩
  · rw [hrebuilt] at hok
    cases hok
  · rw [hrebuilt] at he
    cases he
    exact ⟨hU, hrebuilt, hrun⟩

end IonCircuit
