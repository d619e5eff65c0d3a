import IonCircuit.Proofs.Blocks

/-! The pass stops at the first fault of its input, then at the first fault of its output. -/
namespace IonCircuit
open Scalar (pi halfPi threeHalfPi isFinite)
variable {α : Type} [Scalar α] {width : Nat} {i : Instruction α} {is : List (Instruction α)}
  {e : Error α}

/-- The first of some instructions that is rejected, with its error. -/
def FirstRejected (width : Nat) (is : List (Instruction α)) (e : Error α) : Prop :=
  ∃ pre i post, is = pre ++ i :: post ∧ (∀ j ∈ pre, j.Accepted width) ∧ i.Rejected width e

theorem accepted_or_firstRejected (width : Nat) (is : List (Instruction α)) :
    (∀ i ∈ is, i.Accepted width) ∨ ∃ e, FirstRejected width is e := by
  induction is with
  | nil => simp
  | cons i is ih =>
    rcases i.accepted_or_rejected width with hi | ⟨e, hi⟩
    · rcases ih with his | ⟨e, pre, j, post, rfl, hpre, hj⟩
      · exact .inl (List.forall_mem_cons.mpr ⟨hi, his⟩)
      · exact .inr ⟨e, i :: pre, j, post, rfl, by simp_all, hj⟩
    · exact .inr ⟨e, [], i, is, rfl, by simp, hi⟩

section Input
variable [Trig α] [Scalar.Lawful α] {p : Pass α}

theorem step_of_accepted (done : List (Instruction α)) (h : i.Accepted width) :
    p.step ⟨done, width⟩ i = .ok ⟨done ++ i.block p.settings.lowerCorrections, width⟩ := by
  have hwf := h.fits.1
  have hfind : i.qubits.find? (width ≤ ·) = none := by
    simpa [List.find?_eq_none] using h.fits.2
  simp only [Pass.step, Instruction.checkForm_eq_ok_iff.mpr hwf, replacement_of_finite hwf h.finite,
    bind, Except.bind]
  rw [foldlM_add (i.wellFormed_block _ hwf), i.find?_block _ _ hwf, hfind]

theorem step_of_rejected (done : List (Instruction α)) (h : i.Rejected width e) :
    p.step ⟨done, width⟩ i = .error e := by
  rcases h.checkForm_eq_or_wellFormed with hform | hwf
  · simp [Pass.step, hform, bind, Except.bind]
  · simp only [Pass.step, Instruction.checkForm_eq_ok_iff.mpr hwf, bind, Except.bind]
    rcases h.angle_or_qubit hwf with ⟨hr, hθ, rfl⟩ | ⟨hθ, q, hfind, rfl⟩
    · rw [replacement_of_nonFinite hwf hr hθ]
    · rw [replacement_of_finite hwf hθ]
      dsimp only
      rw [foldlM_add (i.wellFormed_block _ hwf), i.find?_block _ _ hwf, hfind]

theorem foldlM_step_of_accepted (done : List (Instruction α)) (h : ∀ i ∈ is, i.Accepted width) :
    is.foldlM p.step ⟨done, width⟩ =
      .ok ⟨done ++ is.flatMap (·.block p.settings.lowerCorrections), width⟩ := by
  induction is generalizing done with
  | nil => simp [pure, Except.pure]
  | cons i is ih =>
    rw [List.foldlM_cons, step_of_accepted done (h i List.mem_cons_self)]
    refine (ih _ fun j hj => h j (List.mem_cons_of_mem i hj)).trans ?_
    simp

theorem foldlM_step_of_firstRejected (done : List (Instruction α))
    (h : FirstRejected width is e) : is.foldlM p.step ⟨done, width⟩ = .error e := by
  obtain ⟨pre, i, post, rfl, hpre, hi⟩ := h
  rw [List.foldlM_append, foldlM_step_of_accepted done hpre]
  change (i :: post).foldlM p.step ⟨done ++ _, width⟩ = _
  rw [List.foldlM_cons, step_of_rejected _ hi]
  rfl

/-- The output of the pass before any check of it. -/
def Circuit.blocks (lower : Bool) (c : Circuit α) : Circuit α :=
  ⟨c.instructions.flatMap (·.block lower), c.width⟩

omit [Scalar.Lawful α] in
theorem Circuit.WellFormed.blocks {c : Circuit α} (lower : Bool) (h : c.WellFormed) :
    (c.blocks lower).WellFormed := by
  intro o ho
  obtain ⟨i, hi, ho⟩ := List.mem_flatMap.mp ho
  exact i.fits_block lower (h i hi) o ho

theorem replaceAll_of_accepted {c : Circuit α} (h : ∀ i ∈ c.instructions, i.Accepted c.width) :
    p.replaceAll c = .ok (c.blocks p.settings.lowerCorrections) :=
  foldlM_step_of_accepted [] h

theorem replaceAll_of_firstRejected {c : Circuit α}
    (h : FirstRejected c.width c.instructions e) : p.replaceAll c = .error e :=
  foldlM_step_of_firstRejected [] h

end Input

namespace NativeSet
variable {s : NativeSet} {position : Nat}

/-- The backend runs the instruction as it is. -/
structure Admits (s : NativeSet) (i : Instruction α) : Prop where
  kind : s.contains i.kind = true
  finite : ∀ x ∈ i.gate.params, isFinite x = true
  range : InRange i.gate

/-- Why the set refuses a well-formed instruction: its kind first, then its angles. -/
inductive Refuses (s : NativeSet) (position : Nat) (i : Instruction α) : Error α → Prop
  | kind (h : s.contains i.kind = false) : Refuses s position i (.notNative position i.kind)
  | nonFinite {pre post : List α} {x : α} (h : s.contains i.kind = true)
      (hx : i.gate.params = pre ++ x :: post) (hpre : ∀ y ∈ pre, isFinite y = true)
      (hfin : isFinite x = false) : Refuses s position i (.outsideNativeRange position i.kind x)
  | range (h : s.contains i.kind = true) (hfin : ∀ x ∈ i.gate.params, isFinite x = true)
      (hr : ¬ InRange i.gate) :
      Refuses s position i (.outsideNativeRange position i.kind i.gate.theta)

theorem admits_or_refuses (s : NativeSet) (position : Nat) (i : Instruction α) :
    s.Admits i ∨ ∃ e, s.Refuses position i e := by
  cases hk : s.contains i.kind with
  | false => exact .inr ⟨_, .kind hk⟩
  | true =>
    cases hfind : i.gate.params.find? (fun x => !isFinite x) with
    | some x =>
      obtain ⟨hx, pre, post, hp, hpre⟩ := List.find?_eq_some_iff_append.mp hfind
      exact .inr ⟨_, .nonFinite hk hp (by simpa using hpre) (by simpa using hx)⟩
    | none =>
      have hfin : ∀ x ∈ i.gate.params, isFinite x = true := by
        simpa [List.find?_eq_none] using hfind
      by_cases hr : InRange i.gate
      · exact .inl ⟨hk, hfin, hr⟩
      · exact .inr ⟨_, .range hk hfin hr⟩

theorem check_of_admits (hwf : i.WellFormed) (h : s.Admits i) : s.check position i = .ok () := by
  have hfind : i.gate.params.find? (fun x => !isFinite x) = none := by
    simpa [List.find?_eq_none] using h.finite
  simp [check, Instruction.checkForm_eq_ok_iff.mpr hwf, h.kind, hfind, h.range, bind, Except.bind]

theorem check_of_refuses (hwf : i.WellFormed) (h : s.Refuses position i e) :
    s.check position i = .error e := by
  simp only [check, Instruction.checkForm_eq_ok_iff.mpr hwf, bind, Except.bind]
  cases h with
  | kind h => simp [h]
  | @nonFinite pre post x h hx hpre hfin =>
    have hfind : i.gate.params.find? (fun x => !isFinite x) = some x := by
      rw [hx, List.find?_append, List.find?_eq_none.mpr (by simpa using hpre)]
      simp [hfin]
    simp [h, hfind]
  | range h hfin hr =>
    have hfind : i.gate.params.find? (fun x => !isFinite x) = none := by
      simpa [List.find?_eq_none] using hfin
    simp [h, hfind, hr]

/-- The first of some instructions that the set refuses, with its error. -/
def FirstRefused (s : NativeSet) (start : Nat) (is : List (Instruction α)) (e : Error α) : Prop :=
  ∃ pre i post, is = pre ++ i :: post ∧ (∀ j ∈ pre, s.Admits j) ∧
    s.Refuses (start + pre.length) i e

theorem admits_or_firstRefused (s : NativeSet) (start : Nat) (is : List (Instruction α)) :
    (∀ i ∈ is, s.Admits i) ∨ ∃ e, s.FirstRefused start is e := by
  induction is generalizing start with
  | nil => simp
  | cons i is ih =>
    rcases s.admits_or_refuses start i with hi | ⟨e, hi⟩
    · rcases ih (start + 1) with his | ⟨e, pre, j, post, rfl, hpre, hj⟩
      · exact .inl (List.forall_mem_cons.mpr ⟨hi, his⟩)
      · refine .inr ⟨e, i :: pre, j, post, rfl, by simp_all, ?_⟩
        rwa [List.length_cons, show start + (pre.length + 1) = start + 1 + pre.length by omega]
    · exact .inr ⟨e, [], i, is, rfl, by simp, hi⟩

theorem checkFrom_of_admits (hwf : ∀ i ∈ is, i.WellFormed) (h : ∀ i ∈ is, s.Admits i) :
    s.checkFrom position is = .ok () := by
  induction is generalizing position with
  | nil => rfl
  | cons i is ih =>
    rw [checkFrom, check_of_admits (hwf i List.mem_cons_self) (h i List.mem_cons_self)]
    exact ih (fun j hj => hwf j (List.mem_cons_of_mem i hj))
      fun j hj => h j (List.mem_cons_of_mem i hj)

theorem checkFrom_of_firstRefused (hwf : ∀ i ∈ is, i.WellFormed)
    (h : s.FirstRefused position is e) : s.checkFrom position is = .error e := by
  obtain ⟨pre, i, post, rfl, hpre, hi⟩ := h
  induction pre generalizing position with
  | nil =>
    have hcheck : s.check position i = .error e := check_of_refuses (hwf i (by simp)) hi
    rw [List.nil_append, checkFrom, hcheck]
    rfl
  | cons j pre ih =>
    rw [List.cons_append, checkFrom, check_of_admits (hwf j (by simp)) (hpre j (by simp))]
    refine ih (fun k hk => hwf k (List.mem_cons_of_mem j hk))
      (fun k hk => hpre k (List.mem_cons_of_mem j hk)) ?_
    rwa [show position + 1 + pre.length = position + (j :: pre).length by
      rw [List.length_cons]; omega]

theorem check_eq_ok_iff (position : Nat) :
    s.check position i = .ok () ↔ i.WellFormed ∧ s.Admits i := by
  constructor
  · intro h
    have hwf : i.WellFormed := by
      rw [← Instruction.checkForm_eq_ok_iff]
      cases hform : i.checkForm with
      | ok u => rfl
      | error e => simp [check, hform, bind, Except.bind] at h
    rcases s.admits_or_refuses position i with hadm | ⟨e, he⟩
    · exact ⟨hwf, hadm⟩
    · rw [check_of_refuses hwf he] at h
      cases h
  · rintro ⟨hwf, hadm⟩
    exact check_of_admits hwf hadm

theorem checkFrom_eq_ok_iff (position : Nat) :
    s.checkFrom position is = .ok () ↔ ∀ i ∈ is, i.WellFormed ∧ s.Admits i := by
  induction is generalizing position with
  | nil => simp [checkFrom]
  | cons i is ih =>
    rw [List.forall_mem_cons, ← check_eq_ok_iff position, ← ih (position + 1), checkFrom]
    cases s.check position i <;> simp [bind, Except.bind]

end NativeSet

end IonCircuit
