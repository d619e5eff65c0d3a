import IonCircuit.Proofs.FirstFault

/-! What a run of the pass returns, on every circuit and for every target. -/
namespace IonCircuit
open Scalar (pi halfPi threeHalfPi isFinite)
open Scalar.Lawful
variable {α : Type} [Scalar α] [Trig α] [Scalar.Lawful α] {i : Instruction α} {e : Error α}
  {p : Pass α} {c r : Circuit α} {lower : Bool}

/-- The angles of a gate are finite and in its native range. -/
def Gate.Native (g : Gate α) : Prop :=
  (∀ x ∈ g.params, isFinite x = true) ∧ NativeSet.InRange g

omit [Trig α] in
theorem native_correction (q : Nat) : (correction lower q : Instruction α).gate.Native := by
  cases lower with
  | false => exact ⟨by simp [correction, Gate.params, isFinite_pi], trivial⟩
  | true =>
    exact ⟨by simp [correction, Gate.params, isFinite_pi, isFinite_zero], zero_le_pi, pi_le_pi⟩

theorem native_turned [Trig.Bounded α] {θ φ opposite : α} (h : isFinite θ = true)
    (hφ : isFinite φ = true) (ho : isFinite opposite = true) :
    (Gate.turned θ φ opposite).Native := by
  obtain ⟨hlow, hhigh⟩ := principal_mem h
  unfold Gate.turned
  split
  · rename_i hneg
    have hmem := neg_mem (hlow hneg) hneg
    exact ⟨by simp [Gate.params, isFinite_of_mem hmem.1 hmem.2, ho], hmem⟩
  · rename_i hneg
    have hmem := abs_mem hneg hhigh
    exact ⟨by simp [Gate.params, isFinite_of_mem hmem.1 hmem.2, hφ], hmem⟩

omit [Trig α] in
theorem ofSigned_magnitude_mem (halfTurn : Bool) (rest : α) :
    0 ≤ (QuarterTurn.ofSigned halfTurn rest).magnitude ∧
      (QuarterTurn.ofSigned halfTurn rest).magnitude ≤ halfPi := by
  unfold QuarterTurn.ofSigned
  dsimp only
  split
  · rename_i h
    exact ⟨zero_le_abs h, h⟩
  · exact ⟨zero_le_halfPi, halfPi_le_halfPi⟩

omit [Trig α] in
theorem ofFinite_magnitude_mem (θ : α) : 0 ≤ (QuarterTurn.ofFinite θ).magnitude ∧
    (QuarterTurn.ofFinite θ).magnitude ≤ halfPi := by
  unfold QuarterTurn.ofFinite
  dsimp only
  split
  · exact ofSigned_magnitude_mem _ _
  · split
    · exact ofSigned_magnitude_mem _ _
    · split <;> exact ofSigned_magnitude_mem _ _

omit [Trig α] in
theorem isFinite_magnitude_ofFinite (θ : α) :
    isFinite (QuarterTurn.ofFinite θ).magnitude = true := by
  obtain ⟨hlow, hhigh⟩ := ofFinite_magnitude_mem θ
  exact isFinite_of_mem hlow (le_pi_of_le_halfPi hlow hhigh)

omit [Trig α] in
theorem native_quarterTurn_block (θ : α) (a b : Nat) :
    ∀ o ∈ (QuarterTurn.ofFinite θ).block lower a b, o.gate.Native := by
  have hz : (Gate.rz pi : Gate α).Native := ⟨by simp [Gate.params, isFinite_pi], trivial⟩
  have hxx : (Gate.rxx (QuarterTurn.ofFinite θ).magnitude).Native :=
    ⟨by simp [Gate.params, isFinite_magnitude_ofFinite], ofFinite_magnitude_mem θ⟩
  unfold QuarterTurn.block
  cases (QuarterTurn.ofFinite θ).backward <;> cases (QuarterTurn.ofFinite θ).halfTurn <;>
    simp [hz, hxx, native_correction]

/-- Whatever a rule emits is in its native range. -/
theorem native_block [Trig.Bounded α] (h : i.WellFormed) (hr : i.Reduced)
    (hθ : isFinite i.gate.theta = true) : ∀ o ∈ i.block lower, o.gate.Native := by
  obtain ⟨g, qubits⟩ := i
  cases g with
  | rz θ | r θ φ => simp [Instruction.Reduced, Instruction.kind, Gate.kind] at hr
  | rx θ =>
    have hfin : isFinite θ = true := hθ
    simpa [Instruction.block] using native_turned hfin isFinite_zero isFinite_pi
  | ry θ =>
    have hfin : isFinite θ = true := hθ
    simpa [Instruction.block] using native_turned hfin isFinite_halfPi isFinite_threeHalfPi
  | rxx θ =>
    obtain ⟨a, b, rfl⟩ := List.length_eq_two.mp h.1
    exact native_quarterTurn_block θ a b

/-- The trapped-ion backend runs whatever a rule emits, once corrections are lowered. -/
theorem admits_block [Trig.Bounded α] (h : i.WellFormed) (hr : i.Reduced)
    (hθ : isFinite i.gate.theta = true) : ∀ o ∈ i.block true, NativeSet.trappedIon.Admits o := by
  intro o ho
  obtain ⟨hfin, hrange⟩ := native_block h hr hθ o ho
  refine ⟨?_, hfin, hrange⟩
  obtain ⟨g, qubits⟩ := i
  cases g with
  | rz θ | r θ φ => simp [Instruction.Reduced, Instruction.kind, Gate.kind] at hr
  | rx θ | ry θ =>
    obtain rfl : o = _ := List.mem_singleton.mp ho
    unfold Gate.turned
    split <;> rfl
  | rxx θ =>
    obtain ⟨a, b, rfl⟩ := List.length_eq_two.mp h.1
    have hkind : ∀ o ∈ (QuarterTurn.ofFinite θ).block true a b,
        NativeSet.trappedIon.contains o.kind = true := by
      unfold QuarterTurn.block
      cases (QuarterTurn.ofFinite θ).backward <;> cases (QuarterTurn.ofFinite θ).halfTurn <;>
        simp [correction, Instruction.kind, Gate.kind, NativeSet.trappedIon, NativeSet.ofList]
    exact hkind o ho

omit [Scalar.Lawful α] in
theorem wellFormed_blocks (h : ∀ i ∈ c.instructions, i.Accepted c.width) :
    ∀ o ∈ (c.blocks lower).instructions, o.WellFormed := by
  intro o ho
  obtain ⟨i, hi, ho⟩ := List.mem_flatMap.mp ho
  exact i.wellFormed_block lower (h i hi).fits.1 o ho

theorem run_of_firstRejected (h : FirstRejected c.width c.instructions e) :
    p.run c = .error e := by
  rw [Pass.run, replaceAll_of_firstRejected h]
  rfl

theorem run_of_firstRefused (h : ∀ i ∈ c.instructions, i.Accepted c.width)
    (hn : p.settings.checkNative = true)
    (hr : p.target.FirstRefused 0 (c.blocks p.settings.lowerCorrections).instructions e) :
    p.run c = .error e := by
  have hcheck := NativeSet.checkFrom_of_firstRefused (wellFormed_blocks h) hr
  simp [Pass.run, replaceAll_of_accepted h, hn, NativeSet.checkCircuit, hcheck, bind, Except.bind]

theorem run_of_admitted (h : ∀ i ∈ c.instructions, i.Accepted c.width)
    (hn : p.settings.checkNative = true →
      ∀ o ∈ (c.blocks p.settings.lowerCorrections).instructions, p.target.Admits o)
    (hc : p.settings.compareUnitaries = false) :
    p.run c = .ok (c.blocks p.settings.lowerCorrections) := by
  have hcheck : p.settings.checkNative = true →
      p.target.checkCircuit (c.blocks p.settings.lowerCorrections) = .ok () :=
    fun hnative => NativeSet.checkFrom_of_admits (wellFormed_blocks h) (hn hnative)
  cases hnative : p.settings.checkNative <;>
    simp_all [Pass.run, replaceAll_of_accepted h, bind, Except.bind, pure, Except.pure]

omit [Scalar.Lawful α] in
/-- No check of the output changes it. -/
theorem replaceAll_of_run (h : p.run c = .ok r) : p.replaceAll c = .ok r := by
  unfold Pass.run at h
  cases ho : p.replaceAll c with
  | error e => simp [ho, bind, Except.bind] at h
  | ok output =>
    simp only [ho, bind, Except.bind] at h
    cases hn : p.target.checkCircuit output <;> cases hq : c.equivalent output p.settings.tolerance
      <;> cases hb : p.settings.checkNative <;> cases hc : p.settings.compareUnitaries
      <;> simp_all [pure, Except.pure, throw, throwThe, MonadExceptOf.throw]
    all_goals
      split at h <;> simp_all

theorem replaceAll_eq_ok (h : p.replaceAll c = .ok r) :
    (∀ i ∈ c.instructions, i.Accepted c.width) ∧ r = c.blocks p.settings.lowerCorrections := by
  rcases accepted_or_firstRejected c.width c.instructions with hacc | ⟨e, he⟩
  · rw [replaceAll_of_accepted hacc] at h
    exact ⟨hacc, (Except.ok.inj h).symm⟩
  · rw [replaceAll_of_firstRejected he] at h
    cases h

/-- A successful run accepted its whole input and returns the blocks. -/
theorem run_eq_ok (h : p.run c = .ok r) : (∀ i ∈ c.instructions, i.Accepted c.width) ∧
    r = c.blocks p.settings.lowerCorrections :=
  replaceAll_eq_ok (replaceAll_of_run h)

end IonCircuit
