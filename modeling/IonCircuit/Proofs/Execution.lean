import IonCircuit.Binary64
import IonCircuit.Proofs.FirstFault
import IonCircuit.Proofs.Unitary

/-! What a native set leaves open about a circuit. It checks instructions and knows no
register, so a circuit that it accepts has a unitary exactly when the register has its qubits. -/
namespace IonCircuit

section Check
variable {α : Type} {c : Circuit α}

/-- Checking instructions against a register fails where appending them to a circuit does. -/
theorem forM_checkIn (output : Circuit α) (is : List (Instruction α)) :
    is.forM (·.checkIn output.width) = (is.foldlM Circuit.add output).map fun _ => () := by
  induction is generalizing output with
  | nil => rfl
  | cons i is ih =>
    rw [List.forM_eq_forM] at ih ⊢
    rw [List.forM_cons, List.foldlM_cons, Circuit.add]
    cases i.checkIn output.width with
    | error e => rfl
    | ok u => exact ih ⟨output.instructions ++ [i], output.width⟩

/-- Well-formed instructions pass up to the first qubit outside the register. -/
theorem checkAll_of_wellFormed (h : ∀ i ∈ c.instructions, i.WellFormed) :
    c.checkAll = match (c.instructions.flatMap (·.qubits)).find? (c.width ≤ ·) with
      | some q => .error (.qubitOutOfRange q c.width)
      | none => .ok () := by
  have hadd : c.checkAll = (c.instructions.foldlM Circuit.add (.empty c.width)).map fun _ => () :=
    forM_checkIn (.empty c.width) c.instructions
  rw [hadd, foldlM_add h]
  change Except.map _ (match (c.instructions.flatMap (·.qubits)).find? (c.width ≤ ·) with
    | some q => Except.error (Error.qubitOutOfRange q c.width)
    | none => Except.ok _) = _
  cases (c.instructions.flatMap (·.qubits)).find? (c.width ≤ ·) <;> rfl

theorem wellFormed_iff_fits (h : ∀ i ∈ c.instructions, i.WellFormed) :
    c.WellFormed ↔ ∀ i ∈ c.instructions, ∀ q ∈ i.qubits, q < c.width :=
  forall₂_congr fun i hi => and_iff_right (h i hi)

end Check

variable {α : Type} [Scalar α] [Trig α] {s : NativeSet} {c : Circuit α} {e : Error α}

theorem unitary_eq_error_iff : c.unitary = .error e ↔ c.checkAll = .error e := by
  unfold Circuit.unitary
  cases c.checkAll <;> simp [bind, Except.bind, pure, Except.pure]

theorem exists_unitary_iff : (∃ U, c.unitary = .ok U) ↔ c.WellFormed := by
  refine ⟨fun ⟨U, hU⟩ => ?_, fun h => ⟨_, Circuit.unitary_eq_ok h⟩⟩
  rw [← Circuit.checkAll_eq_ok_iff]
  cases hcheck : c.checkAll with
  | ok u => rfl
  | error e => simp [unitary_eq_error_iff.mpr hcheck] at hU

/-- A circuit that a native set accepts has a unitary if the register has every qubit, and
otherwise fails with the first qubit that the register does not have. -/
theorem unitary_of_checkCircuit (h : s.checkCircuit c = .ok ()) :
    ((∃ U, c.unitary = .ok U) ↔ ∀ i ∈ c.instructions, ∀ q ∈ i.qubits, q < c.width) ∧
      ∀ e, c.unitary = .error e ↔ ∃ pre q post,
        c.instructions.flatMap (·.qubits) = pre ++ q :: post ∧ (∀ p ∈ pre, p < c.width) ∧
          c.width ≤ q ∧ e = .qubitOutOfRange q c.width := by
  have hform : ∀ i ∈ c.instructions, i.WellFormed :=
    fun i hi => ((NativeSet.checkFrom_eq_ok_iff 0).mp h i hi).1
  refine ⟨exists_unitary_iff.trans (wellFormed_iff_fits hform), fun e => ?_⟩
  rw [unitary_eq_error_iff, checkAll_of_wellFormed hform]
  constructor
  · intro he
    cases hfind : (c.instructions.flatMap (·.qubits)).find? (c.width ≤ ·) with
    | none => simp [hfind] at he
    | some q =>
      obtain ⟨hq, pre, post, hsplit, hpre⟩ := List.find?_eq_some_iff_append.mp hfind
      obtain rfl : Error.qubitOutOfRange q c.width = e := by simpa [hfind] using he
      exact ⟨pre, q, post, hsplit, by simpa using hpre, by simpa using hq, rfl⟩
  · rintro ⟨pre, q, post, hsplit, hpre, hq, rfl⟩
    have hfind : (c.instructions.flatMap (·.qubits)).find? (c.width ≤ ·) = some q :=
      List.find?_eq_some_iff_append.mpr ⟨by simpa using hq, pre, post, hsplit, by simpa using hpre⟩
    rw [hfind]

/-- Two native interactions, the second on a qubit that the register does not have. -/
theorem unitary_of_checkCircuit_beyond_register :
    (⟨[⟨.rxx 1, [1, 0]⟩, ⟨.rxx 0.5, [1, 7]⟩], 2⟩ : Circuit Float).unitary =
      .error (.qubitOutOfRange 7 2) :=
  ((unitary_of_checkCircuit (s := .trappedIon)
    (c := (⟨[⟨.rxx 1, [1, 0]⟩, ⟨.rxx 0.5, [1, 7]⟩], 2⟩ : Circuit Float)) (by decide)).2 _).mpr
    ⟨[1, 0, 1], 7, [], rfl, by decide, by decide, rfl⟩

/-- A native set does not see that a qubit is outside the register. -/
theorem checkCircuit_ignores_register :
    NativeSet.trappedIon.checkCircuit (⟨[⟨.rz 0.5, [5]⟩], 2⟩ : Circuit Float) = .ok () ∧
      (⟨[⟨.rz 0.5, [5]⟩], 2⟩ : Circuit Float).unitary = .error (.qubitOutOfRange 5 2) :=
  ⟨by decide, rfl⟩

end IonCircuit
