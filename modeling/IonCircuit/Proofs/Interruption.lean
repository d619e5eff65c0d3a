import IonCircuit.Binary64
import IonCircuit.History
import IonCircuit.Proofs.Building

/-! What a construction step that fails leaves behind: the instructions before the one at fault. A
step whose instructions fit together or not at all leaves nothing. -/
namespace IonCircuit
variable {α : Type} {c d : Circuit α} {e : Error α} {is : List (Instruction α)}

namespace Builder
variable {step : Builder α Unit}

theorem Lists.interrupted (h : Lists step is) (hrun : step.runOn c = (.error e, d)) :
    Interrupted is c d e := by
  rcases h c with ⟨hok, -⟩ | ⟨e', d', herror, hstop⟩
  · rw [hok] at hrun
    cases hrun
  · rw [herror] at hrun
    cases hrun
    exact hstop

/-- The circuit stays as it was just when the very first instruction is at fault. -/
theorem Interrupted.eq_iff (h : Interrupted is c d e) :
    d = c ↔ ∀ i ∈ is.head?, ¬ i.Fits c.width := by
  obtain ⟨kept, i, rest, rfl, hkept, hi, rfl⟩ := h
  cases kept with
  | nil =>
    have hnot : ¬ i.Fits c.width := by
      rw [← Instruction.checkIn_eq_ok_iff, hi]
      simp
    simpa using hnot
  | cons j kept =>
    refine iff_of_false (fun hsame => ?_) fun hnot => hnot j rfl (hkept j List.mem_cons_self)
    simpa using congrArg Circuit.instructions hsame

/-- Instructions that fit together or not at all leave nothing. -/
theorem Interrupted.eq_of_together (h : Interrupted is c d e)
    (his : ∀ j ∈ is, ∀ k ∈ is, j.Fits c.width → k.Fits c.width) : d = c := by
  obtain ⟨kept, i, rest, rfl, hkept, hi, rfl⟩ := h
  cases kept with
  | nil => rw [List.append_nil]
  | cons j kept =>
    have hfits := his j (by simp) i (by simp) (hkept j List.mem_cons_self)
    rw [Instruction.checkIn_eq_ok_iff.mpr hfits] at hi
    cases hi

end Builder

section Calls
variable [Scalar α]
open Builder (Lists Interrupted hadamardGates rzzGates controlledPhaseGates)
open Scalar (half halfPi)

namespace Extension

/-- What a call appends, in order. -/
def instructions : Extension α → List (Instruction α)
  | append i => [i]
  | gate g qubits => [⟨g, qubits⟩]
  | rx q θ => [⟨.rx θ, [q]⟩]
  | ry q θ => [⟨.ry θ, [q]⟩]
  | rz q θ => [⟨.rz θ, [q]⟩]
  | r q θ φ => [⟨.r θ φ, [q]⟩]
  | rxx a b θ => [⟨.rxx θ, [a, b]⟩]
  | hadamard q => hadamardGates q
  | rzz a b θ => rzzGates a b θ
  | controlledPhase control target θ => controlledPhaseGates control target θ

theorem lists_builder (call : Extension α) : Lists call.builder call.instructions := by
  cases call with
  | append i => exact Builder.lists_append i
  | gate | rx | ry | rz | r | rxx => exact Builder.lists_gate _ _
  | hadamard q => exact Builder.lists_hadamard q
  | rzz a b θ => exact Builder.lists_rzz a b θ
  | controlledPhase control target θ => exact Builder.lists_controlledPhase control target θ

/-- The call turns its first qubit on its own, and the register has that qubit. -/
def TurnsFirst (width : Nat) : Extension α → Prop
  | rzz a _ _ => a < width
  | controlledPhase control _ _ => control < width
  | _ => False

theorem eq_iff_of_interrupted {call : Extension α} (h : Interrupted call.instructions c d e) :
    d = c ↔ ¬ call.TurnsFirst c.width := by
  cases call with
  | append | gate | rx | ry | rz | r | rxx =>
    exact iff_of_true (h.eq_of_together (by simp [instructions])) not_false
  | hadamard q =>
    refine iff_of_true (h.eq_of_together fun j hj k hk hfits => ?_) not_false
    rw [Builder.fits_of_mem_hadamardGates hj] at hfits
    exact (Builder.fits_of_mem_hadamardGates hk).mpr hfits
  | rzz a b θ =>
    have hfirst : (⟨.ry halfPi, [a]⟩ : Instruction α).Fits c.width ↔ a < c.width :=
      Instruction.fits_single rfl
    rw [h.eq_iff]
    simp [instructions, rzzGates, TurnsFirst, hfirst]
  | controlledPhase control target θ =>
    have hfirst : (⟨.rz (half θ), [control]⟩ : Instruction α).Fits c.width ↔ control < c.width :=
      Instruction.fits_single rfl
    rw [h.eq_iff]
    simp [instructions, controlledPhaseGates, TurnsFirst, hfirst]

end Extension

/-- A call that fails leaves the instructions before the one at fault. So the circuit stays as it
was, except that an interaction along z and a controlled phase leave rotations behind when the
register has their first qubit. -/
theorem Extension.runOn_error {call : Extension α}
    (h : call.builder.runOn c = (.error e, d)) :
    (∃ kept i rest, call.instructions = kept ++ i :: rest ∧ (∀ j ∈ kept, j.Fits c.width) ∧
      i.checkIn c.width = .error e ∧ d = ⟨c.instructions ++ kept, c.width⟩) ∧
    (d = c ↔ ¬ call.TurnsFirst c.width) :=
  have hstop := call.lists_builder.interrupted h
  ⟨hstop, Extension.eq_iff_of_interrupted hstop⟩

end Calls

/-- The second qubit of an interaction is missing, and the first has been turned. -/
theorem Extension.runOn_error_of_missing :
    (Extension.rzz 0 5 0.5).builder.runOn (.empty 2) =
      (.error (.qubitOutOfRange 5 2), (⟨[⟨.ry Scalar.halfPi, [0]⟩], 2⟩ : Circuit Float)) ∧
    (⟨[⟨.ry Scalar.halfPi, [0]⟩], 2⟩ : Circuit Float) ≠ .empty 2 := by
  have hrun : (Extension.rzz 0 5 0.5).builder.runOn (.empty 2) =
      (.error (.qubitOutOfRange 5 2), (⟨[⟨.ry Scalar.halfPi, [0]⟩], 2⟩ : Circuit Float)) := rfl
  have hturns : (Extension.rzz 0 5 (0.5 : Float)).TurnsFirst 2 := Nat.two_pos
  exact ⟨hrun, fun hsame => (Extension.runOn_error hrun).2.mp hsame hturns⟩

end IonCircuit
