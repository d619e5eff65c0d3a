import IonCircuit.History
import IonCircuit.Proofs.Acceptance
import IonCircuit.Proofs.SelfCheck

/-! Every circuit that a sequence of operations makes is well formed, and each well-formed circuit
is made by some sequence. So the simulator and the pass find no fault in the qubits of any. -/
namespace IonCircuit
variable {α : Type} {c d : Circuit α} {i : Instruction α} {e : Error α}

theorem Circuit.WellFormed.compose {r : Circuit α} (hc : c.WellFormed) (hd : d.WellFormed)
    (h : c.compose d = .ok r) : r.WellFormed := by
  unfold Circuit.compose at h
  split at h
  · rename_i hw
    obtain rfl := Except.ok.inj h
    intro i hi
    rcases List.mem_append.mp hi with hi | hi
    · exact hc i hi
    · exact hw ▸ hd i hi
  · cases h

namespace Builder
variable {first : Builder α Unit} {next : Unit → Builder α Unit}

/-- A step leaves a well-formed circuit well formed, whether it fails or not. -/
def Keeps (step : Builder α Unit) : Prop :=
  ∀ c : Circuit α, c.WellFormed → (step.runOn c).2.WellFormed

theorem keeps_append (i : Instruction α) : Keeps (append i) := by
  intro c hc
  rw [runOn_append]
  cases hadd : c.add i with
  | ok d => exact hc.add hadd
  | error e => exact hc

theorem keeps_gate (g : Gate α) (qubits : List Nat) : Keeps (gate g qubits) :=
  gate_eq_append g qubits ▸ keeps_append _

theorem Keeps.bind (hfirst : Keeps first) (hnext : ∀ u, Keeps (next u)) :
    Keeps (first >>= next) := by
  intro c hc
  have hd := hfirst c hc
  rw [runOn_bind]
  rcases hrun : first.runOn c with ⟨outcome, d⟩
  rw [hrun] at hd
  cases outcome with
  | ok u => exact hnext u d hd
  | error e => exact hd

variable [Scalar α]

theorem keeps_hadamard (q : Nat) : Keeps (hadamard q : Builder α Unit) :=
  (keeps_gate _ _).bind fun _ => keeps_gate _ _

theorem keeps_rzz (a b : Nat) (θ : α) : Keeps (rzz a b θ) :=
  (keeps_gate _ _).bind fun _ => (keeps_gate _ _).bind fun _ => (keeps_gate _ _).bind fun _ =>
    (keeps_gate _ _).bind fun _ => keeps_gate _ _

theorem keeps_controlledPhase (control target : Nat) (θ : α) :
    Keeps (controlledPhase control target θ) :=
  (keeps_gate _ _).bind fun _ => (keeps_gate _ _).bind fun _ => keeps_rzz _ _ _

end Builder

theorem Extension.keeps_builder [Scalar α] (call : Extension α) : call.builder.Keeps := by
  cases call with
  | append i => exact Builder.keeps_append i
  | gate | rx | ry | rz | r | rxx => exact Builder.keeps_gate _ _
  | hadamard q => exact Builder.keeps_hadamard q
  | rzz a b θ => exact Builder.keeps_rzz a b θ
  | controlledPhase control target θ => exact Builder.keeps_controlledPhase control target θ

theorem eq_ok_of_toOption {x : Except (Error α) (Circuit α)} (h : x.toOption = some c) :
    x = .ok c := by
  cases x with
  | ok d => exact congrArg Except.ok (Option.some.inj h)
  | error e => cases h

variable [Scalar α]

/-- The error blames the number of qubits, a repeated one, or one that the register lacks. -/
def Error.BlamesQubits : Error α → Prop
  | .wrongArity .. | .repeatedQubit _ | .qubitOutOfRange .. => True
  | _ => False

theorem Instruction.Fits.not_blamesQubits {width : Nat} (hfits : i.Fits width)
    (h : i.Rejected width e) : ¬ e.BlamesQubits := by
  obtain ⟨-, -, rfl⟩ := hfits.rejected_iff.mp h
  exact not_false

theorem NativeSet.Refuses.not_blamesQubits {s : NativeSet} {position : Nat}
    (h : s.Refuses position i e) : ¬ e.BlamesQubits := by
  cases h <;> exact not_false

variable [Trig α]

section Run
variable [Scalar.Lawful α] {p : Pass α}

theorem Circuit.WellFormed.run {r : Circuit α} (hc : c.WellFormed) (h : p.run c = .ok r) :
    r.WellFormed := by
  obtain ⟨-, rfl⟩ := run_eq_ok h
  exact hc.blocks _

theorem Circuit.WellFormed.not_blamesQubits_comparing_false (hc : c.WellFormed)
    (h : (p.comparing false).run c = .error e) : ¬ e.BlamesQubits := by
  rcases (run_eq_error_iff rfl).mp h with hfirst | ⟨-, -, hfirst⟩
  · obtain ⟨pre, i, post, hsplit, -, hi⟩ := hfirst
    exact (hc i (by simp [hsplit])).not_blamesQubits hi
  · obtain ⟨pre, o, post, -, -, ho⟩ := hfirst
    exact ho.not_blamesQubits

/-- The comparison finds no fault in the qubits either: input and output are well formed. -/
theorem Circuit.WellFormed.not_blamesQubits (hc : c.WellFormed) (h : p.run c = .error e) :
    ¬ e.BlamesQubits := by
  cases hcompare : p.settings.compareUnitaries with
  | false => exact hc.not_blamesQubits_comparing_false (Pass.comparing_eq_self hcompare ▸ h)
  | true =>
    rw [← Pass.comparing_eq_self hcompare, run_comparing_true_eq_error_iff] at h
    rcases h with h | ⟨r, hr, h | ⟨-, rfl⟩⟩
    · exact hc.not_blamesQubits_comparing_false h
    · have hwidth : c.width = r.width := (run_eq_ok hr).2 ▸ rfl
      have hU := Circuit.unitary_eq_ok hc
      have hV := Circuit.unitary_eq_ok (hc.run hr)
      rw [Circuit.equivalent_of_unitary hwidth hU hV] at h
      cases h
    · exact not_false

end Run

namespace Operation
variable {made : List (Circuit α)} {operation : Operation α} {operations : List (Operation α)}

theorem makeAll_concat (operations : List (Operation α)) (operation : Operation α) :
    makeAll (operations ++ [operation]) =
      makeAll operations ++ (operation.make? (makeAll operations)).toList := by
  simp [makeAll]

/-- Appending its instructions one by one makes any well-formed circuit. -/
theorem exists_makeAll (width : Nat) (is : List (Instruction α)) (h : ∀ i ∈ is, i.Fits width) :
    ∃ operations, (⟨is, width⟩ : Circuit α) ∈ makeAll operations := by
  induction is using List.reverseRecOn with
  | nil => exact ⟨[create width], List.mem_singleton_self _⟩
  | append_singleton is i ih =>
    obtain ⟨operations, hmem⟩ := ih fun j hj => h j (List.mem_append_left _ hj)
    obtain ⟨source, hsource⟩ := List.mem_iff_getElem?.mp hmem
    have hadd : Circuit.add ⟨is, width⟩ i = .ok ⟨is ++ [i], width⟩ :=
      Circuit.add_eq_ok_iff.mpr ⟨h i (by simp), rfl⟩
    refine ⟨operations ++ [extend source (.append i)], ?_⟩
    rw [makeAll_concat]
    refine List.mem_append_right _ (Option.mem_toList.mpr ?_)
    simp [make?, hsource, Extension.builder, Builder.runOn_append, hadd]

variable [Scalar.Lawful α]

theorem wellFormed_of_make? (hmade : ∀ d ∈ made, d.WellFormed)
    (h : operation.make? made = some c) : c.WellFormed := by
  have hplace : ∀ {place : Nat} {d : Circuit α}, made[place]? = some d → d.WellFormed :=
    fun hd => hmade _ (List.mem_of_getElem? hd)
  cases operation with
  | create width =>
    obtain rfl := Option.some.inj h
    exact Circuit.wellFormed_empty width
  | extend source call =>
    obtain ⟨d, hd, rfl⟩ := Option.map_eq_some_iff.mp h
    exact call.keeps_builder d (hplace hd)
  | compose first second =>
    obtain ⟨a, ha, h⟩ := Option.bind_eq_some_iff.mp h
    obtain ⟨b, hb, h⟩ := Option.bind_eq_some_iff.mp h
    exact (hplace ha).compose (hplace hb) (eq_ok_of_toOption h)
  | adjoint source =>
    obtain ⟨d, hd, rfl⟩ := Option.map_eq_some_iff.mp h
    exact (hplace hd).adjoint
  | legalize source p =>
    obtain ⟨d, hd, h⟩ := Option.bind_eq_some_iff.mp h
    exact (hplace hd).run (eq_ok_of_toOption h)

theorem wellFormed_of_mem_makeAll (h : c ∈ makeAll operations) : c.WellFormed := by
  induction operations using List.reverseRecOn generalizing c with
  | nil => cases h
  | append_singleton operations operation ih =>
    rw [makeAll_concat] at h
    rcases List.mem_append.mp h with h | h
    · exact ih h
    · exact wellFormed_of_make? (fun d hd => ih hd) (Option.mem_toList.mp h)

/-- The circuits that operations make are the well-formed ones. -/
theorem exists_mem_makeAll_iff : (∃ operations, c ∈ makeAll operations) ↔ c.WellFormed :=
  ⟨fun ⟨_, h⟩ => wellFormed_of_mem_makeAll h, fun h => exists_makeAll c.width c.instructions h⟩

end Operation

/-- Every circuit that operations make, in whatever order and however many fail, is well formed.
So it has a unitary, and no pass finds a fault in its qubits. -/
theorem makeAll_wellFormed [Trig Float] (operations : List (Operation Float)) :
    ∀ c ∈ Operation.makeAll operations,
      (∀ i ∈ c.instructions, i.qubits.length = i.gate.arity ∧ i.qubits.Nodup ∧
        ∀ q ∈ i.qubits, q < c.width) ∧
      (∃ U, c.unitary = .ok U) ∧
      ∀ (p : Pass Float) e, p.run c = .error e → ¬ e.BlamesQubits := by
  intro c hmem
  have hc : c.WellFormed := Operation.wellFormed_of_mem_makeAll hmem
  refine ⟨fun i hi => ?_, ⟨_, Circuit.unitary_eq_ok hc⟩, fun p e h => hc.not_blamesQubits h⟩
  obtain ⟨⟨hlength, hnodup⟩, hrange⟩ := hc i hi
  exact ⟨hlength, hnodup, hrange⟩

open Scalar (pi halfPi threeHalfPi) in
/-- An interaction of a qubit with itself fails after two rotations. They are inverted, composed
with a Hadamard gate and made native; a composition with a circuit that is not there makes none. -/
theorem makeAll_wellFormed_of_self_interaction : ∃ U,
    (⟨[⟨.r halfPi threeHalfPi, [0]⟩, ⟨.r halfPi threeHalfPi, [0]⟩, ⟨.r halfPi halfPi, [1]⟩,
      ⟨.r pi 0, [1]⟩], 2⟩ : Circuit Float).unitary = .ok U := by
  have hlast : (Operation.makeAll [.create 2, .extend 0 (.rzz 0 0 (1 : Float)),
      .extend 0 (.hadamard 1), .adjoint 1, .compose 1 7, .compose 3 2, .legalize 4 .standard])[5]? =
        some ⟨[⟨.r halfPi threeHalfPi, [0]⟩, ⟨.r halfPi threeHalfPi, [0]⟩,
          ⟨.r halfPi halfPi, [1]⟩, ⟨.r pi 0, [1]⟩], 2⟩ := by
    decide +kernel
  exact (makeAll_wellFormed _ _ (List.mem_of_getElem? hlast)).2.1

end IonCircuit
