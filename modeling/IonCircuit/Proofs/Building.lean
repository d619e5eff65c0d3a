import IonCircuit.Circuit.Builder

/-! What a construction step appends, whatever was built before it: all of its instructions, or
those before the first that does not fit. -/
namespace IonCircuit
variable {α β : Type} {width : Nat} {i : Instruction α} {is js : List (Instruction α)}

theorem Instruction.fits_single {g : Gate α} {q : Nat} (hg : g.arity = 1) :
    (⟨g, [q]⟩ : Instruction α).Fits width ↔ q < width := by
  simp [Fits, WellFormed, hg]

theorem Instruction.fits_pair {g : Gate α} {a b : Nat} (hg : g.arity = 2) :
    (⟨g, [a, b]⟩ : Instruction α).Fits width ↔ a ≠ b ∧ a < width ∧ b < width := by
  simp [Fits, WellFormed, hg]

namespace Builder
variable {step first : Builder α Unit} {next : Unit → Builder α Unit}

/-- Appending these instructions in a row stops at the first that does not fit the register, and
those before it stay. -/
def Interrupted (is : List (Instruction α)) (c d : Circuit α) (e : Error α) : Prop :=
  ∃ kept i rest, is = kept ++ i :: rest ∧ (∀ j ∈ kept, j.Fits c.width) ∧
    i.checkIn c.width = .error e ∧ d = ⟨c.instructions ++ kept, c.width⟩

/-- Whatever circuit it runs on, the step appends these instructions in a row. -/
def Lists (step : Builder α Unit) (is : List (Instruction α)) : Prop :=
  ∀ c : Circuit α,
    (step.runOn c = (.ok (), ⟨c.instructions ++ is, c.width⟩) ∧ ∀ i ∈ is, i.Fits c.width) ∨
      ∃ e d, step.runOn c = (.error e, d) ∧ Interrupted is c d e

theorem lists_append (i : Instruction α) : Lists (append i) [i] := by
  intro c
  rw [runOn_append]
  cases hcheck : i.checkIn c.width with
  | ok u =>
    have hfits : i.Fits c.width := Instruction.checkIn_eq_ok_iff.mp hcheck
    rw [Circuit.add_eq_ok_iff.mpr ⟨hfits, rfl⟩]
    exact .inl ⟨rfl, by simpa using hfits⟩
  | error e =>
    have hadd : c.add i = .error e := by
      rw [Circuit.add, hcheck]
      rfl
    rw [hadd]
    exact .inr ⟨e, c, rfl, [], i, [], rfl, by simp, hcheck, by simp⟩

theorem lists_gate (g : Gate α) (qubits : List Nat) : Lists (gate g qubits) [⟨g, qubits⟩] :=
  gate_eq_append g qubits ▸ lists_append _

theorem Lists.bind (h : Lists first is) (h' : Lists (next ()) js) :
    Lists (first >>= next) (is ++ js) := by
  intro c
  rw [runOn_bind]
  rcases h c with ⟨hrun, hfits⟩ | ⟨e, d, hrun, kept, i, rest, rfl, hkept, hi, rfl⟩
  · rw [hrun]
    rcases h' ⟨c.instructions ++ is, c.width⟩ with
      ⟨hrun', hfits'⟩ | ⟨e, d, hrun', kept, i, rest, rfl, hkept, hi, rfl⟩
    · refine .inl ⟨?_, List.forall_mem_append.mpr ⟨hfits, hfits'⟩⟩
      exact hrun'.trans (by rw [List.append_assoc])
    · refine .inr ⟨e, _, hrun', is ++ kept, i, rest, by rw [List.append_assoc], ?_, hi, ?_⟩
      · exact List.forall_mem_append.mpr ⟨hfits, hkept⟩
      · rw [List.append_assoc]
  · rw [hrun]
    exact .inr ⟨e, _, rfl, kept, i, rest ++ js, by simp, hkept, hi, rfl⟩

/-- On a register of this width the step succeeds and appends these instructions, which fit. -/
structure Emits (width : Nat) (step : Builder α Unit) (is : List (Instruction α)) : Prop where
  runOn : ∀ done, step.runOn ⟨done, width⟩ = (.ok (), ⟨done ++ is, width⟩)
  fits : ∀ i ∈ is, i.Fits width

theorem Lists.emits (h : Lists step is) (hfits : ∀ i ∈ is, i.Fits width) :
    Emits width step is := by
  refine ⟨fun done => ?_, hfits⟩
  rcases h ⟨done, width⟩ with ⟨hrun, -⟩ | ⟨e, d, -, kept, i, rest, rfl, -, hi, -⟩
  · exact hrun
  · rw [Instruction.checkIn_eq_ok_iff.mpr (hfits i (by simp))] at hi
    cases hi

theorem Emits.bind (h : Emits width first is) (h' : Emits width (next ()) js) :
    Emits width (first >>= next) (is ++ js) := by
  refine ⟨fun done => ?_, List.forall_mem_append.mpr ⟨h.fits, h'.fits⟩⟩
  rw [runOn_bind, h.runOn]
  dsimp only
  rw [h'.runOn, List.append_assoc]

/-- A loop appends what its rounds append. -/
theorem emits_forM {xs : List β} {body : β → Builder α Unit} {block : β → List (Instruction α)}
    (h : ∀ x ∈ xs, Emits width (body x) (block x)) :
    Emits width (xs.forM body) (xs.flatMap block) := by
  induction xs with
  | nil => exact ⟨fun done => by rw [List.flatMap_nil, List.append_nil]; rfl, by simp⟩
  | cons x xs ih =>
    obtain ⟨hx, hxs⟩ := List.forall_mem_cons.mp h
    exact hx.bind (ih hxs)

/-- On an empty register a step builds the circuit of what it appends. -/
theorem Emits.build_eq_ok (h : Emits width first is) : build width first = .ok ⟨is, width⟩ := by
  have hrun : first.runOn (.empty width) = _ := h.runOn []
  rw [build, hrun]
  rfl

theorem Emits.wellFormed (h : Emits width first is) : (⟨is, width⟩ : Circuit α).WellFormed :=
  h.fits

section Macros
variable [Scalar α] {a b q control target : Nat} {θ : α}
open Scalar (half halfPi pi)

def hadamardGates (q : Nat) : List (Instruction α) := [⟨.ry halfPi, [q]⟩, ⟨.rx pi, [q]⟩]

def rzzGates (a b : Nat) (θ : α) : List (Instruction α) :=
  [⟨.ry halfPi, [a]⟩, ⟨.ry halfPi, [b]⟩, ⟨.rxx θ, [a, b]⟩, ⟨.ry (-halfPi), [a]⟩,
    ⟨.ry (-halfPi), [b]⟩]

def controlledPhaseGates (control target : Nat) (θ : α) : List (Instruction α) :=
  ⟨.rz (half θ), [control]⟩ :: ⟨.rz (half θ), [target]⟩ :: rzzGates control target (half (-θ))

theorem lists_hadamard (q : Nat) : Lists (hadamard q : Builder α Unit) (hadamardGates q) :=
  (lists_gate _ _).bind (lists_gate _ _)

theorem lists_rzz (a b : Nat) (θ : α) : Lists (rzz a b θ) (rzzGates a b θ) :=
  (lists_gate _ _).bind <| (lists_gate _ _).bind <| (lists_gate _ _).bind <|
    (lists_gate _ _).bind <| lists_gate _ _

theorem lists_controlledPhase (control target : Nat) (θ : α) :
    Lists (controlledPhase control target θ) (controlledPhaseGates control target θ) :=
  (lists_gate _ _).bind <| (lists_gate _ _).bind <| lists_rzz control target _

theorem fits_of_mem_hadamardGates (hi : i ∈ hadamardGates q) : i.Fits width ↔ q < width := by
  have hone : ∀ i ∈ (hadamardGates q : List (Instruction α)), i.Fits width ↔ q < width := by
    simp only [hadamardGates, List.forall_mem_cons]
    exact ⟨Instruction.fits_single rfl, Instruction.fits_single rfl, by simp⟩
  exact hone i hi

theorem fits_rzzGates (hab : a ≠ b) (ha : a < width) (hb : b < width) :
    ∀ i ∈ rzzGates a b θ, i.Fits width := by
  have hfirst : ∀ x : α, (⟨.ry x, [a]⟩ : Instruction α).Fits width :=
    fun _ => (Instruction.fits_single rfl).mpr ha
  have hsecond : ∀ x : α, (⟨.ry x, [b]⟩ : Instruction α).Fits width :=
    fun _ => (Instruction.fits_single rfl).mpr hb
  have hpair : (⟨.rxx θ, [a, b]⟩ : Instruction α).Fits width :=
    (Instruction.fits_pair rfl).mpr ⟨hab, ha, hb⟩
  simp [rzzGates, hfirst, hsecond, hpair]

theorem emits_hadamard (hq : q < width) :
    Emits width (hadamard q : Builder α Unit) (hadamardGates q) :=
  (lists_hadamard q).emits fun _ hi => (fits_of_mem_hadamardGates hi).mpr hq

theorem emits_rzz (hab : a ≠ b) (ha : a < width) (hb : b < width) :
    Emits width (rzz a b θ) (rzzGates a b θ) :=
  (lists_rzz a b θ).emits (fits_rzzGates hab ha hb)

theorem emits_controlledPhase (hab : control ≠ target) (hc : control < width)
    (ht : target < width) :
    Emits width (controlledPhase control target θ) (controlledPhaseGates control target θ) := by
  refine (lists_controlledPhase control target θ).emits ?_
  simp only [controlledPhaseGates, List.forall_mem_cons]
  exact ⟨(Instruction.fits_single rfl).mpr hc, (Instruction.fits_single rfl).mpr ht,
    fits_rzzGates hab hc ht⟩

end Macros

end Builder
end IonCircuit
