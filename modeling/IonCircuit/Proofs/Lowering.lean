import IonCircuit.Proofs.Idempotence

/-! Lowering the corrections within a run and in a second run come to the same. The second run meets
half turns about x, which it makes native, and gates that are native in form already. -/
namespace IonCircuit
open Scalar (pi isFinite)

/-- The pass with the lowering of corrections switched on or off. -/
def Pass.lowering {α : Type} (p : Pass α) (lower : Bool) : Pass α :=
  { p with settings := { p.settings with lowerCorrections := lower } }

/-- A half turn about x becomes the native one, and anything else stays. -/
def Instruction.lowered {α : Type} [Scalar α] [DecidableEq α] (i : Instruction α) : Instruction α :=
  if i.gate = .rx pi then ⟨.r pi 0, i.qubits⟩ else i

/-- The corrections about x are not lowered yet, and every other gate has its final form. -/
inductive Instruction.Pending {α : Type} [Scalar α] : Instruction α → Prop
  | correction (q : Nat) : Pending ⟨.rx pi, [q]⟩
  | rz (θ : α) (qubits : List Nat) : Pending ⟨.rz θ, qubits⟩
  | r (θ φ : α) (qubits : List Nat) : Pending ⟨.r θ φ, qubits⟩
  | interaction (θ : α) (a b : Nat) : Pending ⟨.rxx (QuarterTurn.ofFinite θ).magnitude, [a, b]⟩

/-- Every correction about x made native. -/
def Circuit.lowered {α : Type} [Scalar α] [DecidableEq α] (c : Circuit α) : Circuit α :=
  ⟨c.instructions.map (·.lowered), c.width⟩

/-- A folded angle is not folded again. -/
theorem ofFinite_magnitude_ofFinite (θ : Float) :
    QuarterTurn.ofFinite (QuarterTurn.ofFinite θ).magnitude =
      ⟨(QuarterTurn.ofFinite θ).magnitude, false, false⟩ := by
  rw [ofFinite_of_native (isFinite_magnitude_ofFinite θ) (ofFinite_magnitude_mem θ),
    abs_magnitude_ofFinite]

section Pass
variable [Trig Float] {i : Instruction Float} {c r : Circuit Float} {e : Error Float}

namespace Instruction

theorem pending_of_mem_block (hwf : i.WellFormed) : ∀ o ∈ i.block false, o.Pending := by
  obtain ⟨g, qubits⟩ := i
  cases g with
  | rz θ => simpa [block] using Pending.rz θ qubits
  | r θ φ => simpa [block] using Pending.r θ φ qubits
  | rx θ | ry θ =>
    simp only [block, Gate.turned, List.mem_singleton, forall_eq]
    split <;> exact .r _ _ _
  | rxx θ =>
    obtain ⟨a, b, rfl⟩ := List.length_eq_two.mp hwf.1
    have hcorrection : ∀ q, (correction false q : Instruction Float).Pending := .correction
    simp only [block, QuarterTurn.block]
    cases (QuarterTurn.ofFinite θ).backward <;> cases (QuarterTurn.ofFinite θ).halfTurn <;>
      simp [hcorrection, Pending.rz, Pending.interaction]

/-- The rule of an instruction, applied with lowering, lowers what it returns without. -/
theorem block_true_eq_map (hwf : i.WellFormed) : i.block true = (i.block false).map lowered := by
  obtain ⟨g, qubits⟩ := i
  cases g with
  | rz θ | r θ φ => simp [block, lowered]
  | rx θ | ry θ =>
    simp only [block, Gate.turned, List.map_singleton]
    split <;> simp [lowered]
  | rxx θ =>
    obtain ⟨a, b, rfl⟩ := List.length_eq_two.mp hwf.1
    simp only [block, QuarterTurn.block]
    cases (QuarterTurn.ofFinite θ).backward <;> cases (QuarterTurn.ofFinite θ).halfTurn <;>
      simp [lowered, correction]

namespace Pending

theorem block_true (h : i.Pending) : i.block true = [i.lowered] := by
  cases h with
  | correction q => simp [block, lowered, turned_pi]
  | rz | r => simp [block, lowered]
  | interaction θ a b => simp [block, lowered, ofFinite_magnitude_ofFinite, QuarterTurn.block]

omit [Trig Float] in
theorem finite (h : i.Pending) : i.Reduced → isFinite i.gate.theta = true := by
  cases h with
  | correction => exact fun _ => Scalar.Lawful.isFinite_pi
  | rz | r => simp [Reduced, kind, Gate.kind]
  | interaction θ => exact fun _ => isFinite_magnitude_ofFinite θ

omit [Trig Float] in
theorem kind_ne_ry (h : i.Pending) : i.kind ≠ .ry := by
  cases h <;> simp [kind, Gate.kind]

omit [Trig Float] in
theorem eq_of_kind_rx (h : i.Pending) (hkind : i.kind = .rx) : i.gate = .rx pi := by
  cases h <;> simp_all [kind, Gate.kind]

end Pending
end Instruction

namespace Circuit

theorem WellFormed.pending_blocks (hwf : c.WellFormed) :
    ∀ o ∈ (c.blocks false).instructions, o.Pending := by
  intro o ho
  obtain ⟨i, hi, hoi⟩ := List.mem_flatMap.mp ho
  exact Instruction.pending_of_mem_block (hwf i hi).1 o hoi

/-- Lowering within a run lowers each replacement. -/
theorem WellFormed.blocks_true (hwf : c.WellFormed) : c.blocks true = (c.blocks false).lowered := by
  have hblock : ∀ i ∈ c.instructions, i.block true = (i.block false).map (·.lowered) :=
    fun i hi => Instruction.block_true_eq_map (hwf i hi).1
  rw [Circuit.blocks, List.flatMap_congr hblock, lowered, Circuit.blocks, List.map_flatMap]

/-- Lowering in a run of its own finds nothing else to replace. -/
theorem blocks_true_of_pending (h : ∀ o ∈ c.instructions, o.Pending) :
    c.blocks true = c.lowered := by
  rw [blocks, List.flatMap_congr fun o ho => (h o ho).block_true, lowered, List.map_eq_flatMap]

end Circuit

/-- Without checks of the output, the input alone decides whether a run succeeds. -/
theorem run_eq_ok_iff_of_unchecked {p : Pass Float} (hn : p.settings.checkNative = false)
    (hc : p.settings.compareUnitaries = false) : p.run c = .ok r ↔
      (∀ i ∈ c.instructions, i.Accepted c.width) ∧ r = c.blocks p.settings.lowerCorrections := by
  rw [run_eq_ok_iff hc]
  simp [hn]

theorem run_eq_error_iff_of_unchecked {p : Pass Float} (hn : p.settings.checkNative = false)
    (hc : p.settings.compareUnitaries = false) :
    p.run c = .error e ↔ FirstRejected c.width c.instructions e := by
  rw [run_eq_error_iff hc]
  simp [hn]

end Pass

/-- Without checks of the output, runs with lowering and without fail alike. What a run without
returns has corrections about x left and no other rotations about x or y; a run with lowering
returns it with the corrections made native, from the same input and from what was returned. -/
theorem run_lowering [Trig Float] {p : Pass Float} (hn : p.settings.checkNative = false)
    (hc : p.settings.compareUnitaries = false) (c : Circuit Float) :
    (∀ e, (p.lowering true).run c = .error e ↔ (p.lowering false).run c = .error e) ∧
    ∀ u, (p.lowering false).run c = .ok u →
      (p.lowering true).run c = .ok u.lowered ∧ (p.lowering true).run u = .ok u.lowered ∧
        ∀ o ∈ u.instructions, o.kind ≠ .ry ∧ (o.kind = .rx → o.gate = .rx pi) := by
  have hok : ∀ lower d r, (p.lowering lower).run d = .ok r ↔
      (∀ i ∈ d.instructions, i.Accepted d.width) ∧ r = d.blocks lower :=
    fun lower d r => run_eq_ok_iff_of_unchecked hn hc
  have herror : ∀ lower e, (p.lowering lower).run c = .error e ↔
      FirstRejected c.width c.instructions e :=
    fun lower e => run_eq_error_iff_of_unchecked hn hc
  refine ⟨fun e => (herror true e).trans (herror false e).symm, fun u hu => ?_⟩
  obtain ⟨hacc, rfl⟩ := (hok false c u).mp hu
  have hwf : c.WellFormed := fun i hi => (hacc i hi).fits
  have hpending := hwf.pending_blocks
  refine ⟨(hok true c _).mpr ⟨hacc, hwf.blocks_true.symm⟩, (hok true _ _).mpr ⟨?_, ?_⟩, ?_⟩
  · exact fun o ho => ⟨hwf.blocks false o ho, (hpending o ho).finite⟩
  · exact (Circuit.blocks_true_of_pending hpending).symm
  · exact fun o ho => ⟨(hpending o ho).kind_ne_ry, (hpending o ho).eq_of_kind_rx⟩

/-- An interaction by three is folded past a half turn, which leaves a correction on each qubit. -/
theorem run_lowering_at_three :
    let p : Pass Float := ⟨⟨1e-8, false, true, false⟩, .trappedIon⟩
    let c : Circuit Float := ⟨[⟨.rxx 3, [0, 1]⟩, ⟨.rx (-1), [1]⟩], 2⟩
    ∃ u, (p.lowering false).run c = .ok u ∧ (p.lowering true).run c = .ok u.lowered ∧
      (p.lowering true).run u = .ok u.lowered ∧ u.lowered ≠ u := by
  intro p c
  have hinteraction : (⟨.rxx 3, [0, 1]⟩ : Instruction Float).Accepted 2 :=
    ⟨⟨⟨rfl, by decide⟩, by simp⟩, fun _ => by decide⟩
  have hrotation : (⟨.rx (-1), [1]⟩ : Instruction Float).Accepted 2 :=
    ⟨⟨⟨rfl, List.nodup_singleton 1⟩, by simp⟩, fun _ => by decide⟩
  have hblocks : c.blocks false =
      ⟨[⟨.rx pi, [0]⟩, ⟨.rx pi, [1]⟩, ⟨.rz pi, [0]⟩, ⟨.rxx (pi - 3), [0, 1]⟩, ⟨.rz pi, [0]⟩,
        ⟨.r 1 pi, [1]⟩], 2⟩ := by decide +kernel
  have hrun : (p.lowering false).run c = .ok _ :=
    (run_eq_ok_iff_of_unchecked rfl rfl).mpr ⟨by simp [c, hinteraction, hrotation], hblocks.symm⟩
  obtain ⟨hwithin, hafter, -⟩ := (run_lowering (p := p) rfl rfl c).2 _ hrun
  exact ⟨_, hrun, hwithin, hafter, by decide +kernel⟩

end IonCircuit
