import IonCircuit.Proofs.Acceptance

/-! The pass replaces each instruction on its own: neither what stands beside an instruction nor
its position changes what replaces it, so running the pass and composing circuits commute. -/
namespace IonCircuit

section Generic
variable {α : Type} [Scalar α] [Trig α] [Scalar.Lawful α] {p : Pass α} {width : Nat}
  {is js : List (Instruction α)} {r : Circuit α} (hc : p.settings.compareUnitaries = false)
include hc

theorem run_empty (width : Nat) : p.run (.empty width) = .ok (.empty width) :=
  (run_eq_ok_iff hc).mpr ⟨by simp [Circuit.empty], by simp [Circuit.blocks, Circuit.empty], rfl⟩

theorem run_append_eq_ok_iff : p.run ⟨is ++ js, width⟩ = .ok r ↔
    ∃ as bs, p.run ⟨is, width⟩ = .ok ⟨as, width⟩ ∧ p.run ⟨js, width⟩ = .ok ⟨bs, width⟩ ∧
      r = ⟨as ++ bs, width⟩ := by
  simp only [run_eq_ok_iff hc, Circuit.blocks, List.flatMap_append, List.forall_mem_append]
  constructor
  · rintro ⟨⟨his, hjs⟩, hadm, rfl⟩
    exact ⟨_, _, ⟨his, fun hn => (hadm hn).1, rfl⟩, ⟨hjs, fun hn => (hadm hn).2, rfl⟩, rfl⟩
  · rintro ⟨as, bs, ⟨his, hadm, has⟩, ⟨hjs, hadm', hbs⟩, rfl⟩
    cases has
    cases hbs
    exact ⟨⟨his, hjs⟩, fun hn => ⟨hadm hn, hadm' hn⟩, rfl⟩

/-- The output consists of what the pass makes of each instruction alone. -/
theorem run_eq_ok_iff_parts : p.run ⟨is, width⟩ = .ok r ↔
    ∃ parts : List (List (Instruction α)),
      List.Forall₂ (fun i part => p.run ⟨[i], width⟩ = .ok ⟨part, width⟩) is parts ∧
        r = ⟨parts.flatten, width⟩ := by
  induction is generalizing r with
  | nil =>
    rw [show p.run ⟨[], width⟩ = .ok ⟨[], width⟩ from run_empty hc width]
    simp [eq_comm]
  | cons i is ih =>
    rw [← List.singleton_append, run_append_eq_ok_iff hc]
    constructor
    · rintro ⟨part, rest, hi, his, rfl⟩
      obtain ⟨parts, hparts, hrest⟩ := ih.mp his
      cases hrest
      exact ⟨part :: parts, .cons hi hparts, rfl⟩
    · rintro ⟨_, hparts, rfl⟩
      cases hparts with
      | cons hi his => exact ⟨_, _, hi, ih.mpr ⟨_, his, rfl⟩, rfl⟩

end Generic

/-- Two circuits in a row are accepted when both are, and their outputs stand in a row. More
generally the output is put together from what single instructions become. -/
theorem run_compose [Trig Float] {p : Pass Float} (hc : p.settings.compareUnitaries = false) :
    (∀ width, p.run (.empty width) = .ok (.empty width)) ∧
    (∀ a b : Circuit Float, a.width = b.width → ∃ ab, a.compose b = .ok ab ∧
      ((∃ r, p.run ab = .ok r) ↔ (∃ ra, p.run a = .ok ra) ∧ ∃ rb, p.run b = .ok rb) ∧
      ∀ ra rb, p.run a = .ok ra → p.run b = .ok rb → p.run ab = ra.compose rb) ∧
    ∀ (c r : Circuit Float), p.run c = .ok r ↔ ∃ parts : List (List (Instruction Float)),
      List.Forall₂ (fun i part => p.run ⟨[i], c.width⟩ = .ok ⟨part, c.width⟩) c.instructions parts ∧
        r = ⟨parts.flatten, c.width⟩ := by
  refine ⟨run_empty hc, ?_, fun c r => run_eq_ok_iff_parts hc⟩
  rintro ⟨is, width⟩ ⟨js, _⟩ rfl
  have hwidth : ∀ {ks : List (Instruction Float)} {r : Circuit Float},
      p.run ⟨ks, width⟩ = .ok r → r = ⟨r.instructions, width⟩ := by
    intro ks r hr
    obtain ⟨-, rfl⟩ := run_eq_ok hr
    rfl
  refine ⟨_, if_pos rfl, ⟨?_, ?_⟩, ?_⟩
  · rintro ⟨r, hr⟩
    obtain ⟨as, bs, has, hbs, -⟩ := (run_append_eq_ok_iff hc).mp hr
    exact ⟨⟨_, has⟩, ⟨_, hbs⟩⟩
  · rintro ⟨⟨ra, hra⟩, ⟨rb, hrb⟩⟩
    exact ⟨_, (run_append_eq_ok_iff hc).mpr ⟨_, _, hwidth hra ▸ hra, hwidth hrb ▸ hrb, rfl⟩⟩
  · intro ra rb hra hrb
    have hboth := (run_append_eq_ok_iff hc).mpr ⟨_, _, hwidth hra ▸ hra, hwidth hrb ▸ hrb, rfl⟩
    rw [hwidth hra, hwidth hrb]
    exact hboth.trans (if_pos rfl).symm

open Scalar (pi) in
/-- A folded interaction, and then a rotation that becomes native beside one that stays. -/
theorem run_compose_of_backward : ∃ ab,
    Circuit.compose ⟨[⟨.rxx (-1), [0, 1]⟩], 2⟩ ⟨[⟨.rx 1, [1]⟩, ⟨.rz 7, [0]⟩], 2⟩ = .ok ab ∧
      Pass.standard.run ab = .ok (⟨[⟨.rz pi, [0]⟩, ⟨.rxx 1, [0, 1]⟩, ⟨.rz pi, [0]⟩,
        ⟨.r 1 0, [1]⟩, ⟨.rz 7, [0]⟩], 2⟩ : Circuit Float) := by
  have hfirst : Pass.standard.run ⟨[⟨.rxx (-1), [0, 1]⟩], 2⟩ =
      .ok (⟨[⟨.rz pi, [0]⟩, ⟨.rxx 1, [0, 1]⟩, ⟨.rz pi, [0]⟩], 2⟩ : Circuit Float) := by
    decide +kernel
  have hsecond : Pass.standard.run ⟨[⟨.rx 1, [1]⟩, ⟨.rz 7, [0]⟩], 2⟩ =
      .ok (⟨[⟨.r 1 0, [1]⟩, ⟨.rz 7, [0]⟩], 2⟩ : Circuit Float) := by
    decide +kernel
  obtain ⟨ab, hab, -, hrun⟩ := (run_compose (p := Pass.standard) rfl).2.1
    ⟨[⟨.rxx (-1), [0, 1]⟩], 2⟩ ⟨[⟨.rx 1, [1]⟩, ⟨.rz 7, [0]⟩], 2⟩ rfl
  exact ⟨ab, hab, hrun _ _ hfirst hsecond⟩

end IonCircuit
