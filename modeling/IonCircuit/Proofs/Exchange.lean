import IonCircuit.Proofs.Equality
import IonCircuit.Proofs.Placement

/-! Interactions act alike on both of their qubits. What replaces one treats them differently, but
acts alike on both again. -/
namespace IonCircuit
open List (Forall₂)
open Register (Addresses embed)

/-- The second circuit lists the qubits of some interactions in the other order. -/
structure Circuit.Exchanged {α : Type} (c d : Circuit α) : Prop where
  width : c.width = d.width
  instructions : Forall₂ (fun i j => j = i ∨ i.kind = .rxx ∧ j = ⟨i.gate, i.qubits.reverse⟩)
    c.instructions d.instructions

section Listing
variable {α : Type} {i : Instruction α} {width : ℕ} {c d : Circuit α}

theorem Instruction.Fits.reverse (h : i.Fits width) :
    (⟨i.gate, i.qubits.reverse⟩ : Instruction α).Fits width :=
  ⟨⟨List.length_reverse.trans h.1.1, List.nodup_reverse.mpr h.1.2⟩,
    fun q hq => h.2 q (List.mem_reverse.mp hq)⟩

theorem Circuit.Exchanged.sameGates (h : c.Exchanged d) : c.SameGates d where
  width := h.width
  gates := h.instructions.imp fun i j hij => by
    rcases hij with rfl | ⟨-, rfl⟩ <;> rfl

theorem Circuit.Exchanged.wellFormed (h : c.Exchanged d) (hc : c.WellFormed) : d.WellFormed := by
  refine forall_of_forall₂ h.instructions (fun i j hij hi => ?_) hc
  rw [← h.width]
  rcases hij with rfl | ⟨-, rfl⟩
  · exact hi
  · exact hi.reverse

end Listing

section Pair
variable {width a b : ℕ} (h : Addresses width ([a] ++ [b]))
include h

theorem Register.Addresses.swap : Addresses width ([b] ++ [a]) :=
  ⟨List.nodup_append_comm.mp h.nodup, fun q hq => h.lt q (by simp_all [or_comm])⟩

/-- The axis of an interaction does not tell its qubits apart. -/
theorem embed_pauliXX_swap : embed width [b, a] pauliXX = embed width [a, b] pauliXX := by
  rw [embed_pauliXX h.swap, embed_pauliXX h, Register.embed_comm h]

end Pair

variable {width : ℕ} {i j : Instruction ℝ} {is js : List (Instruction ℝ)} {c d r : Circuit ℝ}

/-- Circuits with the same product part by part have the same product. -/
theorem chain_flatMap_congr {f g : Instruction ℝ → List (Instruction ℝ)}
    (h : Forall₂ (fun i j => chain width (f i) = chain width (g j)) is js) :
    chain width (is.flatMap f) = chain width (js.flatMap g) := by
  induction h with
  | nil => rfl
  | cons hij _ ih => rw [List.flatMap_cons, List.flatMap_cons, chain_append, chain_append, hij, ih]

section Instruction
variable (hi : i.Fits width) (h : j = i ∨ i.kind = .rxx ∧ j = ⟨i.gate, i.qubits.reverse⟩)
include hi h

/-- Only the two qubits of an interaction can come in the other order. -/
theorem eq_or_swapped : j = i ∨ ∃ θ a b, Addresses width ([a] ++ [b]) ∧
    i = ⟨.rxx θ, [a, b]⟩ ∧ j = ⟨.rxx θ, [b, a]⟩ := by
  rcases h with rfl | ⟨hkind, rfl⟩
  · exact .inl rfl
  · obtain ⟨g, qubits⟩ := i
    cases g with
    | rx θ | ry θ | rz θ | r θ φ => simp [Instruction.kind, Gate.kind] at hkind
    | rxx θ =>
      obtain ⟨a, b, rfl⟩ := List.length_eq_two.mp hi.1.1
      exact .inr ⟨θ, a, b, hi.addresses, rfl, rfl⟩

theorem embedded_exchanged : j.embedded width = i.embedded width := by
  obtain rfl | ⟨θ, a, b, hab, rfl, rfl⟩ := eq_or_swapped hi h
  · rfl
  · rw [embedded_interaction hab, embedded_interaction hab.swap, embed_pauliXX_swap hab]

/-- The corrections sit on the other qubit, but what they come to is the same. -/
theorem chain_block_exchanged (lower : Bool) :
    chain width (j.block lower) = chain width (i.block lower) := by
  obtain rfl | ⟨θ, a, b, hab, rfl, rfl⟩ := eq_or_swapped hi h
  · rfl
  · change chain width ((QuarterTurn.ofFinite θ).block lower b a) =
      chain width ((QuarterTurn.ofFinite θ).block lower a b)
    rw [chain_quarterTurn_block hab, chain_quarterTurn_block hab.swap, embed_pauliXX_swap hab]

end Instruction

namespace Circuit.Exchanged
variable (h : c.Exchanged d) (hc : c.WellFormed)
include h hc

theorem unitary_eq : d.unitary = c.unitary := by
  have hd := h.wellFormed hc
  obtain ⟨is, width⟩ := c
  obtain ⟨js, _⟩ := d
  obtain ⟨rfl : width = _, hinstructions⟩ := h
  have hparts : Forall₂ (fun i j => chain width [i] = chain width [j]) is js := by
    refine ((List.forall₂_and_left is js).mpr ⟨hc, hinstructions⟩).imp fun i j hij => ?_
    simp [embedded_exchanged hij.1 hij.2]
  have hchain := chain_flatMap_congr hparts
  rw [List.flatMap_singleton', List.flatMap_singleton'] at hchain
  exact Circuit.unitary_congr hd hc hchain.symm

/-- The outputs have the same unitary, although their corrections stand on different qubits. -/
theorem unitary_blocks_eq (lower : Bool) : (d.blocks lower).unitary = (c.blocks lower).unitary := by
  have hd := h.wellFormed hc
  obtain ⟨is, width⟩ := c
  obtain ⟨js, _⟩ := d
  obtain ⟨rfl : width = _, hinstructions⟩ := h
  have hparts : Forall₂ (fun i j => chain width (i.block lower) = chain width (j.block lower))
      is js := by
    refine ((List.forall₂_and_left is js).mpr ⟨hc, hinstructions⟩).imp fun i j hij => ?_
    exact (chain_block_exchanged hij.1 hij.2 lower).symm
  exact Circuit.unitary_congr (hd.blocks lower) (hc.blocks lower) (chain_flatMap_congr hparts).symm

theorem equivalent_blocks_eq (lower : Bool) (t : ℝ) :
    d.equivalent (d.blocks lower) t = c.equivalent (c.blocks lower) t := by
  have hwidth : ∀ e : Circuit ℝ, e.width = (e.blocks lower).width := fun _ => rfl
  have hU := Circuit.unitary_eq_ok hc
  have hV := Circuit.unitary_eq_ok (hc.blocks lower)
  rw [Circuit.equivalent_of_unitary (hwidth c) hU hV, Circuit.equivalent_of_unitary (hwidth d)
    ((h.unitary_eq hc).trans hU) ((h.unitary_blocks_eq hc lower).trans hV)]

/-- No check of a run tells the orders of the qubits apart. -/
theorem run_eq (p : Pass ℝ) :
    p.run d = (p.run c).map fun _ => d.blocks p.settings.lowerCorrections :=
  run_of_sameGates hc (h.wellFormed hc) h.sameGates fun _ => h.equivalent_blocks_eq hc _ _

end Circuit.Exchanged

end IonCircuit
