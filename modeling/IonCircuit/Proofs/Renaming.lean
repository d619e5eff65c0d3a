import IonCircuit.Proofs.Placement
import Mathlib.Data.Set.Function

/-! Other names for the qubits of a register. The basis states are permuted with the qubits, and
so is every matrix that acts on some of them. A run renames what it returns, since nothing it
looks at changes with the names unless angles are snapped. -/
namespace IonCircuit

namespace Register
variable {width i j q : ℕ} {qubits : List ℕ} {σ : ℕ → ℕ}

/-- The state that reads on the new name of each qubit what `i` reads on the qubit. -/
def renamed (width : ℕ) (σ : ℕ → ℕ) (i : ℕ) : ℕ :=
  deposit (masks width ((List.range width).map σ)) 0 (restrict width (List.range width) i)

section Permuted
variable (hσ : Set.BijOn σ (Set.Iio width) (Set.Iio width))
include hσ

theorem Addresses.map (h : Addresses width qubits) : Addresses width (qubits.map σ) where
  nodup := h.nodup.map_on fun p hp q hq he => hσ.injOn (h.lt p hp) (h.lt q hq) he
  lt := by
    intro p hp
    obtain ⟨q, hq, rfl⟩ := List.mem_map.mp hp
    exact hσ.mapsTo (h.lt q hq)

theorem addresses_map_range : Addresses width ((List.range width).map σ) :=
  Addresses.map hσ ⟨List.nodup_range, fun _ => List.mem_range.mp⟩

theorem renamed_lt : renamed width σ i < 2 ^ width :=
  deposit_lt (addresses_map_range hσ).lt (Nat.two_pow_pos width)

theorem bit_renamed (hq : q < width) : bit width (σ q) (renamed width σ i) = bit width q i := by
  have hread : restrict width ((List.range width).map σ) (renamed width σ i) =
      restrict width (List.range width) i := by
    rw [renamed, restrict_deposit (addresses_map_range hσ) (by simp [bit]), List.length_map]
    exact Nat.mod_eq_of_lt restrict_lt
  exact bit_eq_of_restrict_map_eq hread (List.mem_range.mpr hq)

theorem renamed_injective (hi : i < 2 ^ width) (hj : j < 2 ^ width)
    (h : renamed width σ i = renamed width σ j) : i = j := by
  refine eq_of_bit_eq hi hj fun q hq => ?_
  rw [← bit_renamed hσ hq, h, bit_renamed hσ hq]

/-- The permutation of the basis states that goes with one of the qubits. -/
noncomputable def renameStates : Equiv.Perm (Fin (2 ^ width)) :=
  Equiv.ofBijective (fun i => ⟨renamed width σ i, renamed_lt hσ⟩) <|
    Finite.injective_iff_bijective.mp fun i j h =>
      Fin.ext (renamed_injective hσ i.isLt j.isLt (congrArg Fin.val h))

theorem restrict_renamed (h : ∀ q ∈ qubits, q < width) :
    restrict width (qubits.map σ) (renamed width σ i) = restrict width qubits i :=
  restrict_map_congr fun q hq => bit_renamed hσ (h q hq)

theorem agreeOff_renamed (h : ∀ q ∈ qubits, q < width) :
    AgreeOff width (qubits.map σ) (renamed width σ i) (renamed width σ j) ↔
      AgreeOff width qubits i j := by
  constructor
  · intro ha q hq hmem
    have hnot : σ q ∉ qubits.map σ := by
      intro hmap
      obtain ⟨p, hp, he⟩ := List.mem_map.mp hmap
      obtain rfl : p = q := hσ.injOn (h p hp) hq he
      exact hmem hp
    have hbit := ha (σ q) (hσ.mapsTo hq) hnot
    rwa [bit_renamed hσ hq, bit_renamed hσ hq] at hbit
  · intro ha p hp hmem
    obtain ⟨q, hq, rfl⟩ := hσ.surjOn hp
    have hnot : q ∉ qubits := fun hq => hmem (List.mem_map_of_mem hq)
    rw [bit_renamed hσ hq, bit_renamed hσ hq]
    exact ha q hq hnot

/-- A matrix on the renamed qubits is the matrix on the qubits with its states renamed. -/
theorem submatrix_embed {R : Type*} [Zero R] (h : ∀ q ∈ qubits, q < width) (m : ℕ → ℕ → R) :
    (embed width (qubits.map σ) m).submatrix (renameStates hσ) (renameStates hσ) =
      embed width qubits m := by
  ext i j
  change embed width (qubits.map σ) m ⟨renamed width σ i, _⟩ ⟨renamed width σ j, _⟩ = _
  rw [embed_apply, embed_apply]
  simp only [agreeOff_renamed hσ h, restrict_renamed hσ h]

end Permuted

end Register

section Circuit
variable {α : Type} {width : ℕ} {i : Instruction α} {c : Circuit α} {σ : ℕ → ℕ}

def Instruction.renamed (σ : ℕ → ℕ) (i : Instruction α) : Instruction α :=
  ⟨i.gate, i.qubits.map σ⟩

/-- The circuit with another name for each qubit. -/
def Circuit.renamed (σ : ℕ → ℕ) (c : Circuit α) : Circuit α :=
  ⟨c.instructions.map (·.renamed σ), c.width⟩

theorem Instruction.Fits.renamed (hσ : Set.BijOn σ (Set.Iio width) (Set.Iio width))
    (h : i.Fits width) : (i.renamed σ).Fits width := by
  obtain ⟨hnodup, hlt⟩ := h.addresses.map hσ
  exact ⟨⟨(List.length_map σ).trans h.1.1, hnodup⟩, hlt⟩

theorem Circuit.WellFormed.renamed (hσ : Set.BijOn σ (Set.Iio c.width) (Set.Iio c.width))
    (h : c.WellFormed) : (c.renamed σ).WellFormed := by
  intro j hj
  obtain ⟨i, hi, rfl⟩ := List.mem_map.mp hj
  exact (h i hi).renamed hσ

theorem Circuit.sameGates_renamed (σ : ℕ → ℕ) (c : Circuit α) : c.SameGates (c.renamed σ) where
  width := rfl
  gates := List.forall₂_map_right_iff.mpr (List.forall₂_same.mpr fun _ _ => rfl)

variable [Scalar α] [Trig α] (lower : Bool)

theorem Instruction.block_renamed (σ : ℕ → ℕ) (i : Instruction α) :
    (i.renamed σ).block lower = (i.block lower).map (·.renamed σ) := by
  obtain ⟨g, qubits⟩ := i
  cases g with
  | rx θ | ry θ | rz θ | r θ φ => rfl
  | rxx θ =>
    rcases qubits with _ | ⟨a, _ | ⟨b, _ | ⟨d, qubits⟩⟩⟩
    · rfl
    · rfl
    · simp only [Instruction.renamed, Instruction.block, List.map_cons, List.map_nil,
        QuarterTurn.block, correction]
      cases (QuarterTurn.ofFinite θ).backward <;> cases (QuarterTurn.ofFinite θ).halfTurn <;> rfl
    · rfl

theorem Circuit.blocks_renamed (σ : ℕ → ℕ) (c : Circuit α) :
    (c.renamed σ).blocks lower = (c.blocks lower).renamed σ := by
  simp only [Circuit.blocks, Circuit.renamed, List.flatMap_map, List.map_flatMap,
    Instruction.block_renamed]

/-- A run renames what it returns, as long as the comparison does not depend on the names. -/
theorem run_renamed [Scalar.Lawful α] {p : Pass α}
    (hσ : Set.BijOn σ (Set.Iio c.width) (Set.Iio c.width)) (h : c.WellFormed)
    (hsame : p.settings.compareUnitaries = true →
      (c.renamed σ).equivalent ((c.renamed σ).blocks p.settings.lowerCorrections)
        p.settings.tolerance =
          c.equivalent (c.blocks p.settings.lowerCorrections) p.settings.tolerance) :
    p.run (c.renamed σ) = (p.run c).map (·.renamed σ) := by
  rw [run_of_sameGates h (h.renamed hσ) (c.sameGates_renamed σ) hsame]
  cases hrun : p.run c with
  | error e => rfl
  | ok r =>
    obtain ⟨-, rfl⟩ := run_eq_ok hrun
    exact congrArg Except.ok (Circuit.blocks_renamed _ σ c)

end Circuit

open Register (renameStates)
variable {width : ℕ} {is : List (Instruction ℝ)} {c : Circuit ℝ} {σ : ℕ → ℕ}

theorem submatrix_chain (hσ : Set.BijOn σ (Set.Iio width) (Set.Iio width))
    (h : ∀ i ∈ is, i.Fits width) :
    (chain width (is.map (·.renamed σ))).submatrix (renameStates hσ) (renameStates hσ) =
      chain width is := by
  induction is with
  | nil => exact Matrix.submatrix_one_equiv _
  | cons i is ih =>
    rw [List.forall_mem_cons] at h
    have hi : ((i.renamed σ).embedded width).submatrix (renameStates hσ) (renameStates hσ) =
        i.embedded width :=
      Register.submatrix_embed hσ h.1.2 i.gate.entry
    rw [List.map_cons, chain_cons, chain_cons, ← ih h.2, ← hi]
    exact (Matrix.submatrix_mul_equiv ..).symm

/-- A renamed circuit has the unitary of the circuit with the basis states renamed. -/
theorem unitary_renamed (hσ : Set.BijOn σ (Set.Iio c.width) (Set.Iio c.width))
    (h : c.WellFormed) : ∃ U U', c.unitary = .ok U ∧ (c.renamed σ).unitary = .ok U' ∧
      ∀ i j : Fin (2 ^ c.width), U'.entry (renameStates hσ i) (renameStates hσ j) = U.entry i j := by
  refine ⟨_, _, Circuit.unitary_eq_ok h, Circuit.unitary_eq_ok (h.renamed hσ), fun i j => ?_⟩
  apply Amplitude.toComplex.injective
  have hmatrix := toMatrix_evolve (h.renamed hσ)
  have hchain := submatrix_chain hσ h
  calc _ = chain c.width (c.renamed σ).instructions (renameStates hσ i) (renameStates hσ j) :=
        congrFun (congrFun hmatrix _) _
    _ = chain c.width c.instructions i j := congrFun (congrFun hchain i) j
    _ = _ := (congrFun (congrFun (toMatrix_evolve h) i) j).symm

/-- Matrices with the same entries up to a permutation have entries of the same sizes. -/
theorem Operator.moduli_eq_of_perm {n : ℕ} {U U' : Operator (Amplitude ℝ)}
    (π : Equiv.Perm (Fin n)) (hU : U.rows = n ∧ U.cols = n) (hU' : U'.rows = n ∧ U'.cols = n)
    (h : ∀ i j, U'.entry (π i) (π j) = U.entry i j) : U'.moduli = U.moduli := by
  ext x
  simp only [Operator.moduli, hU.1, hU.2, hU'.1, hU'.2, Set.mem_ofPred_eq]
  constructor
  · rintro ⟨i, hi, j, hj, rfl⟩
    refine ⟨π.symm ⟨i, hi⟩, Fin.isLt _, π.symm ⟨j, hj⟩, Fin.isLt _, ?_⟩
    rw [← h, Equiv.apply_symm_apply, Equiv.apply_symm_apply]
  · rintro ⟨i, hi, j, hj, rfl⟩
    exact ⟨π ⟨i, hi⟩, Fin.isLt _, π ⟨j, hj⟩, Fin.isLt _, by rw [h]⟩

theorem Circuit.snapped_renamed (σ : ℕ → ℕ) (c : Circuit ℝ) :
    (c.renamed σ).snapped = c.snapped.renamed σ := by
  simp only [Circuit.snapped, Circuit.renamed, List.map_map]
  rfl

/-- The comparison of a circuit without a snapped angle with its output does not depend on the
names: the largest entry of the unitary decides it. -/
theorem equivalent_blocks_renamed (lower : Bool)
    (hσ : Set.BijOn σ (Set.Iio c.width) (Set.Iio c.width)) (h : c.WellFormed)
    (hsnap : c.snapped = c) (t : ℝ) :
    (c.renamed σ).equivalent ((c.renamed σ).blocks lower) t = c.equivalent (c.blocks lower) t := by
  have hsnap' : (c.renamed σ).snapped = c.renamed σ := by
    rw [Circuit.snapped_renamed, hsnap]
  obtain ⟨U, M, hU, hM, -, hsame⟩ := equivalent_blocks_eq lower h hsnap t
  obtain ⟨U', M', hU', hM', -, hsame'⟩ := equivalent_blocks_eq lower (h.renamed hσ) hsnap' t
  obtain ⟨_, _, hV, hV', hentry⟩ := unitary_renamed hσ h
  obtain rfl := Except.ok.inj (hU.symm.trans hV)
  obtain rfl := Except.ok.inj (hU'.symm.trans hV')
  have hshape' := Circuit.shape_of_unitary hU'
  have hmoduli : U'.moduli = U.moduli :=
    Operator.moduli_eq_of_perm (renameStates hσ) (Circuit.shape_of_unitary hU) hshape' hentry
  rw [hmoduli] at hM'
  rw [hsame, hsame', hM'.unique hM]

end IonCircuit
