import IonCircuit.Proofs.ComplexAmplitude
import IonCircuit.Proofs.Evolution

/-! The unitary of a circuit over the reals is a product of complex matrices. -/
namespace IonCircuit
open Register (Addresses AgreeOff embed masks bases group)

/-- An entry of the unitary of a gate. -/
noncomputable def Gate.entry (g : Gate ℝ) (r c : ℕ) : ℂ := (g.matrix.entry r c).toComplex

/-- The matrix of an instruction on the whole register. -/
noncomputable def Instruction.embedded (width : ℕ) (i : Instruction ℝ) :
    Matrix (Fin (2 ^ width)) (Fin (2 ^ width)) ℂ :=
  embed width i.qubits i.gate.entry

/-- The product of the matrices of the instructions, the last one on the left. -/
noncomputable def chain (width : ℕ) (is : List (Instruction ℝ)) :
    Matrix (Fin (2 ^ width)) (Fin (2 ^ width)) ℂ :=
  (is.map (·.embedded width)).reverse.prod

section Chain
variable {width : ℕ} {i : Instruction ℝ}

@[simp] theorem chain_nil : chain width [] = 1 := rfl

@[simp] theorem chain_cons (is : List (Instruction ℝ)) :
    chain width (i :: is) = chain width is * i.embedded width := by
  simp [chain]

theorem chain_append (is js : List (Instruction ℝ)) :
    chain width (is ++ js) = chain width js * chain width is := by
  simp [chain]

end Chain

theorem Instruction.Fits.addresses {α : Type} {i : Instruction α} {width : ℕ}
    (h : i.Fits width) : Addresses width i.qubits := ⟨h.1.2, h.2⟩

namespace Action
variable {R : Type} [Semiring R] {width : ℕ} {action : Action R}

/-- An action goes through a state group by group, and each amplitude is read before it is
written. -/
structure Orderly (width : ℕ) (action : Action R) : Prop where
  mem_group : ∀ b ∈ bases width (masks width action.qubits), ∀ k,
    k ∈ group (masks width action.qubits) b ↔ k < 2 ^ width ∧ AgreeOff width action.qubits k b
  length_group : ∀ b ∈ bases width (masks width action.qubits),
    (group (masks width action.qubits) b).length = 2 ^ action.qubits.length
  once : ((bases width (masks width action.qubits)).flatMap
    (group (masks width action.qubits))).Perm (List.range (2 ^ width))
  unread : ∀ pre b post (state : Array R),
    bases width (masks width action.qubits) = pre ++ b :: post →
    ∀ k ∈ group (masks width action.qubits) b,
      (pre.foldl (updateGroup action.matrix (masks width action.qubits)) state).getD k 0 =
        state.getD k 0

theorem orderly_of_addresses (h : Addresses width action.qubits) : action.Orderly width where
  mem_group b hb k := by
    rw [Register.mem_group h hb]
    refine and_congr_right fun hk => ?_
    obtain ⟨hlt, hbase⟩ := Register.mem_bases.mp hb
    rw [← Register.base_eq_base_iff h.lt hk hlt, hbase]
  length_group b _ := by rw [Register.length_group, masks, List.length_map]
  once := Register.sweep_perm h
  unread _ _ _ _ hsplit _ hk := getD_unread h hsplit hk

end Action

theorem Circuit.checkAll_eq_ok_iff {α : Type} {c : Circuit α} :
    c.checkAll = .ok () ↔ c.WellFormed := by
  have hall : ∀ is : List (Instruction α), is.forM (·.checkIn c.width) = .ok () ↔
      ∀ i ∈ is, i.Fits c.width := by
    intro is
    induction is with
    | nil => simp [List.forM_eq_forM, pure, Except.pure]
    | cons i is ih =>
      rw [List.forall_mem_cons, ← ih, ← Instruction.checkIn_eq_ok_iff]
      cases hi : i.checkIn c.width <;>
        simp [List.forM_eq_forM, List.forM_cons, hi, bind, Except.bind]
  exact hall c.instructions

theorem Circuit.unitary_eq_ok {α : Type} [Scalar α] [Trig α] {c : Circuit α} (h : c.WellFormed) :
    c.unitary = .ok (Action.evolve c.width (c.instructions.map (·.action))) := by
  simp [Circuit.unitary, Circuit.checkAll_eq_ok_iff.mpr h, bind, Except.bind, pure, Except.pure]

theorem embedded_eq_map (width : ℕ) (i : Instruction ℝ) :
    i.embedded width = Amplitude.toComplex.mapMatrix (i.action.embedded width) := by
  ext j k
  simp only [Instruction.embedded, Register.embed_apply, Action.embedded, RingEquiv.mapMatrix_apply,
    Matrix.map_apply, apply_ite Amplitude.toComplex, map_zero]
  rfl

theorem toMatrix_evolve {c : Circuit ℝ} (h : c.WellFormed) :
    (Action.evolve c.width (c.instructions.map (·.action))).toMatrix (2 ^ c.width) =
      chain c.width c.instructions := by
  have hactions : ∀ a ∈ c.instructions.map (·.action), Addresses c.width a.qubits := by
    simp only [List.mem_map, forall_exists_index, and_imp]
    rintro _ i hi rfl
    exact (h i hi).addresses
  have hmap : chain c.width c.instructions = Amplitude.toComplex.mapMatrix
      ((c.instructions.map (·.action)).map (Action.embedded c.width)).reverse.prod := by
    rw [chain, map_list_prod, List.map_reverse, List.map_map, List.map_map]
    congr 3
    funext i
    exact embedded_eq_map c.width i
  ext j k
  rw [Operator.toMatrix_apply, Action.entry_evolve hactions j k, hmap]
  rfl

/-- The circuit has a unitary, and it is this complex matrix. -/
def Circuit.HasUnitary (c : Circuit ℝ) (M : Matrix (Fin (2 ^ c.width)) (Fin (2 ^ c.width)) ℂ) :
    Prop :=
  ∃ U, c.unitary = .ok U ∧ U.rows = 2 ^ c.width ∧ U.cols = 2 ^ c.width ∧
    U.toMatrix (2 ^ c.width) = M

theorem Circuit.WellFormed.hasUnitary {c : Circuit ℝ} (h : c.WellFormed) :
    c.HasUnitary (chain c.width c.instructions) :=
  ⟨_, Circuit.unitary_eq_ok h, rfl, rfl, toMatrix_evolve h⟩

/-- Circuits with one product of complex matrices have one unitary. -/
theorem Circuit.unitary_congr {width : ℕ} {is js : List (Instruction ℝ)}
    (his : (⟨is, width⟩ : Circuit ℝ).WellFormed) (hjs : (⟨js, width⟩ : Circuit ℝ).WellFormed)
    (h : chain width is = chain width js) :
    (⟨is, width⟩ : Circuit ℝ).unitary = (⟨js, width⟩ : Circuit ℝ).unitary := by
  rw [Circuit.unitary_eq_ok his, Circuit.unitary_eq_ok hjs]
  congr 1
  refine Operator.eq_of_entry_eq rfl rfl fun i hi j hj => Amplitude.toComplex.injective ?_
  have hmatrix := (toMatrix_evolve his).trans (h.trans (toMatrix_evolve hjs).symm)
  exact congrFun (congrFun hmatrix ⟨i, hi⟩) ⟨j, hj⟩

theorem Circuit.shape_of_unitary {c : Circuit ℝ} {U : Operator (Amplitude ℝ)} (h : c.unitary = .ok U) :
    U.rows = 2 ^ c.width ∧ U.cols = 2 ^ c.width := by
  unfold Circuit.unitary at h
  cases hcheck : c.checkAll with
  | error e => simp [hcheck, bind, Except.bind] at h
  | ok u =>
    obtain rfl : Action.evolve c.width (c.instructions.map (·.action)) = U := by
      simpa [hcheck, bind, Except.bind, pure, Except.pure] using h
    exact ⟨rfl, rfl⟩

/-- Evolving the columns of the identity in place computes the product of the embedded
gates. -/
theorem unitary_eq_product {c : Circuit ℝ} (h : c.WellFormed) :
    ∃ U, c.unitary = .ok U ∧ U.rows = 2 ^ c.width ∧ U.cols = 2 ^ c.width ∧
      U.toMatrix (2 ^ c.width) = (c.instructions.map (·.embedded c.width)).reverse.prod ∧
      ∀ i ∈ c.instructions, i.action.Orderly c.width :=
  ⟨_, Circuit.unitary_eq_ok h, rfl, rfl, toMatrix_evolve h,
    fun i hi => Action.orderly_of_addresses (h i hi).addresses⟩

theorem unitary_eq_product_of_entangled : ∃ U,
    (⟨[⟨.rxx 1, [2, 0]⟩, ⟨.rz 2, [1]⟩], 3⟩ : Circuit ℝ).unitary = .ok U ∧
      U.toMatrix (2 ^ 3) =
        Instruction.embedded 3 ⟨.rz 2, [1]⟩ * Instruction.embedded 3 ⟨.rxx 1, [2, 0]⟩ := by
  have h : (⟨[⟨.rxx 1, [2, 0]⟩, ⟨.rz 2, [1]⟩], 3⟩ : Circuit ℝ).WellFormed := by
    simp [Circuit.WellFormed, Instruction.Fits, Instruction.WellFormed, Gate.arity, Gate.kind,
      Kind.arity]
  obtain ⟨U, hU, -, -, hprod, -⟩ := unitary_eq_product h
  exact ⟨U, hU, by simpa using hprod⟩

end IonCircuit
