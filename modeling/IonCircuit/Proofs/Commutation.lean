import IonCircuit.Proofs.Adjoint

/-! Instructions on disjoint qubits act one after the other in either order, and so do circuits. -/
namespace IonCircuit
open Register (Addresses)

/-- The qubits that the instructions of a circuit act on. -/
def Circuit.qubits {α : Type} (c : Circuit α) : List ℕ := c.instructions.flatMap (·.qubits)

variable {width : ℕ} {i j : Instruction ℝ} {is js pre post : List (Instruction ℝ)}

theorem commute_embedded (hi : i.Fits width) (hj : j.Fits width)
    (hd : i.qubits.Disjoint j.qubits) : Commute (i.embedded width) (j.embedded width) := by
  have hboth : Addresses width (i.qubits ++ j.qubits) :=
    ⟨hi.1.2.append hj.1.2 hd, List.forall_mem_append.mpr ⟨hi.2, hj.2⟩⟩
  exact (Register.embed_comm hboth i.gate.entry j.gate.entry).symm

theorem commute_chain_left (h : ∀ i ∈ is, Commute (i.embedded width) (j.embedded width)) :
    Commute (chain width is) (j.embedded width) := by
  induction is with
  | nil => exact Commute.one_left _
  | cons i is ih =>
    rw [List.forall_mem_cons] at h
    rw [chain_cons]
    exact (ih h.2).mul_left h.1

/-- Instructions that commute one with one commute as a whole. -/
theorem commute_chain
    (h : ∀ i ∈ is, ∀ j ∈ js, Commute (i.embedded width) (j.embedded width)) :
    Commute (chain width is) (chain width js) := by
  induction js with
  | nil => exact Commute.one_right _
  | cons j js ih =>
    rw [chain_cons]
    refine (ih fun i hi k hk => h i hi k (List.mem_cons_of_mem j hk)).mul_right ?_
    exact commute_chain_left fun i hi => h i hi j List.mem_cons_self

theorem chain_append_comm (h : Commute (chain width is) (chain width js)) :
    chain width (is ++ js) = chain width (js ++ is) := by
  rw [chain_append, chain_append, h.eq]

/-- What stands before and after does not matter to an exchange. -/
theorem chain_swap (h : Commute (i.embedded width) (j.embedded width)) :
    chain width (pre ++ i :: j :: post) = chain width (pre ++ j :: i :: post) := by
  simp only [chain_append, chain_cons, mul_assoc]
  rw [← mul_assoc (j.embedded width), ← h.eq, mul_assoc]

/-- Two circuits that share no qubit have the same unitary in either order, and so has a circuit
with two neighbouring instructions exchanged that share none. -/
theorem disjoint_commute :
    (∀ a b : Circuit ℝ, a.WellFormed → b.WellFormed → a.width = b.width →
      a.qubits.Disjoint b.qubits → ∃ ab ba U, a.compose b = .ok ab ∧ b.compose a = .ok ba ∧
        ab.unitary = .ok U ∧ ba.unitary = .ok U) ∧
    ∀ (width : ℕ) (pre post : List (Instruction ℝ)) (i j : Instruction ℝ),
      (⟨pre ++ i :: j :: post, width⟩ : Circuit ℝ).WellFormed → i.qubits.Disjoint j.qubits →
        ∃ U, (⟨pre ++ i :: j :: post, width⟩ : Circuit ℝ).unitary = .ok U ∧
          (⟨pre ++ j :: i :: post, width⟩ : Circuit ℝ).unitary = .ok U := by
  constructor
  · rintro ⟨is, width⟩ ⟨js, _⟩ his hjs rfl hd
    have hpair : ∀ i ∈ is, ∀ j ∈ js, Commute (i.embedded width) (j.embedded width) := by
      intro i hi j hj
      refine commute_embedded (his i hi) (hjs j hj) fun q hqi hqj => ?_
      exact hd (List.mem_flatMap.mpr ⟨i, hi, hqi⟩) (List.mem_flatMap.mpr ⟨j, hj, hqj⟩)
    have hab : (⟨is ++ js, width⟩ : Circuit ℝ).WellFormed := List.forall_mem_append.mpr ⟨his, hjs⟩
    have hba : (⟨js ++ is, width⟩ : Circuit ℝ).WellFormed := List.forall_mem_append.mpr ⟨hjs, his⟩
    have hsame := Circuit.unitary_congr hab hba (chain_append_comm (commute_chain hpair))
    exact ⟨_, _, _, Circuit.compose_eq_ok rfl, Circuit.compose_eq_ok rfl,
      Circuit.unitary_eq_ok hab, hsame ▸ Circuit.unitary_eq_ok hab⟩
  · intro width pre post i j hij hd
    have hji : (⟨pre ++ j :: i :: post, width⟩ : Circuit ℝ).WellFormed := fun k hk =>
      hij k (((List.Perm.swap i j post).append_left pre).mem_iff.mp hk)
    have hcomm := commute_embedded (hij i (by simp)) (hij j (by simp)) hd
    exact ⟨_, Circuit.unitary_eq_ok hij,
      Circuit.unitary_congr hij hji (chain_swap hcomm) ▸ Circuit.unitary_eq_ok hij⟩

/-- Qubits of the two circuits alternate, and each circuit names the later qubit of its pair first;
between other gates, a rotation passes an interaction of the qubits around its own. -/
theorem disjoint_commute_of_alternating :
    (∃ ab ba U,
      (⟨[⟨.rxx 1, [2, 0]⟩, ⟨.r 2 3, [2]⟩], 4⟩ : Circuit ℝ).compose ⟨[⟨.rxx 4, [3, 1]⟩], 4⟩ = .ok ab ∧
      (⟨[⟨.rxx 4, [3, 1]⟩], 4⟩ : Circuit ℝ).compose ⟨[⟨.rxx 1, [2, 0]⟩, ⟨.r 2 3, [2]⟩], 4⟩ = .ok ba ∧
      ab.unitary = .ok U ∧ ba.unitary = .ok U) ∧
    ∃ U, (⟨[⟨.ry 1, [0]⟩] ++ ⟨.rx 2, [1]⟩ :: ⟨.rxx 3, [2, 0]⟩ :: [⟨.rz 4, [1]⟩], 3⟩ :
        Circuit ℝ).unitary = .ok U ∧
      (⟨[⟨.ry 1, [0]⟩] ++ ⟨.rxx 3, [2, 0]⟩ :: ⟨.rx 2, [1]⟩ :: [⟨.rz 4, [1]⟩], 3⟩ :
        Circuit ℝ).unitary = .ok U := by
  obtain ⟨hcircuits, hneighbours⟩ := disjoint_commute
  exact ⟨hcircuits _ _ (by decide) (by decide) rfl (by simp [Circuit.qubits]),
    hneighbours _ _ _ _ _ (by decide) (by simp)⟩

end IonCircuit
