import IonCircuit.Proofs.Outcome
import IonCircuit.Proofs.Rotation
import IonCircuit.Proofs.Snap

/-! The pass keeps the unitary of a circuit up to a power of the imaginary unit. -/
namespace IonCircuit
open Register (Addresses embed)
open Complex (I)
open Scalar (halfPi)
variable {width : ℕ} {i : Instruction ℝ} {c r : Circuit ℝ} {lower : Bool} {a b : ℕ}

/-- The gate with the angle that a reduction reads. -/
noncomputable def Gate.snapped : Gate ℝ → Gate ℝ
  | .rx θ => .rx (snap θ)
  | .ry θ => .ry (snap θ)
  | g => g

noncomputable def Instruction.snapped (i : Instruction ℝ) : Instruction ℝ :=
  ⟨i.gate.snapped, i.qubits⟩

noncomputable def Circuit.snapped (c : Circuit ℝ) : Circuit ℝ :=
  ⟨c.instructions.map (·.snapped), c.width⟩

@[simp] theorem Gate.arity_snapped (g : Gate ℝ) : g.snapped.arity = g.arity := by
  cases g <;> rfl

theorem Circuit.WellFormed.snapped (h : c.WellFormed) : c.snapped.WellFormed := by
  intro i hi
  obtain ⟨j, hj, rfl⟩ := List.mem_map.mp hi
  exact ⟨⟨(h j hj).1.1.trans j.gate.arity_snapped.symm, (h j hj).1.2⟩, (h j hj).2⟩

theorem Circuit.snapped_eq_self
    (h : ∀ i ∈ c.instructions, i.kind = .rx ∨ i.kind = .ry → ¬ InBand i.gate.theta) :
    c.snapped = c := by
  have hsame : ∀ i ∈ c.instructions, i.snapped = i := by
    rintro ⟨g, qubits⟩ hi
    have hband := h _ hi
    cases g with
    | rx θ =>
      have hθ : snap θ = θ := snap_of_not_inBand (hband (.inl rfl))
      rw [Instruction.snapped, Gate.snapped, hθ]
    | ry θ =>
      have hθ : snap θ = θ := snap_of_not_inBand (hband (.inr rfl))
      rw [Instruction.snapped, Gate.snapped, hθ]
    | rz θ | r θ φ | rxx θ => rfl
  rw [Circuit.snapped, List.map_congr_left hsame, List.map_id']

/-- The second matrix is the first up to a power of the imaginary unit. -/
def SameUpToQuarter (U V : Matrix (Fin (2 ^ width)) (Fin (2 ^ width)) ℂ) : Prop :=
  ∃ phase : ℂ, phase ^ 4 = 1 ∧ V = phase • U

theorem SameUpToQuarter.trans {U V W : Matrix (Fin (2 ^ width)) (Fin (2 ^ width)) ℂ}
    (h : SameUpToQuarter U V) (h' : SameUpToQuarter V W) : SameUpToQuarter U W := by
  obtain ⟨p, hp, rfl⟩ := h
  obtain ⟨p', hp', rfl⟩ := h'
  exact ⟨p' * p, by rw [mul_pow, hp, hp', one_mul], smul_smul p' p U⟩

theorem SameUpToQuarter.mul {U V U' V' : Matrix (Fin (2 ^ width)) (Fin (2 ^ width)) ℂ}
    (h : SameUpToQuarter U V) (h' : SameUpToQuarter U' V') :
    SameUpToQuarter (U * U') (V * V') := by
  obtain ⟨p, hp, rfl⟩ := h
  obtain ⟨p', hp', rfl⟩ := h'
  exact ⟨p * p', by rw [mul_pow, hp, hp', one_mul], smul_mul_smul_comm p U p' U'⟩

theorem sameUpToQuarter_turns (θ : ℝ) (k : ℤ) (A : Matrix (Fin (2 ^ width)) (Fin (2 ^ width)) ℂ) :
    SameUpToQuarter (rotation (θ + 2 * Real.pi * k) A) (rotation θ A) := by
  refine ⟨(-1) ^ k, ?_, ?_⟩
  · rw [← zpow_natCast, ← zpow_mul, mul_comm, zpow_mul]
    norm_num
  · rw [rotation_add_turns, smul_smul, ← zpow_add₀ (by norm_num), ← two_mul, zpow_mul]
    norm_num

/-- A rotation by the principal angle, the other way round if that is negative. -/
theorem embedded_turned {θ φ opposite : ℝ} {qubits : List ℕ}
    (hwf : (⟨.rx θ, qubits⟩ : Instruction ℝ).WellFormed) (ho : equator opposite = -equator φ) :
    (⟨.turned θ φ opposite, qubits⟩ : Instruction ℝ).embedded width =
      rotation (principal θ) (embed width qubits (equator φ)) := by
  have hr : ∀ θ' φ', (⟨.r θ' φ', qubits⟩ : Instruction ℝ).embedded width =
      rotation θ' (embed width qubits (equator φ')) :=
    fun _ _ => Instruction.embedded_eq_rotation hwf
  unfold Gate.turned
  split
  · rw [hr, ho, Register.embed_neg, rotation_neg]
  · rename_i hneg
    rw [hr, real_abs, abs_of_nonneg (not_lt.mp hneg)]

theorem sameUpToQuarter_turned {θ φ opposite : ℝ} {qubits : List ℕ}
    (hwf : (⟨.rx θ, qubits⟩ : Instruction ℝ).WellFormed) (ho : equator opposite = -equator φ) :
    SameUpToQuarter (rotation (snap θ) (embed width qubits (equator φ)))
      ((⟨.turned θ φ opposite, qubits⟩ : Instruction ℝ).embedded width) := by
  obtain ⟨k, hk⟩ := exists_snap_eq θ
  rw [embedded_turned hwf ho, hk]
  exact sameUpToQuarter_turns _ k _

theorem embedded_correction (lower : Bool) (q : ℕ) :
    (correction lower q : Instruction ℝ).embedded width = -I • embed width [q] pauliX := by
  have hwf : (correction lower q : Instruction ℝ).WellFormed := by
    cases lower <;> simp [correction, Instruction.WellFormed, Gate.arity, Gate.kind, Kind.arity]
  rw [Instruction.embedded_eq_rotation hwf]
  cases lower <;> simp [correction, Gate.theta, Instruction.axis, Gate.axis, rotation_pi]

/-- What the corrections of a folded angle leave over. -/
noncomputable def QuarterTurn.phase (turn : QuarterTurn ℝ) : ℂ :=
  (if turn.backward then -1 else 1) * if turn.halfTurn then -I else 1

theorem QuarterTurn.phase_pow_four (turn : QuarterTurn ℝ) : turn.phase ^ 4 = 1 := by
  have hhalf : (-I) ^ 4 = 1 := (Even.neg_pow ⟨2, rfl⟩ I).trans Complex.I_pow_four
  rw [phase, mul_pow]
  cases turn.backward <;> cases turn.halfTurn <;> norm_num [hhalf]

section Pair
variable (h : Addresses width ([a] ++ [b]))
include h

theorem embedded_interaction (θ : ℝ) : (⟨.rxx θ, [a, b]⟩ : Instruction ℝ).embedded width =
    rotation θ (embed width [a, b] pauliXX) :=
  Instruction.embedded_eq_rotation ⟨rfl, h.nodup⟩

/-- The corrections of a folded half turn turn by `-π` along the axis of the interaction. -/
theorem embedded_corrections :
    (correction lower b : Instruction ℝ).embedded width * (correction lower a).embedded width =
      -embed width [a, b] pauliXX := by
  rw [embedded_correction, embedded_correction, smul_mul_smul_comm,
    Register.embed_comm h, embed_pauliXX h, neg_mul_neg, Complex.I_mul_I, neg_one_smul]

theorem chain_backward (θ : ℝ) :
    chain width [(⟨.rz Real.pi, [a]⟩ : Instruction ℝ), ⟨.rxx θ, [a, b]⟩, ⟨.rz Real.pi, [a]⟩] =
      -rotation (-θ) (embed width [a, b] pauliXX) := by
  have hz : (⟨.rz Real.pi, [a]⟩ : Instruction ℝ).embedded width =
      rotation Real.pi (embed width [a] pauliZ) :=
    Instruction.embedded_eq_rotation ⟨rfl, List.nodup_singleton a⟩
  simp only [chain_cons, chain_nil, one_mul, hz, embedded_interaction h]
  rw [mul_assoc, rotation_between_half_turns (embed_pauliZ_mul_self h.left)
    (embed_pauliZ_mul_pauliXX h)]

/-- A folded interaction and its corrections turn by the angle that was folded, with a phase. -/
theorem chain_quarterTurn_block (turn : QuarterTurn ℝ) : chain width (turn.block lower a b) =
    turn.phase • rotation turn.angle (embed width [a, b] pauliXX) := by
  have hhalf := rotation_mul_neg_axis (embed_pauliXX_mul_self h)
  have hback := chain_backward h turn.magnitude
  have hforth : chain width [(⟨.rxx turn.magnitude, [a, b]⟩ : Instruction ℝ)] =
      rotation turn.magnitude (embed width [a, b] pauliXX) := by
    rw [chain_cons, chain_nil, one_mul, embedded_interaction h]
  simp only [QuarterTurn.block, QuarterTurn.angle, QuarterTurn.phase, real_pi]
  cases turn.backward <;> cases turn.halfTurn
  · simp [hforth]
  · simp only [if_true, Bool.false_eq_true, if_false, one_mul]
    rw [chain_cons, chain_cons, mul_assoc, embedded_corrections h, hforth, hhalf]
  · simp only [if_true, Bool.false_eq_true, if_false]
    simp [hback]
  · simp only [if_true]
    rw [chain_cons, chain_cons, mul_assoc, embedded_corrections h, hback, neg_mul, hhalf, neg_smul,
      neg_neg, neg_mul_neg, one_mul]

theorem chain_quarterTurn (turn : QuarterTurn ℝ) :
    SameUpToQuarter (rotation turn.angle (embed width [a, b] pauliXX))
      (chain width (turn.block lower a b)) :=
  ⟨turn.phase, turn.phase_pow_four, chain_quarterTurn_block h turn⟩

end Pair

/-- What replaces an instruction has the unitary of the instruction with its angle snapped. -/
theorem chain_block (lower : Bool) (h : i.Fits width) :
    SameUpToQuarter (i.snapped.embedded width) (chain width (i.block lower)) := by
  obtain ⟨g, qubits⟩ := i
  cases g with
  | rz θ | r θ φ =>
    exact ⟨1, one_pow 4, by simp [Instruction.block, Instruction.snapped, Gate.snapped]⟩
  | rx θ =>
    have hsnap : (⟨.rx (snap θ), qubits⟩ : Instruction ℝ).embedded width =
        rotation (snap θ) (embed width qubits (equator 0)) := by
      rw [equator_zero]
      exact Instruction.embedded_eq_rotation h.1
    rw [Instruction.block, chain_cons, chain_nil, one_mul, Instruction.snapped, Gate.snapped, hsnap]
    exact sameUpToQuarter_turned h.1 (by simp)
  | ry θ =>
    have hsnap : (⟨.ry (snap θ), qubits⟩ : Instruction ℝ).embedded width =
        rotation (snap θ) (embed width qubits (equator halfPi)) := by
      rw [real_halfPi, equator_half_pi]
      exact Instruction.embedded_eq_rotation h.1
    rw [Instruction.block, chain_cons, chain_nil, one_mul, Instruction.snapped, Gate.snapped, hsnap]
    exact sameUpToQuarter_turned h.1 (by simp)
  | rxx θ =>
    obtain ⟨a, b, rfl⟩ := List.length_eq_two.mp h.1.1
    obtain ⟨k, hk⟩ := QuarterTurn.exists_angle_ofFinite θ
    have hpair : (⟨.rxx θ, [a, b]⟩ : Instruction ℝ).embedded width =
        rotation ((QuarterTurn.ofFinite θ).angle + 2 * Real.pi * k) (embed width [a, b] pauliXX) := by
      rw [← hk]
      exact embedded_interaction h.addresses θ
    refine SameUpToQuarter.trans ?_ (chain_quarterTurn h.addresses (QuarterTurn.ofFinite θ))
    exact hpair ▸ sameUpToQuarter_turns _ k _

theorem chain_flatMap_block (lower : Bool) {is : List (Instruction ℝ)}
    (h : ∀ i ∈ is, i.Fits width) : SameUpToQuarter (chain width (is.map (·.snapped)))
      (chain width (is.flatMap (·.block lower))) := by
  induction is with
  | nil => exact ⟨1, one_pow 4, by simp⟩
  | cons i is ih =>
    rw [List.map_cons, chain_cons, List.flatMap_cons, chain_append]
    exact (ih fun j hj => h j (List.mem_cons_of_mem i hj)).mul
      (chain_block lower (h i List.mem_cons_self))

/-- The output has the unitary of the circuit with its angles snapped, up to a power of the imaginary
unit. -/
theorem exists_unitary_blocks (lower : Bool) (h : c.WellFormed) :
    ∃ U V, c.snapped.unitary = .ok U ∧ (c.blocks lower).unitary = .ok V ∧
      SameUpToQuarter (U.toMatrix (2 ^ c.width)) (V.toMatrix (2 ^ c.width)) := by
  have hsnap := h.snapped
  have hblocks := h.blocks lower
  have hchain := chain_flatMap_block lower h
  exact ⟨_, _, Circuit.unitary_eq_ok hsnap, Circuit.unitary_eq_ok hblocks,
    toMatrix_evolve hsnap ▸ toMatrix_evolve hblocks ▸ hchain⟩

/-- A circuit that is reduced throughout comes out native. -/
theorem run_of_reduced (h : c.WellFormed) (hr : ∀ i ∈ c.instructions, i.Reduced) (t : ℝ) :
    (⟨⟨t, false, true, true⟩, .trappedIon⟩ : Pass ℝ).run c = .ok (c.blocks true) := by
  refine run_of_admitted (fun i hi => ⟨h i hi, fun _ => rfl⟩) (fun _ o ho => ?_) rfl
  obtain ⟨i, hi, ho⟩ := List.mem_flatMap.mp ho
  exact admits_block (h i hi).1 (hr i hi) rfl o ho

/-- A successful run keeps the unitary up to a power of the imaginary unit. Angles about x or
y that the reduction snaps are read as the whole turns they are snapped to. With none in the band the
circuit itself is kept so. The converse fails: a whole turn about x is in the band and stays as it is,
and what snapping changes in two instructions may cancel. -/
theorem run_preserves_unitary {p : Pass ℝ} (h : p.run c = .ok r) :
    r.width = c.width ∧ ∃ U V, c.snapped.unitary = .ok U ∧ r.unitary = .ok V ∧
      (∃ phase : ℂ, phase ^ 4 = 1 ∧
        V.toMatrix (2 ^ c.width) = phase • U.toMatrix (2 ^ c.width)) ∧
      ((∀ i ∈ c.instructions, i.kind = .rx ∨ i.kind = .ry → ¬ InBand i.gate.theta) →
        c.unitary = .ok U) := by
  obtain ⟨hacc, rfl⟩ := run_eq_ok h
  have hwf : c.WellFormed := fun i hi => (hacc i hi).fits
  obtain ⟨U, V, hU, hV, hphase⟩ := exists_unitary_blocks p.settings.lowerCorrections hwf
  refine ⟨rfl, U, V, hU, hV, hphase, fun hband => ?_⟩
  rwa [Circuit.snapped_eq_self hband] at hU

theorem run_preserves_unitary_of_backward : ∃ r U V,
    Pass.standard.run (⟨[⟨.rxx (-1), [0, 1]⟩], 2⟩ : Circuit ℝ) = .ok r ∧
      (⟨[⟨.rxx (-1), [0, 1]⟩], 2⟩ : Circuit ℝ).unitary = .ok U ∧ r.unitary = .ok V ∧
      ∃ phase : ℂ, phase ^ 4 = 1 ∧ V.toMatrix (2 ^ 2) = phase • U.toMatrix (2 ^ 2) := by
  have hwf : (⟨[⟨.rxx (-1), [0, 1]⟩], 2⟩ : Circuit ℝ).WellFormed := by decide
  have hrun := run_of_reduced hwf
    (by simp [Instruction.Reduced, Instruction.kind, Gate.kind]) Settings.standard.tolerance
  obtain ⟨-, U, V, -, hV, hphase, hsame⟩ := run_preserves_unitary hrun
  exact ⟨_, U, V, hrun, hsame (by simp [Instruction.kind, Gate.kind]), hV, hphase⟩

/-- A whole turn about x is in the band, and the unitary is kept all the same. -/
theorem run_keeps_unitary_of_whole_turn :
    let c : Circuit ℝ := ⟨[⟨.rx (2 * Real.pi), [0]⟩], 1⟩
    (∃ i ∈ c.instructions, i.kind = .rx ∧ InBand i.gate.theta) ∧
      ∃ r U V, Pass.standard.run c = .ok r ∧ c.unitary = .ok U ∧ r.unitary = .ok V ∧
        ∃ phase : ℂ, phase ^ 4 = 1 ∧ V.toMatrix (2 ^ 1) = phase • U.toMatrix (2 ^ 1) := by
  intro c
  have hwf : c.WellFormed := by decide
  have hband : InBand (2 * Real.pi) := by simpa using inBand_turns (k := 1) one_ne_zero
  have hsnap : c.snapped = c := by
    have hturn : snap (2 * Real.pi) = 2 * Real.pi := by simpa using snap_turns 1
    simp [c, Circuit.snapped, Instruction.snapped, Gate.snapped, hturn]
  have hrun := run_of_reduced hwf
    (by simp [c, Instruction.Reduced, Instruction.kind, Gate.kind]) Settings.standard.tolerance
  obtain ⟨U, V, hU, hV, hphase⟩ := exists_unitary_blocks true hwf
  rw [hsnap] at hU
  exact ⟨⟨_, List.mem_singleton_self _, rfl, hband⟩, _, U, V, hrun, hU, hV, hphase⟩

end IonCircuit
