import IonCircuit.Proofs.Conservation
import IonCircuit.Proofs.Fourier

/-! What the Fourier transform costs, as it is built and in native gates. All of its interactions
turn backward by less than a quarter, so each of them costs two half turns about z and no more. -/
namespace IonCircuit
open Builder (hadamardGates controlledPhaseGates)
open Scalar (half pi powTwo)

section Counts
variable {α : Type} [Scalar α]

/-- The gates of each kind in a Hadamard gate. -/
def hadamardCost : Kind → ℕ
  | .rx | .ry => 1
  | .rz | .r | .rxx => 0

/-- The gates of each kind in a controlled phase. -/
def controlledPhaseCost : Kind → ℕ
  | .ry => 4
  | .rz => 2
  | .rxx => 1
  | .rx | .r => 0

theorem countP_hadamardGates (q : ℕ) (k : Kind) :
    (hadamardGates q : List (Instruction α)).countP (·.kind == k) = hadamardCost k := by
  cases k <;> rfl

theorem countP_controlledPhaseGates (control target : ℕ) (θ : α) (k : Kind) :
    (controlledPhaseGates control target θ).countP (·.kind == k) = controlledPhaseCost k := by
  cases k <;> rfl

theorem countP_stageGates (target : ℕ) (k : Kind) :
    (stageGates target : List (Instruction α)).countP (·.kind == k) =
      hadamardCost k + target * controlledPhaseCost k := by
  have hphases : (phaseGates target target : List (Instruction α)).countP (·.kind == k) =
      target * controlledPhaseCost k := by
    simp [phaseGates, List.countP_flatMap, Function.comp_def, countP_controlledPhaseGates]
  rw [stageGates, List.countP_append, countP_hadamardGates, hphases]

theorem fourierGates_succ (n : ℕ) :
    (fourierGates (n + 1) : List (Instruction α)) = stageGates n ++ fourierGates n := by
  rw [fourierGates, List.range_succ, List.reverse_concat, List.flatMap_cons, fourierGates]

/-- There is one Hadamard gate for each qubit and one controlled phase for each pair. -/
theorem count_fourierGates (n : ℕ) (k : Kind) :
    (⟨fourierGates n, n⟩ : Circuit α).count k =
      n * hadamardCost k + n * (n - 1) / 2 * controlledPhaseCost k := by
  change (fourierGates n : List (Instruction α)).countP (·.kind == k) = _
  induction n with
  | zero => simp [fourierGates]
  | succ n ih =>
    rw [fourierGates_succ, List.countP_append, countP_stageGates, ih, Nat.triangle_succ]
    ring

/-- The one interaction of a controlled phase turns by half its angle backward. -/
theorem eq_of_mem_controlledPhaseGates {control target : ℕ} {θ : α} {i : Instruction α}
    (hi : i ∈ controlledPhaseGates control target θ) (hxx : i.kind = .rxx) :
    i = ⟨.rxx (half (-θ)), [control, target]⟩ := by
  have hmem : i ∈ (controlledPhaseGates control target θ).filter (·.kind == .rxx) := by
    simp [hi, hxx]
  exact List.mem_singleton.mp hmem

theorem exists_distance_of_mem_fourierGates {n : ℕ} {i : Instruction α} (hi : i ∈ fourierGates n)
    (hxx : i.kind = .rxx) : ∃ d, i.gate = .rxx (half (-(pi / powTwo (d + 1)))) := by
  obtain ⟨target, -, hi⟩ := List.mem_flatMap.mp hi
  rcases List.mem_append.mp hi with hi | hi
  · simp only [hadamardGates, List.mem_cons, List.not_mem_nil, or_false] at hi
    rcases hi with rfl | rfl <;> cases hxx
  · obtain ⟨control, hcontrol, hi⟩ := List.mem_flatMap.mp hi
    obtain ⟨d, hd⟩ := Nat.exists_eq_add_of_lt (List.mem_range.mp hcontrol)
    refine ⟨d, ?_⟩
    rw [eq_of_mem_controlledPhaseGates hi hxx, hd, show control + d + 1 - control = d + 1 by omega]

/-- Every interaction of the circuit is folded backward, and no half turn is taken out. -/
def Circuit.FoldsBackward (c : Circuit α) : Prop :=
  ∀ i ∈ c.instructions, i.kind = .rxx → ∃ magnitude, i.turn? = some ⟨magnitude, false, true⟩

theorem Circuit.FoldsBackward.turn?_any {c : Circuit α} (h : c.FoldsBackward) {i : Instruction α}
    (hi : i ∈ c.instructions) :
    i.turn?.any (·.halfTurn) = false ∧ i.turn?.any (·.backward) = (i.kind == .rxx) := by
  obtain ⟨g, qubits⟩ := i
  cases g with
  | rx θ | ry θ | rz θ | r θ φ => exact ⟨rfl, rfl⟩
  | rxx θ =>
    obtain ⟨magnitude, hturn⟩ := h _ hi rfl
    rw [hturn]
    exact ⟨rfl, rfl⟩

theorem Circuit.FoldsBackward.halfTurns_eq {c : Circuit α} (h : c.FoldsBackward) :
    c.halfTurns = 0 :=
  List.countP_eq_zero.mpr fun _ hi => Bool.eq_false_iff.mp (h.turn?_any hi).1

theorem Circuit.FoldsBackward.reversals_eq {c : Circuit α} (h : c.FoldsBackward) :
    c.reversals = c.count .rxx :=
  List.countP_congr fun _ hi => by rw [(h.turn?_any hi).2]

end Counts

/-- A backward angle of less than a quarter turn stays one when it is folded. -/
theorem QuarterTurn.ofFinite_neg {θ : ℝ} (hpos : 0 < θ) (hle : θ ≤ Real.pi / 2) :
    ofFinite (-θ) = ⟨θ, false, true⟩ := by
  have habs : |(-θ)| = θ := by rw [abs_neg, abs_of_pos hpos]
  simp [ofFinite, ofSigned, habs, hle, hpos]

theorem foldsBackward_fourierGates (n : ℕ) : (⟨fourierGates n, n⟩ : Circuit ℝ).FoldsBackward := by
  intro i hi hxx
  obtain ⟨d, hgate⟩ := exists_distance_of_mem_fourierGates hi hxx
  have hθ : half (-(pi / powTwo (d + 1))) = -(Real.pi / 2 / 2 ^ (d + 1)) := by
    rw [real_half, real_pi, real_powTwo]
    ring
  have hpos : 0 < Real.pi / 2 / 2 ^ (d + 1) := by positivity
  have hle : Real.pi / 2 / 2 ^ (d + 1) ≤ Real.pi / 2 :=
    div_le_self Real.pi_div_two_pos.le (one_le_pow₀ one_le_two)
  refine ⟨Real.pi / 2 / 2 ^ (d + 1), ?_⟩
  rw [Instruction.turn?, hgate, hθ]
  exact congrArg some (QuarterTurn.ofFinite_neg hpos hle)

/-- Without equatorial rotations no angle of a circuit can be out of range. -/
theorem toNative_of_not_equatorial {c : Circuit ℝ} (hwf : c.WellFormed) (hr : c.count .r = 0) :
    c.toNative = .ok (c.blocks true) := by
  have hnone : ∀ i ∈ c.instructions, i.kind ≠ .r := by
    simpa [Circuit.count, List.countP_eq_zero] using hr
  refine run_of_admitted (p := Pass.standard) (fun i hi => ⟨hwf i hi, fun _ => rfl⟩) ?_ rfl
  rintro - o ho
  obtain ⟨⟨g, qubits⟩, hi, ho⟩ := List.mem_flatMap.mp ho
  have hform := (hwf _ hi).1
  cases g with
  | rx θ => exact admits_block hform (.inl rfl) rfl o ho
  | ry θ => exact admits_block hform (.inr (.inl rfl)) rfl o ho
  | rxx θ => exact admits_block hform (.inr (.inr rfl)) rfl o ho
  | r θ φ => exact (hnone _ hi rfl).elim
  | rz θ =>
    obtain rfl : o = ⟨.rz θ, qubits⟩ := List.mem_singleton.mp ho
    exact ⟨rfl, fun _ _ => rfl, trivial⟩

/-- The transform on any number of qubits is built and made native without an error, with so many
gates of each kind before and after. Every interaction is folded backward without a half turn. -/
theorem fourier_cost (n : ℕ) : ∃ c r : Circuit ℝ,
    Circuit.fourier n = .ok c ∧ c.width = n ∧ c.WellFormed ∧ c.toNative = .ok r ∧
    c.count .rx = n ∧ c.count .ry = n + 2 * n * (n - 1) ∧ c.count .rz = n * (n - 1) ∧
    c.count .rxx = n * (n - 1) / 2 ∧ c.count .r = 0 ∧
    r.count .r = 2 * n ^ 2 ∧ r.count .rz = 2 * n * (n - 1) ∧ r.count .rxx = n * (n - 1) / 2 ∧
    r.count .rx = 0 ∧ r.count .ry = 0 ∧
    ∀ i ∈ c.instructions, i.kind = .rxx →
      ∃ magnitude, i.turn? = some ⟨magnitude, false, true⟩ := by
  have hwf := wellFormed_fourierGates (α := ℝ) n
  have hcount := count_fourierGates (α := ℝ) n
  have hfolds := foldsBackward_fourierGates n
  obtain ⟨hxx, hx, hy, hz, hr, -⟩ : Conserves true _ ((⟨fourierGates n, n⟩ : Circuit ℝ).blocks true) :=
    conserves_blocks fun i hi => ⟨hwf i hi, fun _ => rfl⟩
  rw [hfolds.reversals_eq] at hz
  rw [if_pos rfl] at hx
  rw [if_pos rfl, hfolds.halfTurns_eq] at hr
  -- Every count is linear in the number of qubits and that of their pairs.
  obtain ⟨pairs, hpairs⟩ : 2 ∣ n * (n - 1) := (Nat.even_mul_pred_self n).two_dvd
  have hhalf : n * (n - 1) / 2 = pairs := by rw [hpairs, Nat.mul_div_cancel_left pairs two_pos]
  have htwice : 2 * n * (n - 1) = 4 * pairs := by rw [mul_assoc, hpairs]; ring
  have hsquare : 2 * n ^ 2 = 4 * pairs + 2 * n := by
    rw [← htwice]
    cases n with
    | zero => rfl
    | succ n => rw [Nat.add_sub_cancel]; ring
  simp only [hcount, hadamardCost, controlledPhaseCost, hhalf] at hxx hz hr
  have hrnone : (⟨fourierGates n, n⟩ : Circuit ℝ).count .r = 0 := by
    simp [hcount, hadamardCost, controlledPhaseCost]
  refine ⟨_, _, Circuit.fourier_eq_ok n, rfl, hwf, toNative_of_not_equatorial hwf hrnone, ?_⟩
  rw [htwice, hsquare, hhalf, hpairs]
  simp only [hcount, hadamardCost, controlledPhaseCost, hhalf]
  exact ⟨by omega, by omega, by omega, by omega, by omega, by omega, by omega, by omega, hx, hy,
    hfolds⟩

end IonCircuit
