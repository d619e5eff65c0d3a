import IonCircuit.Proofs.Adjoint
import IonCircuit.Proofs.GlobalPhase
import IonCircuit.Proofs.Preservation
import Mathlib.Analysis.SpecialFunctions.Pow.Real

/-! The comparison of unitaries at the end of a run: what passes it is certified, and below a
tolerance that depends on the width nothing the pass makes fails it. -/
namespace IonCircuit
open scoped Matrix

/-- The pass with the comparison of unitaries switched on or off. -/
def Pass.comparing {α : Type} (p : Pass α) (compare : Bool) : Pass α :=
  { p with settings := { p.settings with compareUnitaries := compare } }

theorem Pass.comparing_eq_self {α : Type} {p : Pass α} {compare : Bool}
    (h : p.settings.compareUnitaries = compare) : p.comparing compare = p := by
  rw [Pass.comparing, ← h]

section Run
variable {α : Type} [Scalar α] [Trig α] {p : Pass α} {c r : Circuit α} {e : Error α}

theorem run_comparing_self {compare : Bool} (h : p.settings.compareUnitaries = compare)
    (c : Circuit α) : (p.comparing compare).run c = p.run c := by
  rw [Pass.comparing_eq_self h]

/-- The comparison comes last and decides whether the output is returned. -/
theorem run_comparing_true (p : Pass α) (c : Circuit α) :
    (p.comparing true).run c = (p.comparing false).run c >>= fun output => do
      unless ← c.equivalent output p.settings.tolerance do
        throw (.notEquivalent p.settings.tolerance)
      return output := by
  have hreplace : ∀ compare, (p.comparing compare).replaceAll c = p.replaceAll c := fun _ => rfl
  simp only [Pass.run, hreplace]
  cases p.replaceAll c with
  | error e => rfl
  | ok output =>
    cases hn : p.settings.checkNative with
    | false => simp [Pass.comparing, hn, bind, Except.bind, pure, Except.pure]
    | true =>
      cases hcheck : p.target.checkCircuit output <;>
        simp [Pass.comparing, hn, hcheck, bind, Except.bind, pure, Except.pure]

theorem run_comparing_true_eq_ok_iff : (p.comparing true).run c = .ok r ↔
    (p.comparing false).run c = .ok r ∧ c.equivalent r p.settings.tolerance = .ok true := by
  rw [run_comparing_true]
  cases (p.comparing false).run c with
  | error e => simp [bind, Except.bind]
  | ok output =>
    simp only [bind, Except.bind, Except.ok.injEq]
    constructor
    · intro h
      cases hsame : c.equivalent output p.settings.tolerance with
      | error e => simp [hsame] at h
      | ok same =>
        cases same with
        | false => simp [hsame, throw, throwThe, MonadExceptOf.throw] at h
        | true =>
          obtain rfl : output = r := by simpa [hsame, pure, Except.pure] using h
          exact ⟨rfl, hsame⟩
    · rintro ⟨rfl, hsame⟩
      simp [hsame, pure, Except.pure]

theorem run_comparing_true_eq_error_iff : (p.comparing true).run c = .error e ↔
    (p.comparing false).run c = .error e ∨ ∃ r, (p.comparing false).run c = .ok r ∧
      (c.equivalent r p.settings.tolerance = .error e ∨
        c.equivalent r p.settings.tolerance = .ok false ∧
          e = .notEquivalent p.settings.tolerance) := by
  rw [run_comparing_true]
  cases (p.comparing false).run c with
  | error e' => simp [bind, Except.bind]
  | ok output =>
    cases hsame : c.equivalent output p.settings.tolerance with
    | error e' => simp [hsame, bind, Except.bind]
    | ok same =>
      cases same <;> simp [hsame, bind, Except.bind, throw, throwThe, MonadExceptOf.throw, pure,
        Except.pure, eq_comm]

end Run

section Unitary
variable {N : ℕ} {U : Matrix (Fin N) (Fin N) ℂ}

/-- The entries of a column of a unitary matrix cannot all be small. -/
theorem one_le_of_norm_le (hU : Uᴴ * U = 1) {M : ℝ} (j : Fin N) (hM : ∀ i, ‖U i j‖ ≤ M) :
    1 ≤ N * M ^ 2 := by
  have hcolumn : ∑ i, ‖U i j‖ ^ 2 = 1 := by
    have hone := congrFun (congrFun hU j) j
    simp only [Matrix.mul_apply, Matrix.conjTranspose_apply, Matrix.one_apply_eq, Complex.star_def,
      Complex.conj_mul'] at hone
    exact_mod_cast hone
  calc (1 : ℝ) = ∑ i, ‖U i j‖ ^ 2 := hcolumn.symm
    _ ≤ ∑ _i : Fin N, M ^ 2 :=
      Finset.sum_le_sum fun i _ => pow_le_pow_left₀ (norm_nonneg _) (hM i) 2
    _ = N * M ^ 2 := by simp

theorem sq_two_rpow (width : ℕ) : ((2 : ℝ) ^ (-(width : ℝ) / 2)) ^ 2 = ((2 : ℝ) ^ width)⁻¹ := by
  have hexponent : -(width : ℝ) / 2 * (2 : ℕ) = -width := by
    push_cast
    ring
  rw [← Real.rpow_natCast, ← Real.rpow_mul two_pos.le, hexponent, Real.rpow_neg two_pos.le,
    Real.rpow_natCast]

/-- The largest entry of a unitary matrix on some qubits has at least this modulus. -/
theorem two_rpow_le_of_isGreatest {width : ℕ} {a : Operator (Amplitude ℝ)} {M : ℝ}
    (hrows : a.rows = 2 ^ width) (hcols : a.cols = 2 ^ width)
    (hU : (a.toMatrix (2 ^ width))ᴴ * a.toMatrix (2 ^ width) = 1)
    (hM : IsGreatest a.moduli M) : (2 : ℝ) ^ (-(width : ℝ) / 2) ≤ M := by
  obtain ⟨⟨i, -, j, -, hentry⟩, hmax⟩ := hM
  have hnonneg : 0 ≤ M := hentry ▸ norm_nonneg _
  have hall : ∀ i, ‖a.toMatrix (2 ^ width) i ⟨0, Nat.two_pow_pos width⟩‖ ≤ M := by
    intro i
    have hi : i.val < a.rows := by simpa only [hrows] using i.isLt
    have hj : 0 < a.cols := by simpa only [hcols] using Nat.two_pow_pos width
    exact hmax ⟨i, hi, 0, hj, rfl⟩
  have hcolumn := one_le_of_norm_le hU _ hall
  push_cast at hcolumn
  rw [← pow_le_pow_iff_left₀ (by positivity) hnonneg two_ne_zero, sq_two_rpow]
  exact (inv_le_iff_one_le_mul₀' (by positivity)).mpr hcolumn

end Unitary

section Blocks
variable {c : Circuit ℝ} (lower : Bool) (h : c.WellFormed) (hsnap : c.snapped = c)
include h hsnap

/-- Unless snapping changes an angle the output keeps the unitary up to a phase of length one. -/
theorem exists_phase_blocks : ∃ q : ℂ, ‖q‖ = 1 ∧
    chain c.width (c.blocks lower).instructions = q • chain c.width c.instructions := by
  obtain ⟨q, hq, hchain⟩ := chain_flatMap_block lower h
  have hsame : c.instructions.map (·.snapped) = c.instructions :=
    congrArg Circuit.instructions hsnap
  refine ⟨q, Complex.norm_eq_one_of_pow_eq_one hq four_ne_zero, ?_⟩
  rw [hsame] at hchain
  exact hchain

/-- The comparison of a circuit without a snapped angle with its output is decided by the largest
entry of the unitary. -/
theorem equivalent_blocks_eq (t : ℝ) : ∃ U M, c.unitary = .ok U ∧ IsGreatest U.moduli M ∧
    (2 : ℝ) ^ (-(c.width : ℝ) / 2) ≤ M ∧
      c.equivalent (c.blocks lower) t = .ok (decide (0 ≤ t ∧ t < M)) := by
  obtain ⟨U, hU, hrows, hcols, hchain⟩ := h.hasUnitary
  obtain ⟨V, hV, hrows', hcols', hchain'⟩ := (h.blocks lower).hasUnitary
  obtain ⟨q, hq, hphase⟩ := exists_phase_blocks lower h hsnap
  have hshape : U.SameShape V := ⟨hrows.trans hrows'.symm, hcols.trans hcols'.symm⟩
  obtain ⟨M, hM⟩ := U.exists_isGreatest_moduli (hrows ▸ Nat.two_pow_pos c.width)
    (hcols ▸ Nat.two_pow_pos c.width)
  have hlarge : (2 : ℝ) ^ (-(c.width : ℝ) / 2) ≤ M := by
    refine two_rpow_le_of_isGreatest hrows hcols ?_ hM
    rw [hchain]
    exact conjTranspose_mul_chain h
  have hpos : 0 < M := (Real.rpow_pos_of_pos two_pos _).trans_le hlarge
  have hmatrix : V.toMatrix (2 ^ c.width) = q • U.toMatrix (2 ^ c.width) := by
    rw [hchain, ← hphase]
    exact hchain'
  have hexact : ∀ i < U.rows, ∀ j < U.cols,
      (V.entry i j).toComplex = q * (U.entry i j).toComplex := by
    intro i hi j hj
    rw [hrows] at hi
    rw [hcols] at hj
    exact congrFun (congrFun hmatrix ⟨i, hi⟩) ⟨j, hj⟩
  have hwidth : c.width = (c.blocks lower).width := rfl
  refine ⟨U, M, hU, hM, hlarge, ?_⟩
  rw [Circuit.equivalent_of_unitary hwidth hU hV,
    Operator.isSome_phase?_of_multiple hshape hM hpos hq hexact]

/-- The comparison passes whatever the pass makes of a circuit without a snapped angle. -/
theorem equivalent_blocks {t : ℝ} (ht : 0 < t) (hwidth : t < (2 : ℝ) ^ (-(c.width : ℝ) / 2)) :
    c.equivalent (c.blocks lower) t = .ok true := by
  obtain ⟨U, M, -, -, hlarge, hsame⟩ := equivalent_blocks_eq lower h hsnap t
  rw [hsame, decide_eq_true ⟨ht.le, hwidth.trans_le hlarge⟩]

end Blocks

/-- A run that compares unitaries certifies what it returns, to within any tolerance below
one. If the tolerance is also below the least possible largest entry of a unitary of this width
and no angle about x or y is snapped, the comparison passes every output, so it changes no
result. -/
theorem run_comparing_certifies (p : Pass ℝ) (c : Circuit ℝ) :
    (p.settings.compareUnitaries = true → p.settings.tolerance < 1 →
      ∀ r, p.run c = .ok r → r.width = c.width ∧
        ∃ U V, c.unitary = .ok U ∧ r.unitary = .ok V ∧ ∃ phase : ℂ, ‖phase‖ = 1 ∧
          ∀ i < 2 ^ c.width, ∀ j < 2 ^ c.width,
            ‖(V.entry i j).toComplex - phase * (U.entry i j).toComplex‖ ≤ p.settings.tolerance) ∧
    (0 < p.settings.tolerance → p.settings.tolerance < (2 : ℝ) ^ (-(c.width : ℝ) / 2) →
      (∀ i ∈ c.instructions, i.kind = .rx ∨ i.kind = .ry → ¬ InBand i.gate.theta) →
      (p.comparing true).run c = (p.comparing false).run c ∧
      ∀ output, p.replaceAll c = .ok output →
        c.equivalent output p.settings.tolerance = .ok true) := by
  constructor
  · intro hcompare ht r hr
    obtain ⟨hacc, rfl⟩ := run_eq_ok hr
    have hwf : c.WellFormed := fun i hi => (hacc i hi).fits
    have hself : p.comparing true = p := by rw [Pass.comparing, ← hcompare]
    obtain ⟨-, hsame⟩ := run_comparing_true_eq_ok_iff.mp (hself ▸ hr)
    obtain ⟨-, U, V, phase, hU, hV, hphase⟩ := Circuit.equivalent_eq_ok_iff.mp hsame
    obtain ⟨hrows, hcols⟩ := Circuit.shape_of_unitary hU
    obtain ⟨hrows', hcols'⟩ := Circuit.shape_of_unitary hV
    obtain ⟨hunit, hnear⟩ := Operator.sound_of_phase?
      ⟨hrows.trans hrows'.symm, hcols.trans hcols'.symm⟩ ht hphase
    exact ⟨rfl, U, V, hU, hV, _, hunit, fun i hi j hj => hnear i (hrows ▸ hi) j (hcols ▸ hj)⟩
  · intro ht hwidth hband
    have hpasses : ∀ output, p.replaceAll c = .ok output →
        c.equivalent output p.settings.tolerance = .ok true := by
      intro output houtput
      obtain ⟨hacc, rfl⟩ := replaceAll_eq_ok houtput
      exact equivalent_blocks _ (fun i hi => (hacc i hi).fits) (Circuit.snapped_eq_self hband) ht
        hwidth
    refine ⟨?_, hpasses⟩
    rw [run_comparing_true]
    cases hrun : (p.comparing false).run c with
    | error e => rfl
    | ok output =>
      have hreplace : p.replaceAll c = .ok output := replaceAll_of_run (p := p.comparing false) hrun
      simp [bind, Except.bind, hpasses output hreplace, pure, Except.pure]

/-- An interaction in the second quadrant and a rotation that is reduced, compared to within a
quarter on two qubits. -/
theorem run_comparing_certifies_of_reduced : ∃ U V phase,
    (⟨⟨1 / 4, true, true, false⟩, .trappedIon⟩ : Pass ℝ).run
        ⟨[⟨.rxx 2, [1, 0]⟩, ⟨.rx 4, [0]⟩], 2⟩ =
      .ok (Circuit.blocks true ⟨[⟨.rxx 2, [1, 0]⟩, ⟨.rx 4, [0]⟩], 2⟩) ∧
    (⟨[⟨.rxx 2, [1, 0]⟩, ⟨.rx 4, [0]⟩], 2⟩ : Circuit ℝ).unitary = .ok U ∧
    (Circuit.blocks true ⟨[⟨.rxx 2, [1, 0]⟩, ⟨.rx 4, [0]⟩], 2⟩ : Circuit ℝ).unitary = .ok V ∧
    ‖phase‖ = 1 ∧ ∀ i < 4, ∀ j < 4,
      ‖(V.entry i j).toComplex - phase * (U.entry i j).toComplex‖ ≤ 1 / 4 := by
  have hacc : ∀ i ∈ (⟨[⟨.rxx 2, [1, 0]⟩, ⟨.rx 4, [0]⟩], 2⟩ : Circuit ℝ).instructions,
      i.Accepted 2 := by
    have hfits : (⟨[⟨.rxx 2, [1, 0]⟩, ⟨.rx 4, [0]⟩], 2⟩ : Circuit ℝ).WellFormed := by
      simp [Circuit.WellFormed, Instruction.Fits, Instruction.WellFormed, Gate.arity, Gate.kind,
        Kind.arity]
    exact fun i hi => ⟨hfits i hi, fun _ => rfl⟩
  have hband : ¬ InBand 4 := by
    rintro ⟨-, k, hk⟩
    rw [real_tau, real_zeroBand, abs_le] at hk
    have hpi := Real.pi_gt_three
    rcases le_or_gt k 0 with hneg | hpos
    · have hturns : (k : ℝ) ≤ 0 := by exact_mod_cast hneg
      nlinarith
    · have hturns : (1 : ℝ) ≤ k := by exact_mod_cast hpos
      nlinarith
  have hwidth : (1 / 4 : ℝ) < 2 ^ (-((2 : ℕ) : ℝ) / 2) := by
    norm_num [Real.rpow_neg_one]
  obtain ⟨hcertifies, hsilent⟩ := run_comparing_certifies
    (⟨⟨1 / 4, true, true, false⟩, .trappedIon⟩ : Pass ℝ) ⟨[⟨.rxx 2, [1, 0]⟩, ⟨.rx 4, [0]⟩], 2⟩
  obtain ⟨hrun, -⟩ := hsilent (by norm_num) hwidth
    (by simpa [Instruction.kind, Gate.kind, Gate.theta] using hband)
  have hoff : (⟨⟨1 / 4, false, true, false⟩, .trappedIon⟩ : Pass ℝ).run
      ⟨[⟨.rxx 2, [1, 0]⟩, ⟨.rx 4, [0]⟩], 2⟩ =
        .ok (Circuit.blocks true ⟨[⟨.rxx 2, [1, 0]⟩, ⟨.rx 4, [0]⟩], 2⟩) :=
    run_of_admitted hacc (by simp) rfl
  have hon := hrun.trans hoff
  obtain ⟨-, U, V, hU, hV, phase, hphase, hnear⟩ := hcertifies rfl (by norm_num) _ hon
  exact ⟨U, V, phase, hon, hU, hV, hphase, hnear⟩

end IonCircuit
