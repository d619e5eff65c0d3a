import IonCircuit.Proofs.Snap

/-! Folding over the reals. An angle leaves at most a quarter turn beside a number of half turns,
and apart from a quarter turn backward there is one way to write it so. -/
namespace IonCircuit.QuarterTurn
open Scalar (tau halfPi threeHalfPi pi)
open Real (pi_pos)

section Rest
variable {α : Type} [Scalar α]

/-- What is left of an angle that is first brought into a full turn, and whether a half turn was
taken out as well. -/
def restInTurn (θ : α) : Bool × α :=
  let t := Scalar.remainder θ tau
  if t ≤ halfPi then (false, t)
  else if t ≤ threeHalfPi then (true, t - pi)
  else (false, t - tau)

/-- What folding leaves of an angle: a small one stays, any other is brought into a full turn. -/
def rest (θ : α) : Bool × α :=
  if Scalar.abs θ ≤ halfPi then (false, θ) else restInTurn θ

/-- The quarter turn with this rest. -/
def ofRest (r : Bool × α) : QuarterTurn α := ofSigned r.1 r.2

theorem ofFinite_eq_ofRest (θ : α) : ofFinite θ = ofRest (rest θ) := by
  unfold ofFinite rest restInTurn ofRest
  dsimp only
  split
  · rfl
  · split
    · rfl
    · split <;> rfl

end Rest

variable {θ : ℝ} {k n : ℤ} {r s : Bool × ℝ}

/-- The rest is less than a quarter turn backward and at most one forward. Half turns make up the
angle with it, and their number is odd if one was taken out beside whole turns. -/
structure Leaves (θ : ℝ) (r : Bool × ℝ) : Prop where
  gt : -(Real.pi / 2) < r.2
  le : r.2 ≤ Real.pi / 2
  halfTurns : ∃ n : ℤ, θ = r.2 + n * Real.pi ∧ (r.1 = true ↔ Odd n)

theorem Leaves.abs_rest_le (h : Leaves θ r) : |r.2| ≤ Real.pi / 2 := abs_le.mpr ⟨h.gt.le, h.le⟩

theorem Leaves.unique (h : Leaves θ r) (h' : Leaves θ s) : r = s := by
  obtain ⟨n, hn, hodd⟩ := h.halfTurns
  obtain ⟨m, hm, hodd'⟩ := h'.halfTurns
  have hpos := pi_pos
  have hgap : s.2 - r.2 = (n - m) * Real.pi := by linarith
  have hlow : (-1 : ℝ) < n - m := by nlinarith [h.le, h'.gt]
  have hhigh : (n - m : ℝ) < 1 := by nlinarith [h.gt, h'.le]
  have hlow : -1 < n - m := by exact_mod_cast hlow
  have hhigh : n - m < 1 := by exact_mod_cast hhigh
  obtain rfl : n = m := by omega
  refine Prod.ext (Bool.eq_iff_iff.mpr (hodd.trans hodd'.symm)) ?_
  linarith

theorem leaves_self (hgt : -(Real.pi / 2) < θ) (hle : θ ≤ Real.pi / 2) : Leaves θ (false, θ) :=
  ⟨hgt, hle, 0, by simp, by simp⟩

theorem Leaves.add_turns (h : Leaves θ r) (k : ℤ) : Leaves (θ + 2 * Real.pi * k) r := by
  obtain ⟨n, hn, hodd⟩ := h.halfTurns
  refine ⟨h.gt, h.le, n + 2 * k, ?_, ?_⟩
  · rw [hn]
    push_cast
    ring
  · rw [hodd, Int.odd_add]
    simp

/-- Bringing an angle into a full turn leaves such a rest. -/
theorem leaves_restInTurn (θ : ℝ) : Leaves θ (restInTurn θ) := by
  have hpos := pi_pos
  have hlow := Int.sub_floor_div_mul_nonneg θ Real.two_pi_pos
  have hhigh := Int.sub_floor_div_mul_lt θ Real.two_pi_pos
  have hrem : Scalar.remainder θ tau = θ - 2 * Real.pi * ⌊θ / (2 * Real.pi)⌋ := by
    rw [real_tau]
    rfl
  rw [mul_comm] at hlow hhigh
  unfold restInTurn
  simp only [real_halfPi, real_threeHalfPi, real_pi, real_tau] at hrem ⊢
  rw [hrem]
  generalize ⌊θ / (2 * Real.pi)⌋ = q at *
  split
  · rename_i h
    exact ⟨by dsimp only; linarith, h, 2 * q, by push_cast; ring, by simp⟩
  · split
    · rename_i h h'
      refine ⟨by dsimp only; linarith, by dsimp only; linarith, 2 * q + 1, ?_, by simp⟩
      push_cast
      ring
    · rename_i h h'
      refine ⟨by dsimp only; linarith, by dsimp only; linarith, 2 * q + 2, ?_, ?_⟩
      · push_cast
        ring
      · simp [parity_simps]

theorem restInTurn_add_turns (θ : ℝ) (k : ℤ) :
    restInTurn (θ + 2 * Real.pi * k) = restInTurn θ :=
  (leaves_restInTurn _).unique ((leaves_restInTurn θ).add_turns k)

/-- The two ways of folding a small angle differ at a quarter turn backward only. -/
theorem rest_eq_restInTurn (h : θ ≠ -(Real.pi / 2)) : rest θ = restInTurn θ := by
  unfold rest
  rw [real_abs, real_halfPi]
  split
  · rename_i hsmall
    obtain ⟨hlow, hhigh⟩ := abs_le.mp hsmall
    exact (leaves_self (lt_of_le_of_ne hlow h.symm) hhigh).unique (leaves_restInTurn θ)
  · rfl

theorem rest_neg_quarter : rest (-(Real.pi / 2)) = (false, -(Real.pi / 2)) := by
  have hsmall : |(-(Real.pi / 2))| ≤ Real.pi / 2 := by
    rw [abs_neg, abs_of_pos Real.pi_div_two_pos]
  rw [rest, real_abs, real_halfPi, if_pos hsmall]

theorem restInTurn_neg_quarter : restInTurn (-(Real.pi / 2)) = (true, Real.pi / 2) := by
  have hpos := pi_pos
  refine (leaves_restInTurn _).unique ⟨by dsimp only; linarith, le_rfl, -1, ?_, by simp⟩
  push_cast
  ring

theorem abs_rest_le (θ : ℝ) : |(rest θ).2| ≤ Real.pi / 2 := by
  by_cases h : θ = -(Real.pi / 2)
  · rw [h, rest_neg_quarter, abs_neg, abs_of_pos Real.pi_div_two_pos]
  · rw [rest_eq_restInTurn h]
    exact (leaves_restInTurn θ).abs_rest_le

/-- Nothing is cut off a rest. -/
theorem magnitude_ofRest (h : |r.2| ≤ Real.pi / 2) : (ofRest r).magnitude = |r.2| := by
  rw [ofRest, ofSigned, real_abs, real_halfPi, if_pos h]

theorem backward_ofRest : (ofRest r).backward = true ↔ r.2 < 0 := by simp [ofRest, ofSigned]

/-- A half turn is taken out where the cosine is negative, and at three quarters of a turn. -/
theorem Leaves.halfTurn_iff (h : Leaves θ r) : r.1 = true ↔
    Real.cos θ < 0 ∨ ∃ k : ℤ, θ = 3 * Real.pi / 2 + 2 * Real.pi * k := by
  obtain ⟨n, hn, hodd⟩ := h.halfTurns
  have hcos : Real.cos θ = (-1) ^ n * Real.cos r.2 := by rw [hn, Real.cos_add_int_mul_pi]
  have hnonneg := Real.cos_nonneg_of_mem_Icc ⟨h.gt.le, h.le⟩
  constructor
  · intro hhalf
    obtain ⟨j, rfl⟩ := hodd.mp hhalf
    rcases h.le.lt_or_eq with hlt | heq
    · left
      have hpos := Real.cos_pos_of_mem_Ioo ⟨h.gt, hlt⟩
      rw [hcos, Odd.neg_one_zpow ⟨j, rfl⟩]
      linarith
    · right
      refine ⟨j, ?_⟩
      rw [hn, heq]
      push_cast
      ring
  · rintro (hneg | ⟨k, hk⟩)
    · by_contra hhalf
      have heven : Even n := Int.not_odd_iff_even.mp fun hn => hhalf (hodd.mpr hn)
      rw [hcos, heven.neg_one_zpow, one_mul] at hneg
      linarith
    · have hquarter : Leaves θ (true, Real.pi / 2) := by
        refine ⟨by dsimp only; linarith [pi_pos], le_rfl, 2 * k + 1, ?_, by simp⟩
        rw [hk]
        push_cast
        ring
      rw [h.unique hquarter]

theorem halfTurn_ofFinite_iff : (ofFinite θ).halfTurn = true ↔ Real.cos θ < 0 ∨
    (∃ k : ℤ, θ = 3 * Real.pi / 2 + 2 * Real.pi * k) ∧ θ ≠ -(Real.pi / 2) := by
  rw [ofFinite_eq_ofRest]
  by_cases h : θ = -(Real.pi / 2)
  · subst h
    simp [rest_neg_quarter, ofRest, ofSigned, Real.cos_neg]
  · rw [rest_eq_restInTurn h, and_iff_left h]
    exact (leaves_restInTurn θ).halfTurn_iff

/-- A quarter turn backward is folded unlike the angles that are whole turns away from it. -/
theorem ofFinite_ne_of_quarter (h : θ = -(Real.pi / 2))
    (h' : θ + 2 * Real.pi * k ≠ -(Real.pi / 2)) :
    ofFinite (θ + 2 * Real.pi * k) ≠ ofFinite θ := by
  intro heq
  have hhalf : (ofFinite (θ + 2 * Real.pi * k)).halfTurn = true := by
    refine halfTurn_ofFinite_iff.mpr (.inr ⟨⟨k - 1, ?_⟩, h'⟩)
    rw [h]
    push_cast
    ring
  rw [heq, ofFinite_eq_ofRest, h, rest_neg_quarter] at hhalf
  cases hhalf

theorem ofFinite_add_turns_iff (θ : ℝ) (k : ℤ) : ofFinite (θ + 2 * Real.pi * k) = ofFinite θ ↔
    (θ + 2 * Real.pi * k = -(Real.pi / 2) ↔ θ = -(Real.pi / 2)) := by
  have hback : θ + 2 * Real.pi * k + 2 * Real.pi * (-k : ℤ) = θ := by
    push_cast
    ring
  by_cases h : θ = -(Real.pi / 2)
  · by_cases h' : θ + 2 * Real.pi * k = -(Real.pi / 2)
    · exact iff_of_true (by rw [h', h]) (iff_of_true h' h)
    · exact iff_of_false (ofFinite_ne_of_quarter h h') fun hboth => h' (hboth.mpr h)
  · by_cases h' : θ + 2 * Real.pi * k = -(Real.pi / 2)
    · have hne := ofFinite_ne_of_quarter (k := -k) h' (hback.symm ▸ h)
      rw [hback] at hne
      exact iff_of_false hne.symm fun hboth => h (hboth.mp h')
    · refine iff_of_true ?_ (iff_of_false h' h)
      rw [ofFinite_eq_ofRest, ofFinite_eq_ofRest, rest_eq_restInTurn h, rest_eq_restInTurn h',
        restInTurn_add_turns]

theorem ofAngle_eq_ok (θ : ℝ) : ofAngle θ = .ok (ofFinite θ) := rfl

/-- Folding is the canonical reduction of an angle. Its magnitude is at most a quarter turn with
nothing cut off, it is the angle up to whole turns, and where it takes out a half turn is decided by
the cosine alone but for three quarters of a turn. The two ways of folding a small angle agree, and
whole turns change nothing, except at a quarter turn backward. -/
theorem ofAngle_canonical (θ : ℝ) : ∃ turn : QuarterTurn ℝ, ofAngle θ = .ok turn ∧
    0 ≤ turn.magnitude ∧ turn.magnitude ≤ Real.pi / 2 ∧
    turn = ofRest (rest θ) ∧ turn.magnitude = |(rest θ).2| ∧
    (∃ k : ℤ, θ = (if turn.backward then -turn.magnitude else turn.magnitude) +
      (if turn.halfTurn then Real.pi else 0) + 2 * Real.pi * k) ∧
    (turn.halfTurn = true ↔ Real.cos θ < 0 ∨
      (∃ k : ℤ, θ = 3 * Real.pi / 2 + 2 * Real.pi * k) ∧ θ ≠ -(Real.pi / 2)) ∧
    (turn.magnitude = 0 → turn.backward = false) ∧
    (|θ| ≤ Real.pi / 2 → turn = ofRest (false, θ) ∧
      (ofRest (restInTurn θ) = turn ↔ θ ≠ -(Real.pi / 2))) ∧
    ∀ k : ℤ, ofAngle (θ + 2 * Real.pi * k) = ofAngle θ ↔
      (θ + 2 * Real.pi * k = -(Real.pi / 2) ↔ θ = -(Real.pi / 2)) := by
  have hmag : (ofFinite θ).magnitude = |(rest θ).2| := by
    rw [ofFinite_eq_ofRest, magnitude_ofRest (abs_rest_le θ)]
  refine ⟨_, ofAngle_eq_ok θ, ?_, ?_, ofFinite_eq_ofRest θ, hmag, exists_angle_ofFinite θ,
    halfTurn_ofFinite_iff, ?_, ?_, ?_⟩
  · rw [hmag]
    exact abs_nonneg _
  · rw [hmag]
    exact abs_rest_le θ
  · rw [hmag, abs_eq_zero, ofFinite_eq_ofRest, ← Bool.not_eq_true, backward_ofRest]
    exact fun hzero => not_lt.mpr hzero.ge
  · intro hsmall
    have hrest : rest θ = (false, θ) := if_pos (by rwa [real_abs, real_halfPi])
    refine ⟨by rw [ofFinite_eq_ofRest, hrest], ?_⟩
    rw [ofFinite_eq_ofRest]
    constructor
    · rintro hsame rfl
      rw [restInTurn_neg_quarter, rest_neg_quarter] at hsame
      cases congrArg halfTurn hsame
    · intro h
      rw [rest_eq_restInTurn h]
  · intro k
    rw [ofAngle_eq_ok, ofAngle_eq_ok, Except.ok.injEq]
    exact ofFinite_add_turns_iff θ k

end IonCircuit.QuarterTurn
