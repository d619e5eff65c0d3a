import IonCircuit.Proofs.Register

/-! Matrices on some qubits as matrices on the register. -/
namespace IonCircuit.Register
variable {R : Type*} {width : ℕ} {qubits front back : List ℕ} {i j : ℕ}

/-- Acts by `m` on the listed qubits and leaves the others alone. -/
def embed [Zero R] (width : ℕ) (qubits : List ℕ) (m : ℕ → ℕ → R) :
    Matrix (Fin (2 ^ width)) (Fin (2 ^ width)) R :=
  Matrix.of fun i j =>
    if AgreeOff width qubits i j then m (restrict width qubits i) (restrict width qubits j)
    else 0

theorem embed_apply [Zero R] (m : ℕ → ℕ → R) (i j : Fin (2 ^ width)) :
    embed width qubits m i j = if AgreeOff width qubits i j then
      m (restrict width qubits i) (restrict width qubits j) else 0 := rfl

theorem embed_congr [Zero R] {m m' : ℕ → ℕ → R}
    (h : ∀ r < 2 ^ qubits.length, ∀ c < 2 ^ qubits.length, m r c = m' r c) :
    embed width qubits m = embed width qubits m' := by
  ext i j
  rw [embed_apply, embed_apply, h _ restrict_lt _ restrict_lt]

theorem transpose_embed [Zero R] (m : ℕ → ℕ → R) :
    (embed width qubits m).transpose = embed width qubits fun r c => m c r := by
  ext i j
  rw [Matrix.transpose_apply, embed_apply, embed_apply]
  exact if_congr ⟨AgreeOff.symm, AgreeOff.symm⟩ rfl rfl

theorem embed_smul [MonoidWithZero R] (a : R) (m : ℕ → ℕ → R) :
    a • embed width qubits m = embed width qubits fun r c => a * m r c := by
  ext i j
  rw [Matrix.smul_apply, embed_apply, embed_apply, smul_ite, smul_zero, smul_eq_mul]

theorem embed_add [Semiring R] (m m' : ℕ → ℕ → R) :
    embed width qubits m + embed width qubits m' =
      embed width qubits fun r c => m r c + m' r c := by
  ext i j
  rw [Matrix.add_apply, embed_apply, embed_apply, embed_apply]
  split <;> simp

theorem embed_sub [Ring R] (m m' : ℕ → ℕ → R) : embed width qubits m - embed width qubits m' =
    embed width qubits fun r c => m r c - m' r c := by
  ext i j
  rw [Matrix.sub_apply, embed_apply, embed_apply, embed_apply]
  split <;> simp

theorem embed_neg [Ring R] (m : ℕ → ℕ → R) : embed width qubits (-m) = -embed width qubits m := by
  ext i j
  rw [Matrix.neg_apply, embed_apply, embed_apply]
  split <;> simp

theorem embed_one [Semiring R] :
    embed width qubits (fun r c => if r = c then (1 : R) else 0) = 1 := by
  ext i j
  rw [embed_apply, Matrix.one_apply]
  by_cases he : i = j
  · subst he
    simp [AgreeOff]
  · by_cases ha : AgreeOff width qubits i j
    · have hr : restrict width qubits i ≠ restrict width qubits j := fun hr =>
        he (Fin.ext (ha.eq_of_restrict_eq i.isLt j.isLt hr))
      simp [he, hr]
    · simp [he, ha]

section Semiring
variable [Semiring R] (h : Addresses width qubits)
include h

/-- One row of an embedded matrix meets only the group of that row. -/
theorem sum_embed_mul (m : ℕ → ℕ → R) (v : ℕ → R) (i : Fin (2 ^ width)) :
    ∑ j : Fin (2 ^ width), embed width qubits m i j * v j =
      ∑ s ∈ Finset.range (2 ^ qubits.length),
        m (restrict width qubits i) s * v (place width qubits i s) := by
  simp only [embed_apply, ite_mul, zero_mul]
  rw [← Finset.sum_filter, sum_agreeOff h i.isLt
    (fun j => m (restrict width qubits i) (restrict width qubits j) * v j)]
  refine Finset.sum_congr rfl fun s hs => ?_
  rw [restrict_place h (Finset.mem_range.mp hs)]

theorem embed_mul (m m' : ℕ → ℕ → R) :
    embed width qubits m * embed width qubits m' =
      embed width qubits fun r c => ∑ s ∈ Finset.range (2 ^ qubits.length), m r s * m' s c := by
  ext i k
  rw [Matrix.mul_apply]
  have hrow := sum_embed_mul h m (fun j => if AgreeOff width qubits j k then
    m' (restrict width qubits j) (restrict width qubits k) else 0) i
  simp only [embed_apply] at hrow ⊢
  rw [hrow]
  by_cases ha : AgreeOff width qubits i k
  · rw [if_pos ha]
    refine Finset.sum_congr rfl fun s hs => ?_
    rw [if_pos ((agreeOff_place h).symm.trans ha), restrict_place h (Finset.mem_range.mp hs)]
  · rw [if_neg ha]
    refine Finset.sum_eq_zero fun s _ => ?_
    rw [if_neg fun hp => ha ((agreeOff_place h).trans hp), mul_zero]

end Semiring

theorem restrict_append : restrict width (front ++ back) i =
    2 ^ back.length * restrict width front i + restrict width back i := by
  induction front with
  | nil => simp [restrict]
  | cons q front ih =>
    rw [List.cons_append, restrict, restrict, ih, List.length_append, pow_add]
    ring

theorem restrict_append_div : restrict width (front ++ back) i / 2 ^ back.length =
    restrict width front i := by
  rw [restrict_append, Nat.mul_add_div (Nat.two_pow_pos _), Nat.div_eq_of_lt restrict_lt,
    Nat.add_zero]

theorem restrict_append_mod : restrict width (front ++ back) i % 2 ^ back.length =
    restrict width back i := by
  rw [restrict_append, Nat.mul_add_mod, Nat.mod_eq_of_lt restrict_lt]

theorem restrict_eq_iff : restrict width qubits i = restrict width qubits j ↔
    ∀ q ∈ qubits, bit width q i = bit width q j :=
  ⟨fun h _ hq => bit_eq_of_restrict_eq h hq, restrict_congr⟩

theorem agreeOff_iff_append (h : ∀ q ∈ front ++ back, q < width)
    (hd : ∀ q ∈ front, q ∉ back) : AgreeOff width front i j ↔
      AgreeOff width (front ++ back) i j ∧ restrict width back i = restrict width back j := by
  rw [restrict_eq_iff]
  constructor
  · intro ha
    refine ⟨fun q hq hmem => ha q hq fun hf => hmem (List.mem_append_left _ hf), ?_⟩
    exact fun q hq => ha q (h q (List.mem_append_right _ hq)) fun hf => hd q hf hq
  · rintro ⟨ha, hb⟩ q hq hf
    by_cases hback : q ∈ back
    · exact hb q hback
    · exact ha q hq (by simp [hf, hback])

/-- A matrix on the front qubits also acts on more qubits, idle on those behind. -/
theorem embed_append_left [MonoidWithZero R] (h : Addresses width (front ++ back))
    (m : ℕ → ℕ → R) : embed width front m = embed width (front ++ back) fun r c =>
      if r % 2 ^ back.length = c % 2 ^ back.length then
        m (r / 2 ^ back.length) (c / 2 ^ back.length) else 0 := by
  have hd : ∀ q ∈ front, q ∉ back := fun q hf hb =>
    (List.nodup_append.mp h.nodup).2.2 q hf q hb rfl
  ext i j
  rw [embed_apply, embed_apply]
  simp only [restrict_append_div, restrict_append_mod, agreeOff_iff_append h.lt hd, ite_and]

theorem embed_append_right [MonoidWithZero R] (h : Addresses width (front ++ back))
    (m : ℕ → ℕ → R) : embed width back m = embed width (front ++ back) fun r c =>
      if r / 2 ^ back.length = c / 2 ^ back.length then
        m (r % 2 ^ back.length) (c % 2 ^ back.length) else 0 := by
  have hd : ∀ q ∈ back, q ∉ front := fun q hb hf =>
    (List.nodup_append.mp h.nodup).2.2 q hf q hb rfl
  have hlt : ∀ q ∈ back ++ front, q < width := fun q hq =>
    h.lt q (List.mem_append.mpr (List.mem_append.mp hq).symm)
  have hswap : AgreeOff width (back ++ front) = AgreeOff width (front ++ back) := by
    funext i j
    simp only [AgreeOff, List.mem_append, or_comm]
  ext i j
  rw [embed_apply, embed_apply]
  simp only [restrict_append_div, restrict_append_mod, agreeOff_iff_append hlt hd, hswap,
    ite_and]

section Disjoint
variable (h : Addresses width (front ++ back))
include h

/-- Matrices on disjoint qubits act side by side. -/
theorem embed_mul_embed [Semiring R] (m m' : ℕ → ℕ → R) :
    embed width front m * embed width back m' = embed width (front ++ back) fun r c =>
      m (r / 2 ^ back.length) (c / 2 ^ back.length) *
        m' (r % 2 ^ back.length) (c % 2 ^ back.length) := by
  rw [embed_append_left h, embed_append_right h, embed_mul h]
  refine embed_congr fun r hr c hc => ?_
  have hpos : 0 < 2 ^ back.length := Nat.two_pow_pos _
  have hmod : r % 2 ^ back.length < 2 ^ back.length := Nat.mod_lt _ hpos
  rw [Finset.sum_eq_single (2 ^ back.length * (c / 2 ^ back.length) + r % 2 ^ back.length)]
  · simp [Nat.mul_add_div hpos, Nat.div_eq_of_lt hmod]
  · intro s _ hs
    -- Only one state in the middle has the front of the column and the back of the row.
    by_cases hback : r % 2 ^ back.length = s % 2 ^ back.length
    · by_cases hfront : s / 2 ^ back.length = c / 2 ^ back.length
      · rw [hback, ← hfront, Nat.div_add_mod] at hs
        exact (hs rfl).elim
      · rw [if_neg hfront, mul_zero]
    · rw [if_neg hback, zero_mul]
  · intro hmem
    rw [List.length_append, pow_add] at hc hmem
    refine (hmem (Finset.mem_range.mpr ?_)).elim
    have hdiv : c / 2 ^ back.length < 2 ^ front.length :=
      Nat.div_lt_of_lt_mul (by rwa [mul_comm])
    calc 2 ^ back.length * (c / 2 ^ back.length) + r % 2 ^ back.length
        < 2 ^ back.length * (c / 2 ^ back.length + 1) := by
          rw [mul_add, mul_one]
          exact Nat.add_lt_add_left hmod _
      _ ≤ 2 ^ back.length * 2 ^ front.length := Nat.mul_le_mul_left _ hdiv
      _ = 2 ^ front.length * 2 ^ back.length := mul_comm _ _

theorem embed_comm [CommSemiring R] (m m' : ℕ → ℕ → R) :
    embed width back m' * embed width front m = embed width front m * embed width back m' := by
  rw [← Matrix.transpose_transpose (embed width back m' * embed width front m),
    Matrix.transpose_mul, transpose_embed, transpose_embed, embed_mul_embed h, transpose_embed,
    embed_mul_embed h]

end Disjoint

end IonCircuit.Register
