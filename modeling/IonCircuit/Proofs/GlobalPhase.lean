import IonCircuit.Phase
import IonCircuit.Proofs.ComplexAmplitude
import Mathlib.Analysis.Normed.Field.Basic
import Mathlib.Order.Bounds.Basic
import Mathlib.Tactic.IntervalCases

/-! The phase that the comparison reads off the largest entry relates all entries within the
tolerance, and is found whenever some phase relates them closely enough. -/
namespace IonCircuit

/-! A phase read off two numbers that nearly have it as their ratio. -/
section Ratio
variable {x y q r : ℂ} {d : ℝ}

theorem norm_div_norm (hr : r ≠ 0) : ‖r / ‖r‖‖ = 1 := by
  rw [norm_div, Complex.norm_real, norm_norm, div_self (norm_ne_zero_iff.mpr hr)]

theorem norm_div_sub_le (hx : x ≠ 0) (h : ‖y - q * x‖ ≤ d) : ‖y / x - q‖ ≤ d / ‖x‖ := by
  have hsplit : y / x - q = (y - q * x) / x := by field_simp
  rw [hsplit, norm_div]
  exact div_le_div_of_nonneg_right h (norm_nonneg x)

theorem abs_norm_sub_one_le (hq : ‖q‖ = 1) (h : ‖r - q‖ ≤ d) : |‖r‖ - 1| ≤ d :=
  hq ▸ (abs_norm_sub_norm_le r q).trans h

/-- Scaling to unit length moves a number as far again as it was off the unit circle. -/
theorem norm_unit_sub_le (hr : r ≠ 0) (hq : ‖q‖ = 1) (h : ‖r - q‖ ≤ d) :
    ‖r / ‖r‖ - q‖ ≤ 2 * d := by
  have hscale : ‖r / ‖r‖ - r‖ = |‖r‖ - 1| := by
    have hnorm : (‖r‖ : ℂ) ≠ 0 := Complex.ofReal_ne_zero.mpr (norm_ne_zero_iff.mpr hr)
    have hsplit : r / ‖r‖ - r = r / ‖r‖ * ((1 - ‖r‖ : ℝ) : ℂ) := by
      push_cast
      field_simp
    rw [hsplit, norm_mul, norm_div_norm hr, one_mul, Complex.norm_real, Real.norm_eq_abs,
      abs_sub_comm]
  calc ‖r / ‖r‖ - q‖ ≤ ‖r / ‖r‖ - r‖ + ‖r - q‖ := norm_sub_le_norm_sub_add_norm_sub _ _ _
    _ ≤ d + d := add_le_add (hscale ▸ abs_norm_sub_one_le hq h) h
    _ = 2 * d := (two_mul d).symm

end Ratio

namespace Operator
variable {a b : Operator (Amplitude ℝ)} {t : ℝ}

/-- Every entry of `b` is within `d` of `factor` times the entry of `a`. -/
def NearMultiple (a b : Operator (Amplitude ℝ)) (factor : ℂ) (d : ℝ) : Prop :=
  ∀ i < a.rows, ∀ j < a.cols, ‖(b.entry i j).toComplex - factor * (a.entry i j).toComplex‖ ≤ d

/-- The moduli of the entries. -/
def moduli (a : Operator (Amplitude ℝ)) : Set ℝ :=
  {x | ∃ i < a.rows, ∃ j < a.cols, x = ‖(a.entry i j).toComplex‖}

/-- A matrix with entries has a largest modulus. -/
theorem exists_isGreatest_moduli {a : Operator (Amplitude ℝ)} (hrows : 0 < a.rows)
    (hcols : 0 < a.cols) : ∃ M, IsGreatest a.moduli M := by
  have hentries : Nonempty (Fin a.rows × Fin a.cols) := ⟨⟨0, hrows⟩, ⟨0, hcols⟩⟩
  obtain ⟨⟨i, j⟩, hmax⟩ :=
    Finite.exists_max fun p : Fin a.rows × Fin a.cols => ‖(a.entry p.1 p.2).toComplex‖
  refine ⟨_, ⟨i, i.isLt, j, j.isLt, rfl⟩, ?_⟩
  rintro x ⟨i', hi', j', hj', rfl⟩
  exact hmax (⟨i', hi'⟩, ⟨j', hj'⟩)

section Pivot
variable {α : Type} [Scalar α] [Scalar.Lawful α] [Scalar.Ordered α]
  {seen l : List (Amplitude α × ℕ)} {next : Amplitude α × ℕ} {best : Option (Amplitude α × ℕ)}

/-- The larger of what was found and the next entry, which wins a tie. -/
def keepLarger {α : Type} [Scalar α] (best : Option (Amplitude α × ℕ)) (next : Amplitude α × ℕ) :
    Option (Amplitude α × ℕ) :=
  match best with
  | none => some next
  | some b => if b.1.norm ≤ next.1.norm then some next else some b

theorem pivot?_eq_foldl {α : Type} [Scalar α] (entries : List (Amplitude α)) :
    pivot? entries = entries.zipIdx.foldl keepLarger none := rfl

/-- What was found among the entries seen: one that none is larger than. -/
def Unbeaten {α : Type} [Scalar α] (seen : List (Amplitude α × ℕ)) :
    Option (Amplitude α × ℕ) → Prop
  | none => seen = []
  | some p => p ∈ seen ∧ ∀ e ∈ seen, ¬ p.1.norm < e.1.norm

theorem unbeaten_keepLarger (h : Unbeaten seen best) :
    Unbeaten (seen ++ [next]) (keepLarger best next) := by
  cases best with
  | none =>
    obtain rfl : seen = [] := h
    simpa [keepLarger, Unbeaten] using Scalar.Ordered.lt_irrefl next.1.norm
  | some p =>
    obtain ⟨hmem, hmax⟩ := h
    by_cases hle : p.1.norm ≤ next.1.norm
    · simp only [keepLarger, hle, if_true, Unbeaten]
      refine ⟨by simp, fun e he hlt => ?_⟩
      rcases List.mem_append.mp he with he | he
      · exact hmax e he (Scalar.Ordered.lt_of_le_of_lt hle hlt)
      · obtain rfl := List.mem_singleton.mp he
        exact Scalar.Ordered.lt_irrefl _ hlt
    · simp only [keepLarger, hle, if_false, Unbeaten]
      refine ⟨List.mem_append_left _ hmem, fun e he hlt => ?_⟩
      rcases List.mem_append.mp he with he | he
      · exact hmax e he hlt
      · obtain rfl := List.mem_singleton.mp he
        exact hle (Scalar.Lawful.le_of_lt hlt)

theorem unbeaten_foldl (h : Unbeaten seen best) :
    Unbeaten (seen ++ l) (l.foldl keepLarger best) := by
  induction l generalizing seen best with
  | nil => simpa using h
  | cons next l ih => simpa using ih (unbeaten_keepLarger h)

theorem unbeaten_pivot? (entries : List (Amplitude α)) :
    Unbeaten entries.zipIdx (pivot? entries) :=
  unbeaten_foldl (show Unbeaten [] none from rfl)

/-- What was found among the entries seen: one that no other exceeds. -/
def Largest (seen : List (Amplitude ℝ × ℕ)) : Option (Amplitude ℝ × ℕ) → Prop
  | none => seen = []
  | some p => p ∈ seen ∧ ∀ e ∈ seen, e.1.norm ≤ p.1.norm

theorem largest_pivot? (entries : List (Amplitude ℝ)) :
    Largest entries.zipIdx (pivot? entries) := by
  have hunbeaten := unbeaten_pivot? entries
  cases hpivot : pivot? entries with
  | none =>
    rw [hpivot] at hunbeaten
    exact hunbeaten
  | some p =>
    rw [hpivot] at hunbeaten
    obtain ⟨hmem, hmax⟩ := hunbeaten
    exact ⟨hmem, fun e he => not_lt.mp (hmax e he)⟩

/-- No entry before is larger and none behind as large. -/
theorem foldl_keepLarger_of_last {front back : List (Amplitude ℝ × ℕ)} {p : Amplitude ℝ × ℕ}
    (hfront : ∀ e ∈ front, e.1.norm ≤ p.1.norm) (hback : ∀ e ∈ back, e.1.norm < p.1.norm) :
    (front ++ p :: back).foldl keepLarger none = some p := by
  have hfound : keepLarger (front.foldl keepLarger none) p = some p := by
    have hunbeaten := unbeaten_foldl (l := front) (show Unbeaten [] none from rfl)
    cases hbest : front.foldl keepLarger none with
    | none => rfl
    | some b =>
      rw [hbest] at hunbeaten
      exact if_pos (hfront b hunbeaten.1)
  rw [List.foldl_append, List.foldl_cons, hfound]
  clear hfront hfound
  induction back with
  | nil => rfl
  | cons e back ih =>
    rw [List.forall_mem_cons] at hback
    have hkeep : keepLarger (some p) e = some p := if_neg (not_le.mpr hback.1)
    rw [List.foldl_cons, hkeep]
    exact ih hback.2

end Pivot

section Entries
variable {R : Type} [Zero R] {m k : Operator R} {i j : ℕ}

theorem getElem?_data (hi : i < m.rows) (hj : j < m.cols) :
    m.data.toList[i * m.cols + j]? = some (m.entry i j) := by
  have hlt : i * m.cols + j < m.data.size := m.size_data ▸ index_lt hi hj
  simp [entry, Array.getD_eq_getD_getElem?, hlt]

/-- The data of a matrix are its entries. -/
theorem exists_entry_of_getElem? {x : R} {index : ℕ} (h : m.data.toList[index]? = some x) :
    ∃ i < m.rows, ∃ j < m.cols, x = m.entry i j ∧ index = i * m.cols + j := by
  have hlt : index < m.rows * m.cols := by
    obtain ⟨hlt, -⟩ := List.getElem?_eq_some_iff.mp h
    simpa [m.size_data] using hlt
  have hcols : 0 < m.cols := Nat.pos_of_ne_zero fun h0 => by simp [h0] at hlt
  have hrow : index / m.cols < m.rows := Nat.div_lt_of_lt_mul (Nat.mul_comm m.rows m.cols ▸ hlt)
  have hcol : index % m.cols < m.cols := Nat.mod_lt index hcols
  have hsplit : index = index / m.cols * m.cols + index % m.cols :=
    (Nat.div_add_mod' index m.cols).symm
  refine ⟨_, hrow, _, hcol, ?_, hsplit⟩
  rw [hsplit, getElem?_data hrow hcol] at h
  exact (Option.some.inj h).symm

theorem SameShape.entry_eq (h : m.SameShape k) (i j : ℕ) :
    k.data.getD (i * m.cols + j) 0 = k.entry i j := by
  rw [h.2, entry]

end Entries

/-- The pivot is an entry, and no entry is larger. -/
theorem exists_entry_of_pivot? {α : Type} [Scalar α] [Scalar.Lawful α] [Scalar.Ordered α]
    {a : Operator (Amplitude α)} {x : Amplitude α} {k : ℕ}
    (h : pivot? a.data.toList = some (x, k)) :
    (∃ i < a.rows, ∃ j < a.cols, x = a.entry i j ∧ k = i * a.cols + j) ∧
      ∀ i < a.rows, ∀ j < a.cols, ¬ x.norm < (a.entry i j).norm := by
  have hunbeaten := unbeaten_pivot? a.data.toList
  rw [h] at hunbeaten
  obtain ⟨hmem, hmax⟩ := hunbeaten
  refine ⟨exists_entry_of_getElem? (List.mk_mem_zipIdx_iff_getElem?.mp hmem), ?_⟩
  intro i hi j hj
  exact hmax (a.entry i j, i * a.cols + j)
    (List.mk_mem_zipIdx_iff_getElem?.mpr (getElem?_data hi hj))

/-- Of several largest entries the pivot is the last. -/
theorem pivot?_eq_of_last {i j : ℕ} (hi : i < a.rows) (hj : j < a.cols)
    (hmax : ∀ i' < a.rows, ∀ j' < a.cols,
      ‖(a.entry i' j').toComplex‖ ≤ ‖(a.entry i j).toComplex‖)
    (hlast : ∀ i' < a.rows, ∀ j' < a.cols, i * a.cols + j < i' * a.cols + j' →
      ‖(a.entry i' j').toComplex‖ < ‖(a.entry i j).toComplex‖) :
    pivot? a.data.toList = some (a.entry i j, i * a.cols + j) := by
  set l := a.data.toList
  set k := i * a.cols + j
  have hget : l[k]? = some (a.entry i j) := getElem?_data hi hj
  obtain ⟨hk, hentry⟩ := List.getElem?_eq_some_iff.mp hget
  have hsplit : l.zipIdx =
      (l.take k).zipIdx ++ (a.entry i j, k) :: (l.drop (k + 1)).zipIdx (k + 1) := by
    have htake : (l.take k).length = k := List.length_take_of_le hk.le
    conv_lhs => rw [← List.take_append_drop k l, List.drop_eq_getElem_cons hk, hentry]
    rw [List.zipIdx_append, List.zipIdx_cons, htake, Nat.zero_add]
  have hentries : ∀ e ∈ l.zipIdx, ∃ i' < a.rows, ∃ j' < a.cols,
      e.1 = a.entry i' j' ∧ e.2 = i' * a.cols + j' :=
    fun e he => exists_entry_of_getElem? (List.mk_mem_zipIdx_iff_getElem?.mp he)
  rw [pivot?_eq_foldl, hsplit]
  refine foldl_keepLarger_of_last (fun e he => ?_) fun e he => ?_
  · obtain ⟨i', hi', j', hj', hx, -⟩ := hentries e (by simp [hsplit, he])
    simpa only [hx, Amplitude.norm_eq] using hmax i' hi' j' hj'
  · obtain ⟨i', hi', j', hj', hx, hindex⟩ := hentries e (by simp [hsplit, he])
    have hlater : k + 1 ≤ e.2 := List.le_snd_of_mem_zipIdx he
    simpa only [hx, Amplitude.norm_eq] using hlast i' hi' j' hj' (by omega)

/-- The comparison of all entries, entry by entry. -/
theorem isMultiple_eq_true_iff {α : Type} [Scalar α] {a b : Operator (Amplitude α)}
    {phase : Amplitude α} {t : α} (h : a.SameShape b) : a.isMultiple b phase t = true ↔
      ∀ i < a.rows, ∀ j < a.cols, (b.entry i j - phase * a.entry i j).norm ≤ t := by
  have hpair : ∀ i < a.rows, ∀ j < a.cols,
      b.data.toList[i * a.cols + j]? = some (b.entry i j) := by
    intro i hi j hj
    rw [h.2]
    exact getElem?_data (h.1 ▸ hi) (h.2 ▸ hj)
  simp only [isMultiple, List.all_eq_true, decide_eq_true_eq]
  constructor
  · intro hall i hi j hj
    refine hall (a.entry i j, b.entry i j) (List.mem_iff_getElem?.mpr ⟨i * a.cols + j, ?_⟩)
    exact List.getElem?_zip_eq_some.mpr ⟨getElem?_data hi hj, hpair i hi j hj⟩
  · rintro hnear ⟨x, y⟩ hxy
    obtain ⟨index, hindex⟩ := List.mem_iff_getElem?.mp hxy
    obtain ⟨hx, hy⟩ := List.getElem?_zip_eq_some.mp hindex
    obtain ⟨i, hi, j, hj, rfl, rfl⟩ := exists_entry_of_getElem? hx
    rw [hpair i hi j hj] at hy
    obtain rfl := Option.some.inj hy
    exact hnear i hi j hj

theorem isMultiple_iff (h : a.SameShape b) (phase : Amplitude ℝ) :
    a.isMultiple b phase t = true ↔ a.NearMultiple b phase.toComplex t := by
  simp only [isMultiple_eq_true_iff h, Amplitude.norm_eq, map_sub, map_mul, NearMultiple]

/-- The pivot is an entry of largest modulus; a matrix with entries has one. -/
theorem pivot?_eq {M : ℝ} (h : IsGreatest a.moduli M) : ∃ i < a.rows, ∃ j < a.cols,
    pivot? a.data.toList = some (a.entry i j, i * a.cols + j) ∧
      ‖(a.entry i j).toComplex‖ = M := by
  obtain ⟨⟨i', hi', j', hj', rfl⟩, hmax⟩ := h
  have hlargest := largest_pivot? a.data.toList
  have hmem : (a.entry i' j', i' * a.cols + j') ∈ a.data.toList.zipIdx :=
    List.mk_mem_zipIdx_iff_getElem?.mpr (getElem?_data hi' hj')
  cases hpivot : pivot? a.data.toList with
  | none =>
    rw [hpivot] at hlargest
    exact (List.ne_nil_of_mem hmem hlargest).elim
  | some p =>
    rw [hpivot] at hlargest
    obtain ⟨hp, hall⟩ := hlargest
    obtain ⟨x, index⟩ := p
    obtain ⟨i, hi, j, hj, rfl, rfl⟩ :=
      exists_entry_of_getElem? (List.mk_mem_zipIdx_iff_getElem?.mp hp)
    refine ⟨i, hi, j, hj, rfl, le_antisymm (hmax ⟨i, hi, j, hj, rfl⟩) ?_⟩
    simpa only [Amplitude.norm_eq] using hall _ hmem

/-- A phase is found when the pivot stands out and the entry of `b` there is about as large,
if the phase of their ratio then relates all entries. -/
theorem phase?_eq_some_iff_pivot {α : Type} [Scalar α] {a b : Operator (Amplitude α)} {t : α}
    (h : a.SameShape b) {p : Amplitude α} : a.phase? b t = some p ↔
      ∃ x k r, pivot? a.data.toList = some (x, k) ∧ r = b.data.getD k 0 / x ∧ ¬ x.norm ≤ t ∧
        ¬ t < Scalar.abs (r.norm - 1) ∧ p = r.unscale r.norm ∧ a.isMultiple b p t = true := by
  unfold phase?
  rw [if_pos h]
  cases hpivot : pivot? a.data.toList with
  | none => simp
  | some found =>
    obtain ⟨x, k⟩ := found
    dsimp only
    rw [Option.ite_none_left_eq_some, Option.ite_none_right_eq_some, not_or, Option.some.injEq]
    constructor
    · rintro ⟨⟨hx, hr⟩, hall, rfl⟩
      exact ⟨x, k, _, rfl, rfl, hx, hr, rfl, hall⟩
    · rintro ⟨x', k', r, hfound, rfl, hx, hr, rfl, hall⟩
      obtain ⟨rfl, rfl⟩ := Prod.mk.inj (Option.some.inj hfound)
      exact ⟨⟨hx, hr⟩, hall, rfl⟩

theorem phase?_eq_some_iff (h : a.SameShape b) {p : Amplitude ℝ} : a.phase? b t = some p ↔
    ∃ x k r, pivot? a.data.toList = some (x, k) ∧
      r = (b.data.getD k 0).toComplex / x.toComplex ∧ t < ‖x.toComplex‖ ∧ |‖r‖ - 1| ≤ t ∧
      p.toComplex = r / ‖r‖ ∧ a.NearMultiple b p.toComplex t := by
  rw [phase?_eq_some_iff_pivot h]
  constructor
  · rintro ⟨x, k, r, hpivot, rfl, hx, hr, rfl, hall⟩
    rw [not_le, Amplitude.norm_eq] at hx
    rw [not_lt, Amplitude.norm_eq, Amplitude.toComplex_div, real_abs] at hr
    refine ⟨x, k, _, hpivot, rfl, hx, hr, ?_, (isMultiple_iff h _).mp hall⟩
    rw [Amplitude.toComplex_unscale, Amplitude.norm_eq, Amplitude.toComplex_div]
  · rintro ⟨x, k, r, hpivot, rfl, hx, hr, hp, hnear⟩
    refine ⟨x, k, _, hpivot, rfl, ?_, ?_, ?_, (isMultiple_iff h p).mpr hnear⟩
    · rwa [not_le, Amplitude.norm_eq]
    · rwa [not_lt, Amplitude.norm_eq, Amplitude.toComplex_div, real_abs]
    · apply Amplitude.toComplex.injective
      rw [hp, Amplitude.toComplex_unscale, Amplitude.norm_eq, Amplitude.toComplex_div]

/-- Whatever phase is found has length one and relates all entries within the tolerance. -/
theorem sound_of_phase? (h : a.SameShape b) (ht : t < 1) {p : Amplitude ℝ}
    (hp : a.phase? b t = some p) : ‖p.toComplex‖ = 1 ∧ a.NearMultiple b p.toComplex t := by
  obtain ⟨x, k, r, -, -, -, hr, hunit, hnear⟩ := (phase?_eq_some_iff h).mp hp
  have hpos : 0 < ‖r‖ := by linarith [(abs_le.mp hr).1]
  exact ⟨hunit ▸ norm_div_norm (norm_pos_iff.mp hpos), hnear⟩

section Complete
variable {M d : ℝ} {q : ℂ}

/-- The phase read off the pivot is at most three times as far off as any phase. -/
theorem NearMultiple.unit (hnear : a.NearMultiple b q d) (hM : ∀ x ∈ a.moduli, x ≤ M)
    (hpos : 0 < M) {p : ℂ} (hp : ‖p - q‖ ≤ 2 * d / M) : a.NearMultiple b p (3 * d) := by
  intro i hi j hj
  have hentry : ‖(a.entry i j).toComplex‖ ≤ M := hM _ ⟨i, hi, j, hj, rfl⟩
  have hfactor : ‖(p - q) * (a.entry i j).toComplex‖ ≤ 2 * d := by
    rw [norm_mul]
    calc ‖p - q‖ * ‖(a.entry i j).toComplex‖ ≤ 2 * d / M * M :=
          mul_le_mul hp hentry (norm_nonneg _) ((norm_nonneg _).trans hp)
      _ = 2 * d := div_mul_cancel₀ _ hpos.ne'
  have hsplit : (b.entry i j).toComplex - p * (a.entry i j).toComplex =
      (b.entry i j).toComplex - q * (a.entry i j).toComplex -
        (p - q) * (a.entry i j).toComplex := by ring
  calc ‖(b.entry i j).toComplex - p * (a.entry i j).toComplex‖
      ≤ ‖(b.entry i j).toComplex - q * (a.entry i j).toComplex‖ +
        ‖(p - q) * (a.entry i j).toComplex‖ := hsplit ▸ norm_sub_le _ _
    _ ≤ d + 2 * d := add_le_add (hnear i hi j hj) hfactor
    _ = 3 * d := by ring

/-- A phase that relates all entries closely enough for the tolerance is found, nearly. -/
theorem exists_phase? (h : a.SameShape b) (ht : 0 ≤ t) (ht1 : t < 1)
    (hM : IsGreatest a.moduli M) (htM : t < M) (hq : ‖q‖ = 1) (hnear : a.NearMultiple b q d)
    (hd : max (3 * d) (d / M) ≤ t) :
    ∃ p, a.phase? b t = some p ∧ ‖p.toComplex - q‖ ≤ 2 * d / M := by
  obtain ⟨hd3, hdM⟩ := max_le_iff.mp hd
  obtain ⟨i, hi, j, hj, hpivot, hmodulus⟩ := pivot?_eq hM
  have hpos : 0 < M := ht.trans_lt htM
  have hx : (a.entry i j).toComplex ≠ 0 := norm_pos_iff.mp (hmodulus ▸ hpos)
  set r := (b.entry i j).toComplex / (a.entry i j).toComplex with hr
  have hratio : ‖r - q‖ ≤ d / M := hmodulus ▸ norm_div_sub_le hx (hnear i hi j hj)
  have hone : |‖r‖ - 1| ≤ d / M := abs_norm_sub_one_le hq hratio
  have hr0 : r ≠ 0 := by
    rw [← norm_pos_iff]
    linarith [(abs_le.mp hone).1]
  have hp : ‖r / ‖r‖ - q‖ ≤ 2 * d / M := mul_div_assoc 2 d M ▸ norm_unit_sub_le hr0 hq hratio
  have hall : a.NearMultiple b (r / ‖r‖) t := fun i hi j hj =>
    (hnear.unit hM.2 hpos hp i hi j hj).trans hd3
  refine ⟨Amplitude.toComplex.symm (r / ‖r‖), (phase?_eq_some_iff h).mpr ?_, ?_⟩
  · rw [RingEquiv.apply_symm_apply]
    refine ⟨_, _, r, hpivot, ?_, hmodulus ▸ htM, hone.trans hdM, rfl, hall⟩
    rw [h.entry_eq]
  · rwa [RingEquiv.apply_symm_apply]

/-- Against an exact multiple the comparison fails only if the tolerance is negative or reaches
the largest entry. -/
theorem isSome_phase?_of_multiple (h : a.SameShape b) (hM : IsGreatest a.moduli M) (hpos : 0 < M)
    (hq : ‖q‖ = 1) (heq : ∀ i < a.rows, ∀ j < a.cols,
      (b.entry i j).toComplex = q * (a.entry i j).toComplex) (t : ℝ) :
    (a.phase? b t).isSome = decide (0 ≤ t ∧ t < M) := by
  obtain ⟨i, hi, j, hj, hpivot, hmodulus⟩ := pivot?_eq hM
  rw [Bool.eq_iff_iff, decide_eq_true_iff, Option.isSome_iff_exists]
  constructor
  · rintro ⟨p, hp⟩
    obtain ⟨x, k, r, hfound, -, hlarge, -, -, hnear⟩ := (phase?_eq_some_iff h).mp hp
    obtain ⟨rfl, rfl⟩ := Prod.mk.inj (Option.some.inj (hpivot.symm.trans hfound))
    exact ⟨(norm_nonneg _).trans (hnear i hi j hj), hmodulus ▸ hlarge⟩
  · rintro ⟨ht, hlarge⟩
    have hx : (a.entry i j).toComplex ≠ 0 := norm_pos_iff.mp (hmodulus ▸ hpos)
    refine ⟨Amplitude.toComplex.symm q, (phase?_eq_some_iff h).mpr
      ⟨_, _, q, hpivot, ?_, hmodulus ▸ hlarge, by simpa [hq] using ht, by simp [hq], ?_⟩⟩
    · rw [h.entry_eq, heq i hi j hj, mul_div_cancel_right₀ q hx]
    · intro i hi j hj
      simpa [heq i hi j hj] using ht

end Complete

/-- Matrices of different shapes have no phase. What is found for one shape is sound when the
tolerance is below one. If the largest entry exceeds the tolerance, a phase that relates the
entries closely enough is found up to twice its relative error, and an exact one exactly. -/
theorem phase?_sound_and_complete :
    (¬ a.SameShape b → a.phase? b t = none) ∧
    (a.SameShape b → 0 ≤ t → t < 1 →
      (∀ p, a.phase? b t = some p → ‖p.toComplex‖ = 1 ∧ a.NearMultiple b p.toComplex t) ∧
      ∀ M, IsGreatest a.moduli M → t < M → ∀ q : ℂ, ‖q‖ = 1 →
        (∀ d, 0 ≤ d → a.NearMultiple b q d → max (3 * d) (d / M) ≤ t →
          ∃ p, a.phase? b t = some p ∧ ‖p.toComplex - q‖ ≤ 2 * d / M) ∧
        ((∀ i < a.rows, ∀ j < a.cols,
          (b.entry i j).toComplex = q * (a.entry i j).toComplex) →
            a.phase? b t = some (Amplitude.toComplex.symm q))) := by
  refine ⟨fun h => if_neg h, fun h ht ht1 => ⟨fun p hp => sound_of_phase? h ht1 hp, ?_⟩⟩
  intro M hM htM q hq
  refine ⟨fun d _ hnear hd => exists_phase? h ht ht1 hM htM hq hnear hd, fun heq => ?_⟩
  have hexact : a.NearMultiple b q 0 := fun i hi j hj => by simp [heq i hi j hj]
  obtain ⟨p, hp, hpq⟩ := exists_phase? h ht ht1 hM htM hq hexact (by simpa using ht)
  have hsame : p.toComplex = q := by simpa [sub_eq_zero] using hpq
  rw [hp, ← hsame, RingEquiv.symm_apply_apply]

/-- Against the identity, a turn by `i` with one entry an eighth off is found within a quarter. -/
theorem phase?_sound_and_complete_of_quarter : ∃ p,
    (Operator.ofPairs 1 0 0 1).phase? (.ofPairs ⟨0, 1⟩ 0 0 ⟨1 / 8, 1⟩) (1 / 2 : ℝ) = some p ∧
      ‖p.toComplex‖ = 1 ∧ ‖p.toComplex - Complex.I‖ ≤ 2 * (1 / 8) / 1 := by
  have hM : IsGreatest (ofPairs (1 : Amplitude ℝ) 0 0 1).moduli 1 := by
    refine ⟨⟨0, two_pos, 0, two_pos, by simp [entry, ofPairs]⟩, ?_⟩
    rintro x ⟨i, hi, j, hj, rfl⟩
    simp only [ofPairs] at hi hj
    interval_cases i <;> interval_cases j <;> simp [entry, ofPairs]
  have hnear : (ofPairs (1 : Amplitude ℝ) 0 0 1).NearMultiple (.ofPairs ⟨0, 1⟩ 0 0 ⟨1 / 8, 1⟩)
      Complex.I (1 / 8) := by
    intro i hi j hj
    simp only [ofPairs] at hi hj
    interval_cases i <;> interval_cases j <;> simp [entry, ofPairs, Amplitude.toComplex_mk]
  have hphase := phase?_sound_and_complete (a := .ofPairs 1 0 0 1)
    (b := .ofPairs ⟨0, 1⟩ 0 0 ⟨1 / 8, 1⟩) (t := 1 / 2)
  obtain ⟨hsound, hcomplete⟩ := hphase.2 ⟨rfl, rfl⟩ (by norm_num) (by norm_num)
  obtain ⟨p, hp, hpq⟩ := (hcomplete 1 hM (by norm_num) Complex.I Complex.norm_I).1 (1 / 8)
    (by norm_num) hnear (by norm_num)
  exact ⟨p, hp, (hsound p hp).1, hpq⟩

end Operator

section Equivalent
variable {α : Type} [Scalar α] [Trig α] {left right : Circuit α}

/-- Two circuits of one width are equivalent when a phase between their unitaries is found. -/
theorem Circuit.equivalent_of_unitary {U V : Operator (Amplitude α)}
    (hw : left.width = right.width) (hU : left.unitary = .ok U) (hV : right.unitary = .ok V)
    (tolerance : α) : left.equivalent right tolerance = .ok (U.phase? V tolerance).isSome := by
  simp [Circuit.equivalent, Circuit.phase?, hw, hU, hV, bind, Except.bind, pure, Except.pure]

theorem Circuit.equivalent_eq_ok_iff {tolerance : α} :
    left.equivalent right tolerance = .ok true ↔ left.width = right.width ∧
      ∃ U V p, left.unitary = .ok U ∧ right.unitary = .ok V ∧ U.phase? V tolerance = some p := by
  constructor
  · intro h
    unfold Circuit.equivalent Circuit.phase? at h
    by_cases hw : left.width = right.width
    · cases hU : left.unitary with
      | error e => simp [hw, hU, bind, Except.bind] at h
      | ok U => cases hV : right.unitary with
        | error e => simp [hw, hU, hV, bind, Except.bind] at h
        | ok V =>
          have hsome : (U.phase? V tolerance).isSome = true := by
            simpa [hw, hU, hV, bind, Except.bind, pure, Except.pure] using h
          obtain ⟨p, hp⟩ := Option.isSome_iff_exists.mp hsome
          exact ⟨hw, U, V, p, rfl, rfl, hp⟩
    · simp [hw, bind, Except.bind, throw, throwThe, MonadExceptOf.throw] at h
  · rintro ⟨hw, U, V, p, hU, hV, hp⟩
    rw [Circuit.equivalent_of_unitary hw hU hV, hp, Option.isSome_some]

end Equivalent

end IonCircuit
