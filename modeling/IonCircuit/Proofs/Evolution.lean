import IonCircuit.Evolution
import IonCircuit.Proofs.Embedding

/-! The in-place evolution of a state is multiplication by the embedded matrices. -/
namespace IonCircuit.Action
open Register (Addresses embed restrict place masks bases group)
variable {R : Type} [Semiring R] {width j k row n : ℕ} {qubits l : List ℕ} {state : Array R}
  {matrix : Operator R} {action : Action R}

/-- The action on the whole register. -/
def embedded (width : ℕ) (action : Action R) : Matrix (Fin (2 ^ width)) (Fin (2 ^ width)) R :=
  embed width action.qubits action.matrix.entry

/-- The amplitudes of the first basis states as a vector. -/
def amplitudes (width : ℕ) (state : Array R) : Fin (2 ^ width) → R := fun j => state.getD j 0

theorem foldl_zipIdx_add (f : R → ℕ → R) (l : List R) (start : ℕ) (acc : R) :
    (l.zipIdx start).foldl (fun sum p => sum + f p.1 p.2) acc =
      acc + ∑ s ∈ Finset.range l.length, f (l.getD s 0) (start + s) := by
  induction l generalizing start acc with
  | nil => simp
  | cons x l ih =>
    rw [List.zipIdx_cons, List.foldl_cons, ih, List.length_cons, Finset.sum_range_succ',
      add_assoc]
    congr 1
    rw [add_comm]
    congr 1
    refine Finset.sum_congr rfl fun s _ => ?_
    rw [List.getD_cons_succ, show start + 1 + s = start + (s + 1) by omega]

theorem rowTimes_eq_sum (row : ℕ) (old : List R) : rowTimes matrix row old =
    ∑ s ∈ Finset.range old.length, matrix.entry row s * old.getD s 0 := by
  have hfold := foldl_zipIdx_add (fun x s => matrix.entry row s * x) old 0 0
  simp only [zero_add] at hfold
  exact hfold

/-- Writes the values that `f` gives for the positions of a list. -/
def scatter (f : ℕ → R) (l : List (ℕ × ℕ)) (state : Array R) : Array R :=
  l.foldl (fun s (k, row) => s.setIfInBounds k (f row)) state

omit [Semiring R] in
@[simp] theorem size_scatter (f : ℕ → R) (l : List (ℕ × ℕ)) (state : Array R) :
    (scatter f l state).size = state.size := by
  induction l generalizing state with
  | nil => rfl
  | cons p l ih => exact (ih _).trans Array.size_setIfInBounds

theorem getD_setIfInBounds_of_ne {x : R} (h : k ≠ j) :
    (state.setIfInBounds k x).getD j 0 = state.getD j 0 := by
  simp [Array.getD_eq_getD_getElem?, Array.getElem?_setIfInBounds_ne h]

theorem getD_scatter_of_notMem (f : ℕ → R) (h : j ∉ l) :
    (scatter f (l.zipIdx n) state).getD j 0 = state.getD j 0 := by
  induction l generalizing n state with
  | nil => rfl
  | cons k l ih =>
    rw [List.mem_cons, not_or] at h
    exact (ih h.2).trans (getD_setIfInBounds_of_ne (Ne.symm h.1))

theorem getD_scatter (f : ℕ → R) (hl : l.Nodup) (hrow : l[row]? = some j)
    (hj : j < state.size) : (scatter f (l.zipIdx n) state).getD j 0 = f (n + row) := by
  induction l generalizing n row state with
  | nil => simp at hrow
  | cons k l ih =>
    rw [List.nodup_cons] at hl
    cases row with
    | zero =>
      obtain rfl : k = j := by simpa using hrow
      refine (getD_scatter_of_notMem f hl.1).trans ?_
      simp [Array.getD_eq_getD_getElem?, hj]
    | succ row =>
      rw [List.getElem?_cons_succ] at hrow
      refine (ih (n := n + 1) hl.2 hrow (by simpa using hj)).trans ?_
      rw [show n + 1 + row = n + (row + 1) by omega]

theorem updateGroup_eq_scatter (masks : List ℕ) (base : ℕ) :
    updateGroup matrix masks state base =
      scatter (fun row => rowTimes matrix row ((group masks base).map fun k => state.getD k 0))
        (group masks base).zipIdx state := rfl

@[simp] theorem size_updateGroup (masks : List ℕ) (base : ℕ) :
    (updateGroup matrix masks state base).size = state.size := by
  rw [updateGroup_eq_scatter, size_scatter]

@[simp] theorem size_foldl_updateGroup (masks bases : List ℕ) :
    (bases.foldl (updateGroup matrix masks) state).size = state.size := by
  induction bases generalizing state with
  | nil => rfl
  | cons b bases ih => exact ih.trans (size_updateGroup masks b)

@[simp] theorem size_apply : (action.apply width state).size = state.size :=
  size_foldl_updateGroup _ _

theorem getD_updateGroup_of_notMem {masks : List ℕ} {base : ℕ} (h : j ∉ group masks base) :
    (updateGroup matrix masks state base).getD j 0 = state.getD j 0 := by
  rw [updateGroup_eq_scatter, getD_scatter_of_notMem _ h]

/-- Groups that were updated elsewhere leave an amplitude as it was. -/
theorem getD_foldl_updateGroup_of_notMem {masks bases : List ℕ}
    (h : ∀ b ∈ bases, j ∉ group masks b) :
    (bases.foldl (updateGroup matrix masks) state).getD j 0 = state.getD j 0 := by
  induction bases generalizing state with
  | nil => rfl
  | cons b bases ih =>
    rw [List.foldl_cons, ih fun b hb => h b (List.mem_cons_of_mem _ hb)]
    exact getD_updateGroup_of_notMem (h b List.mem_cons_self)

section Addressed
variable (h : Addresses width qubits)
include h

/-- Within its group, a state takes the row of its own bits times the old amplitudes. -/
theorem getD_updateGroup (hs : state.size = 2 ^ width) (hj : j < 2 ^ width) :
    (updateGroup matrix (masks width qubits) state (Register.base width qubits j)).getD j 0 =
      ∑ s ∈ Finset.range (2 ^ qubits.length),
        matrix.entry (restrict width qubits j) s * state.getD (place width qubits j s) 0 := by
  have hbase := Register.base_mem_bases h hj
  have hlen : (masks width qubits).length = qubits.length := List.length_map ..
  have hrow : (group (masks width qubits) (Register.base width qubits j))[
      restrict width qubits j]? = some j := by
    rw [group, List.getElem?_map, hlen, List.getElem?_range Register.restrict_lt]
    exact congrArg some (Register.place_restrict h (fun _ _ _ => rfl) hj hj)
  rw [updateGroup_eq_scatter, getD_scatter _ (Register.group_nodup h hbase) hrow (by omega),
    zero_add, rowTimes_eq_sum, List.length_map, Register.length_group, hlen]
  refine Finset.sum_congr rfl fun s hs => ?_
  have hget : (group (masks width qubits) (Register.base width qubits j))[s]? =
      some (place width qubits j s) := by
    rw [group, List.getElem?_map, hlen, List.getElem?_range (Finset.mem_range.mp hs)]
    rfl
  rw [List.getD_eq_getElem?_getD, List.getElem?_map, hget]
  rfl

theorem notMem_group_of_split {pre post : List ℕ} {b : ℕ}
    (hsplit : bases width (masks width qubits) = pre ++ b :: post)
    (hj : j ∈ group (masks width qubits) b) :
    ∀ c ∈ pre ++ post, j ∉ group (masks width qubits) c := by
  have hb : b ∈ bases width (masks width qubits) := by simp [hsplit]
  have hnodup : (bases width (masks width qubits)).Nodup := List.nodup_range.filter _
  rw [hsplit, List.nodup_middle, List.nodup_cons] at hnodup
  intro c hc hjc
  have hcb : c ∈ bases width (masks width qubits) := by
    rcases List.mem_append.mp hc with hc | hc <;> simp [hsplit, hc]
  have he : c = b :=
    ((Register.mem_group h hcb).mp hjc).2.symm.trans ((Register.mem_group h hb).mp hj).2
  exact hnodup.1 (he ▸ hc)

/-- When the sweep comes to a group, its amplitudes are still the old ones. -/
theorem getD_unread {pre post : List ℕ} {b : ℕ}
    (hsplit : bases width (masks width qubits) = pre ++ b :: post)
    (hj : j ∈ group (masks width qubits) b) :
    (pre.foldl (updateGroup matrix (masks width qubits)) state).getD j 0 = state.getD j 0 :=
  getD_foldl_updateGroup_of_notMem fun c hc =>
    notMem_group_of_split h hsplit hj c (List.mem_append_left _ hc)

theorem getD_sweep (hs : state.size = 2 ^ width) (hj : j < 2 ^ width) :
    ((bases width (masks width qubits)).foldl (updateGroup matrix (masks width qubits))
      state).getD j 0 = ∑ s ∈ Finset.range (2 ^ qubits.length),
        matrix.entry (restrict width qubits j) s * state.getD (place width qubits j s) 0 := by
  have hbase := Register.base_mem_bases h hj
  have hmem : ∀ {i}, i < 2 ^ width → Register.base width qubits i = Register.base width qubits j →
      i ∈ group (masks width qubits) (Register.base width qubits j) :=
    fun hi he => (Register.mem_group h hbase).mpr ⟨hi, he⟩
  obtain ⟨pre, post, hsplit⟩ := List.append_of_mem hbase
  have hpost : ∀ c ∈ post, j ∉ group (masks width qubits) c := fun c hc =>
    notMem_group_of_split h hsplit (hmem hj rfl) c (List.mem_append_right _ hc)
  rw [hsplit, List.foldl_append, List.foldl_cons, getD_foldl_updateGroup_of_notMem hpost,
    getD_updateGroup h (by simpa using hs) hj]
  refine Finset.sum_congr rfl fun s _ => ?_
  have hplace := Register.place_lt (s := s) h hj
  rw [getD_unread h hsplit (hmem hplace ?_)]
  exact (Register.base_eq_base_iff h.lt hplace hj).mpr (Register.agreeOff_place h).symm

end Addressed

/-- One action multiplies the vector of amplitudes by its embedded matrix. -/
theorem amplitudes_apply (h : Addresses width action.qubits) (hs : state.size = 2 ^ width) :
    amplitudes width (action.apply width state) =
      (action.embedded width).mulVec (amplitudes width state) := by
  funext i
  refine (getD_sweep h hs i.isLt).trans ?_
  exact (Register.sum_embed_mul h action.matrix.entry (fun j => state.getD j 0) i).symm

theorem amplitudes_foldl {actions : List (Action R)}
    (h : ∀ a ∈ actions, Addresses width a.qubits) (hs : state.size = 2 ^ width) :
    amplitudes width (actions.foldl (fun state a => a.apply width state) state) =
      (actions.map (embedded width)).reverse.prod.mulVec (amplitudes width state) := by
  induction actions generalizing state with
  | nil => simp
  | cons a actions ih =>
    rw [List.foldl_cons, ih (fun b hb => h b (List.mem_cons_of_mem _ hb)) (by simpa using hs),
      amplitudes_apply (h a List.mem_cons_self) hs, Matrix.mulVec_mulVec]
    simp

theorem amplitudes_basisState (k : Fin (2 ^ width)) :
    amplitudes width (basisState width k : Array R) = Pi.single k 1 := by
  funext j
  simp [amplitudes, basisState, Array.getD_eq_getD_getElem?, Pi.single_apply, Fin.ext_iff]

/-- The evolved columns form the product of the embedded matrices, the last on the left. -/
theorem entry_evolve {actions : List (Action R)} (h : ∀ a ∈ actions, Addresses width a.qubits)
    (i k : Fin (2 ^ width)) : (evolve width actions).entry i k =
      (actions.map (embedded width)).reverse.prod i k := by
  have hsize : (basisState width k : Array R).size = 2 ^ width := by simp [basisState]
  have hcol := amplitudes_foldl h hsize
  rw [amplitudes_basisState, Matrix.mulVec_single_one] at hcol
  refine Eq.trans ?_ (congrFun hcol i)
  rw [evolve, Operator.ofColumns, Operator.entry_ofFn _ i.isLt k.isLt]
  simp [amplitudes, Array.getD_eq_getD_getElem?]

end IonCircuit.Action
