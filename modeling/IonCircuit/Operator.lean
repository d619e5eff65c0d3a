/-! Dense matrices in row-major order, over any entries. -/
namespace IonCircuit

structure Operator (R : Type) where
  rows : Nat
  cols : Nat
  data : Array R
  size_data : data.size = rows * cols

namespace Operator
variable {R : Type}

/-- The entry at row `i` and column `j`, zero outside the data. -/
def entry [Zero R] (m : Operator R) (i j : Nat) : R := m.data.getD (i * m.cols + j) 0

/-- The matrix whose entries a function gives. -/
def ofFn (rows cols : Nat) (f : Nat → Nat → R) : Operator R where
  rows
  cols
  data := Array.ofFn fun k : Fin (rows * cols) => f (k / cols) (k % cols)
  size_data := Array.size_ofFn

/-- The matrix with these rows as its two rows. -/
def ofPairs (a b c d : R) : Operator R := ⟨2, 2, #[a, b, c, d], rfl⟩

/-- The square matrix whose columns are listed, each in row order. -/
def ofColumns [Zero R] (size : Nat) (columns : Array (Array R)) : Operator R :=
  ofFn size size fun i j => (columns.getD j #[]).getD i 0

/-- Whether two matrices have the same numbers of rows and columns. -/
def SameShape (m k : Operator R) : Prop := m.rows = k.rows ∧ m.cols = k.cols

instance (m k : Operator R) : Decidable (m.SameShape k) :=
  inferInstanceAs (Decidable (_ ∧ _))

def toRows (m : Operator R) : List (List R) :=
  (List.range m.rows).map fun i => (m.data.extract (i * m.cols) (i * m.cols + m.cols)).toList

theorem index_lt {rows cols i j : Nat} (hi : i < rows) (hj : j < cols) :
    i * cols + j < rows * cols :=
  calc i * cols + j < i * cols + cols := Nat.add_lt_add_left hj _
    _ = (i + 1) * cols := (Nat.succ_mul i cols).symm
    _ ≤ rows * cols := Nat.mul_le_mul_right cols hi

@[simp] theorem entry_ofFn [Zero R] {rows cols i j : Nat} (f : Nat → Nat → R)
    (hi : i < rows) (hj : j < cols) : (ofFn rows cols f).entry i j = f i j := by
  have hlt := index_lt hi hj
  have hpos : 0 < cols := Nat.zero_lt_of_lt hj
  have hdiv : (i * cols + j) / cols = i := by
    rw [Nat.mul_comm, Nat.mul_add_div hpos, Nat.div_eq_of_lt hj, Nat.add_zero]
  have hmod : (i * cols + j) % cols = j := by
    rw [Nat.mul_comm, Nat.mul_add_mod, Nat.mod_eq_of_lt hj]
  simp [entry, ofFn, hlt, hdiv, hmod]

/-- A matrix is its shape and its entries. -/
theorem eq_of_entry_eq [Zero R] {m k : Operator R} (hrows : m.rows = k.rows)
    (hcols : m.cols = k.cols) (h : ∀ i < m.rows, ∀ j < m.cols, m.entry i j = k.entry i j) :
    m = k := by
  obtain ⟨rows, cols, data, hdata⟩ := m
  obtain ⟨_, _, data', hdata'⟩ := k
  obtain rfl : rows = _ := hrows
  obtain rfl : cols = _ := hcols
  have hsame : data = data' := by
    refine Array.ext (hdata.trans hdata'.symm) fun k hk hk' => ?_
    have hpos : 0 < cols := Nat.pos_of_ne_zero fun h0 => by simp [hdata, h0] at hk
    have hrow : k / cols < rows := Nat.div_lt_of_lt_mul (by rw [Nat.mul_comm]; omega)
    have hentry := h _ hrow _ (Nat.mod_lt k hpos)
    simpa [entry, Nat.div_add_mod', hk, hk'] using hentry
  subst hsame
  rfl

end Operator
end IonCircuit
