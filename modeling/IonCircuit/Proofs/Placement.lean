import IonCircuit.Proofs.SelfCheck

/-! What a run makes of a circuit that fits its register depends on the gates alone. The qubits are
carried along, and only the comparison of unitaries looks at them. -/
namespace IonCircuit
open List (Forall₂)
variable {α : Type}

/-- The same gates in the same order on registers of one width, each on any qubits. -/
structure Circuit.SameGates (c d : Circuit α) : Prop where
  width : c.width = d.width
  gates : Forall₂ (fun i j => i.gate = j.gate) c.instructions d.instructions

variable [Scalar α] {width : ℕ} {i j : Instruction α} {is js : List (Instruction α)} {e : Error α}

section Faults

theorem firstRejected_cons_iff : FirstRejected width (i :: is) e ↔
    i.Rejected width e ∨ i.Accepted width ∧ FirstRejected width is e := by
  constructor
  · rintro ⟨pre, k, post, hsplit, hpre, hk⟩
    cases pre with
    | nil =>
      obtain ⟨rfl, -⟩ := List.cons.inj hsplit
      exact .inl hk
    | cons l pre =>
      obtain ⟨rfl, rfl⟩ := List.cons.inj hsplit
      rw [List.forall_mem_cons] at hpre
      exact .inr ⟨hpre.1, pre, k, post, rfl, hpre.2, hk⟩
  · rintro (hi | ⟨hi, pre, k, post, rfl, hpre, hk⟩)
    · exact ⟨[], i, is, rfl, by simp, hi⟩
    · exact ⟨i :: pre, k, post, rfl, List.forall_mem_cons.mpr ⟨hi, hpre⟩, hk⟩

theorem Instruction.Fits.rejected_congr (hi : i.Fits width) (hj : j.Fits width)
    (h : i.gate = j.gate) : i.Rejected width e ↔ j.Rejected width e := by
  rw [hi.rejected_iff, hj.rejected_iff, Instruction.Reduced, Instruction.Reduced,
    Instruction.kind, Instruction.kind, h]

theorem Instruction.Fits.accepted_congr (hi : i.Fits width) (hj : j.Fits width)
    (h : i.gate = j.gate) : i.Accepted width ↔ j.Accepted width := by
  rw [hi.accepted_iff, hj.accepted_iff, Instruction.Reduced, Instruction.Reduced,
    Instruction.kind, Instruction.kind, h]

theorem accepted_congr (his : ∀ i ∈ is, i.Fits width) (hjs : ∀ j ∈ js, j.Fits width)
    (h : Forall₂ (fun i j => i.gate = j.gate) is js) :
    (∀ i ∈ is, i.Accepted width) ↔ ∀ j ∈ js, j.Accepted width := by
  induction h with
  | nil => simp
  | cons hgate _ ih =>
    rw [List.forall_mem_cons] at his hjs
    rw [List.forall_mem_cons, List.forall_mem_cons, his.1.accepted_congr hjs.1 hgate,
      ih his.2 hjs.2]

theorem firstRejected_congr (his : ∀ i ∈ is, i.Fits width) (hjs : ∀ j ∈ js, j.Fits width)
    (h : Forall₂ (fun i j => i.gate = j.gate) is js) :
    FirstRejected width is e ↔ FirstRejected width js e := by
  induction h with
  | nil => rfl
  | cons hgate _ ih =>
    rw [List.forall_mem_cons] at his hjs
    rw [firstRejected_cons_iff, firstRejected_cons_iff, his.1.rejected_congr hjs.1 hgate,
      his.1.accepted_congr hjs.1 hgate, ih his.2 hjs.2]

end Faults

section NativeSet
variable {s : NativeSet} {position : ℕ}

theorem NativeSet.check_congr (hi : i.WellFormed) (hj : j.WellFormed) (h : i.gate = j.gate) :
    s.check position i = s.check position j := by
  obtain ⟨g, qubits⟩ := i
  obtain ⟨g', qubits'⟩ := j
  obtain rfl : g = g' := h
  rw [NativeSet.check, NativeSet.check, Instruction.checkForm_eq_ok_iff.mpr hi,
    Instruction.checkForm_eq_ok_iff.mpr hj]
  rfl

/-- A native set knows no register, so it sees the gates of well-formed instructions only. -/
theorem NativeSet.checkFrom_congr (his : ∀ i ∈ is, i.WellFormed) (hjs : ∀ j ∈ js, j.WellFormed)
    (h : Forall₂ (fun i j => i.gate = j.gate) is js) :
    s.checkFrom position is = s.checkFrom position js := by
  induction h generalizing position with
  | nil => rfl
  | cons hgate _ ih =>
    rw [List.forall_mem_cons] at his hjs
    rw [NativeSet.checkFrom, NativeSet.checkFrom, NativeSet.check_congr his.1 hjs.1 hgate,
      ih his.2 hjs.2]

end NativeSet

section Pass
variable [Trig α] {lower : Bool}

theorem Instruction.gates_block (hi : i.WellFormed) (hj : j.WellFormed) (h : i.gate = j.gate) :
    Forall₂ (fun o o' => o.gate = o'.gate) (i.block lower) (j.block lower) := by
  obtain ⟨g, qubits⟩ := i
  obtain ⟨g', qubits'⟩ := j
  obtain rfl : g = g' := h
  cases g with
  | rx θ | ry θ | rz θ | r θ φ => simp [Instruction.block]
  | rxx θ =>
    obtain ⟨a, b, rfl⟩ := List.length_eq_two.mp hi.1
    obtain ⟨a', b', rfl⟩ := List.length_eq_two.mp hj.1
    simp only [Instruction.block, QuarterTurn.block, correction]
    cases (QuarterTurn.ofFinite θ).backward <;> cases (QuarterTurn.ofFinite θ).halfTurn <;> simp

theorem gates_blocks (his : ∀ i ∈ is, i.WellFormed) (hjs : ∀ j ∈ js, j.WellFormed)
    (h : Forall₂ (fun i j => i.gate = j.gate) is js) :
    Forall₂ (fun o o' => o.gate = o'.gate) (is.flatMap (·.block lower))
      (js.flatMap (·.block lower)) := by
  induction h with
  | nil => exact .nil
  | cons hgate _ ih =>
    rw [List.forall_mem_cons] at his hjs
    rw [List.flatMap_cons, List.flatMap_cons]
    exact List.rel_append (Instruction.gates_block his.1 hjs.1 hgate) (ih his.2 hjs.2)

variable {c d r : Circuit α} {p : Pass α} (hc : c.WellFormed) (hd : d.WellFormed)
  (h : c.SameGates d)
include hc hd h

theorem Circuit.SameGates.blocks (lower : Bool) : (c.blocks lower).SameGates (d.blocks lower) where
  width := h.width
  gates := gates_blocks (fun i hi => (hc i hi).1) (fun j hj => (hd j hj).1) h.gates

variable [Scalar.Lawful α]

/-- Without the comparison, runs on the same gates fail alike or return blocks alike. -/
theorem run_comparing_false_of_sameGates : (p.comparing false).run d =
    ((p.comparing false).run c).map fun _ => d.blocks p.settings.lowerCorrections := by
  have hblocks := h.blocks hc hd p.settings.lowerCorrections
  obtain ⟨is, width⟩ := c
  obtain ⟨js, _⟩ := d
  obtain ⟨rfl : width = _, hgates⟩ := h
  rcases accepted_or_firstRejected width is with hacc | ⟨e, he⟩
  · have hacc' := (accepted_congr hc hd hgates).mp hacc
    have hcheck : p.target.checkFrom 0 (is.flatMap (·.block p.settings.lowerCorrections)) =
        p.target.checkFrom 0 (js.flatMap (·.block p.settings.lowerCorrections)) :=
      NativeSet.checkFrom_congr (fun o ho => (hc.blocks _ o ho).1)
        (fun o ho => (hd.blocks _ o ho).1) hblocks.gates
    have hreplace : (p.comparing false).replaceAll ⟨is, width⟩ = .ok _ := replaceAll_of_accepted hacc
    have hreplace' : (p.comparing false).replaceAll ⟨js, width⟩ = .ok _ :=
      replaceAll_of_accepted hacc'
    simp only [Pass.run, hreplace, hreplace', NativeSet.checkCircuit, Circuit.blocks]
    cases hn : p.settings.checkNative with
    | false => simp [Pass.comparing, hn, bind, Except.bind, pure, Except.pure, Except.map]
    | true =>
      cases hresult : p.target.checkFrom 0 (is.flatMap (·.block p.settings.lowerCorrections)) <;>
        simp [Pass.comparing, hn, ← hcheck, hresult, bind, Except.bind, pure, Except.pure, Except.map]
  · have he' := (firstRejected_congr hc hd hgates).mp he
    have hrun : (p.comparing false).run ⟨is, width⟩ = .error e := run_of_firstRejected he
    have hrun' : (p.comparing false).run ⟨js, width⟩ = .error e := run_of_firstRejected he'
    rw [hrun, hrun']
    rfl

/-- With the comparison they do so too when it decides both alike. -/
theorem run_of_sameGates (hsame : p.settings.compareUnitaries = true →
      d.equivalent (d.blocks p.settings.lowerCorrections) p.settings.tolerance =
        c.equivalent (c.blocks p.settings.lowerCorrections) p.settings.tolerance) :
    p.run d = (p.run c).map fun _ => d.blocks p.settings.lowerCorrections := by
  have hsilent := run_comparing_false_of_sameGates (p := p) hc hd h
  cases hcompare : p.settings.compareUnitaries with
  | false => rwa [run_comparing_self hcompare, run_comparing_self hcompare] at hsilent
  | true =>
    rw [← run_comparing_self hcompare d, ← run_comparing_self hcompare c, run_comparing_true,
      run_comparing_true, hsilent]
    cases hrun : (p.comparing false).run c with
    | error e => rfl
    | ok r =>
      obtain rfl : r = c.blocks p.settings.lowerCorrections := (run_eq_ok hrun).2
      simp only [Except.map, bind, Except.bind, hsame hcompare]
      cases c.equivalent (c.blocks p.settings.lowerCorrections) p.settings.tolerance with
      | error e => rfl
      | ok same => cases same <;> rfl

/-- Whatever the comparison makes of the other qubits, it can only reject the output. -/
theorem run_of_sameGates_of_ok (hrun : p.run c = .ok r) :
    p.run d = .ok (d.blocks p.settings.lowerCorrections) ∨
      p.settings.compareUnitaries = true ∧ p.run d = .error (.notEquivalent p.settings.tolerance) := by
  have hsilent := run_comparing_false_of_sameGates (p := p) hc hd h
  cases hcompare : p.settings.compareUnitaries with
  | false =>
    rw [run_comparing_self hcompare, run_comparing_self hcompare, hrun] at hsilent
    exact .inl hsilent
  | true =>
    rw [← run_comparing_self hcompare, run_comparing_true_eq_ok_iff] at hrun
    rw [hrun.1] at hsilent
    rw [← run_comparing_self hcompare, run_comparing_true_eq_ok_iff,
      run_comparing_true_eq_error_iff]
    have hwidth : d.width = (d.blocks p.settings.lowerCorrections).width := rfl
    have hunitary := Circuit.equivalent_of_unitary hwidth (Circuit.unitary_eq_ok hd)
      (Circuit.unitary_eq_ok (hd.blocks p.settings.lowerCorrections)) p.settings.tolerance
    cases hsame : d.equivalent (d.blocks p.settings.lowerCorrections) p.settings.tolerance with
    | error e => simp [hunitary] at hsame
    | ok same =>
      cases same with
      | true => exact .inl ⟨hsilent, rfl⟩
      | false => exact .inr ⟨rfl, .inr ⟨_, hsilent, .inr ⟨hsame, rfl⟩⟩⟩

end Pass

end IonCircuit
