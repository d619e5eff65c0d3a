import IonCircuit.Proofs.Acceptance
import IonCircuit.Proofs.Equality

/-! Circuits that a trapped-ion backend runs as they are come out of the pass as they went
in, and no others do. -/
namespace IonCircuit
open Scalar (pi halfPi isFinite)

/-- The gate without the sign that a zero interaction angle may have. -/
def Gate.unsigned {α : Type} [Scalar α] : Gate α → Gate α
  | .rxx θ => .rxx (Scalar.abs θ)
  | g => g

def Instruction.unsigned {α : Type} [Scalar α] (i : Instruction α) : Instruction α :=
  ⟨i.gate.unsigned, i.qubits⟩

/-- The register has every qubit, and a trapped-ion backend runs the instruction as it is. -/
structure Instruction.NativeIn {α : Type} [Scalar α] (width : Nat) (i : Instruction α) : Prop where
  fits : i.Fits width
  admits : NativeSet.trappedIon.Admits i

theorem Instruction.NativeIn.accepted {α : Type} [Scalar α] {width : Nat} {i : Instruction α}
    (h : i.NativeIn width) : i.Accepted width :=
  ⟨h.fits, fun _ => h.admits.finite _ i.gate.theta_mem_params⟩

theorem nativeIn_iff {α : Type} [Scalar α] {c : Circuit α} :
    (∀ i ∈ c.instructions, i.NativeIn c.width) ↔
      NativeSet.trappedIon.checkCircuit c = .ok () ∧
        ∀ i ∈ c.instructions, ∀ q ∈ i.qubits, q < c.width := by
  rw [NativeSet.checkCircuit, NativeSet.checkFrom_eq_ok_iff]
  constructor
  · intro h
    exact ⟨fun i hi => ⟨(h i hi).fits.1, (h i hi).admits⟩, fun i hi => (h i hi).fits.2⟩
  · rintro ⟨h, hlt⟩ i hi
    exact ⟨⟨(h i hi).1, hlt i hi⟩, (h i hi).2⟩

section Equality
variable {g h : Gate Float} {i j : Instruction Float} {width : Nat}

/-- Equal gates are native together. -/
theorem Gate.Native.congr (hg : g.Native) (he : (g == h) = true) : h.Native := by
  obtain ⟨hkind, hparams⟩ := Gate.beq_iff.mp he
  obtain ⟨hfin, hrange⟩ := hg
  refine ⟨forall_of_forall₂ hparams
    (fun _ _ hxy hx => (Binary64.isFinite_congr hxy).symm.trans hx) hfin, ?_⟩
  cases g <;> cases h <;> simp only [Gate.kind, reduceCtorEq] at hkind
  case rx.rx | ry.ry | rz.rz => trivial
  case r.r θ φ θ' φ' =>
    obtain ⟨hθ, -⟩ : (θ == θ') = true ∧ (φ == φ') = true := by simpa [Gate.params] using hparams
    exact (Binary64.mem_range_congr (hfin θ (by simp [Gate.params])) rfl hθ).mp hrange
  case rxx.rxx θ θ' =>
    have hθ : (θ == θ') = true := by simpa [Gate.params] using hparams
    exact (Binary64.mem_range_congr (hfin θ (by simp [Gate.params])) rfl hθ).mp hrange

theorem Instruction.NativeIn.congr (hi : i.NativeIn width) (he : (i == j) = true) :
    j.NativeIn width := by
  obtain ⟨hgate, hqubits⟩ := Instruction.beq_iff.mp he
  have hkind : i.gate.kind = j.gate.kind := (Gate.beq_iff.mp hgate).1
  obtain ⟨⟨⟨hlen, hnodup⟩, hlt⟩, hmem, hfin, hrange⟩ := hi
  obtain ⟨hfin', hrange'⟩ := Gate.Native.congr ⟨hfin, hrange⟩ hgate
  refine ⟨⟨⟨?_, hqubits ▸ hnodup⟩, hqubits ▸ hlt⟩, ?_, hfin', hrange'⟩
  · rw [← hqubits, hlen, Gate.arity, Gate.arity, hkind]
  · rw [Instruction.kind, ← hkind]
    exact hmem

theorem Gate.beq_unsigned (hg : g.Native) : (g == g.unsigned) = true := by
  obtain ⟨hfin, hrange⟩ := hg
  have hself : List.Forall₂ (fun x y => (x == y) = true) g.params g.params :=
    List.forall₂_same.mpr fun x hx => Binary64.beq_self (hfin x hx)
  cases g with
  | rx θ | ry θ | rz θ | r θ φ => exact Gate.beq_iff.mpr ⟨rfl, hself⟩
  | rxx θ =>
    have habs := Binary64.beq_abs (hfin θ (by simp [Gate.params])) hrange.1
    exact Gate.beq_iff.mpr ⟨rfl, .cons habs .nil⟩

theorem Instruction.beq_unsigned (h : NativeSet.trappedIon.Admits i) :
    (i == i.unsigned) = true :=
  Instruction.beq_iff.mpr ⟨Gate.beq_unsigned ⟨h.finite, h.range⟩, rfl⟩

end Equality

section Fold
variable {θ : Float}

/-- An angle in the native range is not folded. -/
theorem ofFinite_of_native (hfin : isFinite θ = true) (h : 0 ≤ θ ∧ θ ≤ halfPi) :
    QuarterTurn.ofFinite θ = ⟨Scalar.abs θ, false, false⟩ := by
  have hlow := (Binary64.le_iff_value Binary64.isFinite_zero hfin).mp h.1
  have hforward : ¬ θ < 0 := by
    rw [Binary64.lt_iff_value hfin Binary64.isFinite_zero]
    exact not_lt.mpr hlow
  have hquarter : Scalar.abs θ ≤ halfPi := by
    have hhigh := (Binary64.mem_range_congr hfin rfl (Binary64.beq_abs hfin h.1)).mp h
    exact hhigh.2
  simp [QuarterTurn.ofFinite, QuarterTurn.ofSigned, hquarter, hforward]

theorem abs_magnitude_ofSigned (halfTurn : Bool) (rest : Float) :
    Scalar.abs (QuarterTurn.ofSigned halfTurn rest).magnitude =
      (QuarterTurn.ofSigned halfTurn rest).magnitude := by
  unfold QuarterTurn.ofSigned
  dsimp only
  split
  · exact Binary64.abs_abs rest
  · rfl

/-- No folded angle has a sign. -/
theorem abs_magnitude_ofFinite (θ : Float) :
    Scalar.abs (QuarterTurn.ofFinite θ).magnitude = (QuarterTurn.ofFinite θ).magnitude := by
  unfold QuarterTurn.ofFinite
  dsimp only
  split
  · exact abs_magnitude_ofSigned _ _
  · split
    · exact abs_magnitude_ofSigned _ _
    · split <;> exact abs_magnitude_ofSigned _ _

end Fold

section Pass
variable [Trig Float] {i o : Instruction Float} {c r : Circuit Float} {width : Nat}

/-- What is native already is replaced by itself, without the sign of a zero. -/
theorem block_of_admits (hwf : i.WellFormed) (h : NativeSet.trappedIon.Admits i) (lower : Bool) :
    i.block lower = [i.unsigned] := by
  obtain ⟨g, qubits⟩ := i
  have hkind := h.kind
  cases g with
  | rx θ | ry θ => cases hkind
  | rz θ | r θ φ => rfl
  | rxx θ =>
    obtain ⟨a, b, rfl⟩ := List.length_eq_two.mp hwf.1
    have hfold := ofFinite_of_native (h.finite θ (by simp [Gate.params])) h.range
    simp [Instruction.block, hfold, QuarterTurn.block, Instruction.unsigned, Gate.unsigned]

/-- The pass leaves no signed zero on an interaction. -/
theorem unsigned_of_mem_block (hwf : i.WellFormed) (lower : Bool) :
    ∀ o ∈ i.block lower, o.unsigned = o := by
  obtain ⟨g, qubits⟩ := i
  cases g with
  | rz θ | r θ φ => simp [Instruction.block, Instruction.unsigned, Gate.unsigned]
  | rx θ | ry θ =>
    simp only [Instruction.block, Gate.turned, List.mem_singleton, forall_eq]
    split <;> rfl
  | rxx θ =>
    obtain ⟨a, b, rfl⟩ := List.length_eq_two.mp hwf.1
    have hmag := abs_magnitude_ofFinite θ
    simp only [Instruction.block, QuarterTurn.block, correction]
    cases (QuarterTurn.ofFinite θ).backward <;> cases (QuarterTurn.ofFinite θ).halfTurn <;>
      cases lower <;> simp [Instruction.unsigned, Gate.unsigned, hmag]

theorem toNative_eq_ok_iff : c.toNative = .ok r ↔ (∀ i ∈ c.instructions, i.Accepted c.width) ∧
    (∀ o ∈ (c.blocks true).instructions, NativeSet.trappedIon.Admits o) ∧ r = c.blocks true := by
  refine (run_eq_ok_iff (p := Pass.standard) rfl).trans ?_
  exact and_congr_right fun _ => and_congr_left fun _ => ⟨fun h => h rfl, fun h _ => h⟩

theorem nativeIn_of_toNative (h : c.toNative = .ok r) :
    ∀ o ∈ r.instructions, o.NativeIn r.width ∧ o.unsigned = o := by
  obtain ⟨hacc, hadm, rfl⟩ := toNative_eq_ok_iff.mp h
  have hwf : c.WellFormed := fun i hi => (hacc i hi).fits
  intro o ho
  obtain ⟨i, hi, hoi⟩ := List.mem_flatMap.mp ho
  exact ⟨⟨hwf.blocks true o ho, hadm o ho⟩, unsigned_of_mem_block (hwf i hi).1 true o hoi⟩

theorem toNative_of_nativeIn (h : ∀ i ∈ c.instructions, i.NativeIn c.width) :
    c.toNative = .ok ⟨c.instructions.map (·.unsigned), c.width⟩ := by
  have hblock : ∀ i ∈ c.instructions, i.block true = [i.unsigned] :=
    fun i hi => block_of_admits (h i hi).fits.1 (h i hi).admits true
  have hblocks : c.blocks true = ⟨c.instructions.map (·.unsigned), c.width⟩ := by
    rw [Circuit.blocks, List.flatMap_congr hblock, List.map_eq_flatMap]
  refine toNative_eq_ok_iff.mpr ⟨fun i hi => (h i hi).accepted, ?_, hblocks.symm⟩
  intro o ho
  rw [hblocks] at ho
  obtain ⟨i, hi, rfl⟩ := List.mem_map.mp ho
  exact ((h i hi).congr (Instruction.beq_unsigned (h i hi).admits)).admits

end Pass

/-- The pass returns a circuit that equals its input exactly for circuits on their register
that the backend runs already. It returns such circuits only, so a second run changes nothing. -/
theorem toNative_fixed_iff [Trig Float] (c : Circuit Float) :
    ((∃ r, c.toNative = .ok r ∧ (r == c) = true) ↔
      NativeSet.trappedIon.checkCircuit c = .ok () ∧
        ∀ i ∈ c.instructions, ∀ q ∈ i.qubits, q < c.width) ∧
    ∀ r, c.toNative = .ok r → r.toNative = .ok r ∧ (r == r) = true := by
  refine ⟨⟨?_, ?_⟩, ?_⟩
  · rintro ⟨r, hr, hrc⟩
    obtain ⟨hsame, hwidth⟩ := Circuit.beq_iff.mp hrc
    refine nativeIn_iff.mp (forall_of_forall₂ hsame ?_ (nativeIn_of_toNative hr))
    rintro o i hoi ⟨ho, -⟩
    exact hwidth ▸ ho.congr hoi
  · intro h
    have hnative := nativeIn_iff.mpr h
    refine ⟨_, toNative_of_nativeIn hnative, Circuit.beq_iff.mpr ⟨?_, rfl⟩⟩
    rw [List.forall₂_map_left_iff, List.forall₂_same]
    exact fun i hi => Instruction.beq_symm (Instruction.beq_unsigned (hnative i hi).admits)
  · intro r hr
    have hnative := nativeIn_of_toNative hr
    have hunsigned : r.instructions.map (·.unsigned) = r.instructions := by
      rw [List.map_congr_left fun o ho => (hnative o ho).2, List.map_id']
    refine ⟨?_, Circuit.beq_self_iff.mpr ?_⟩
    · rw [toNative_of_nativeIn fun o ho => (hnative o ho).1, hunsigned]
    · intro o ho x hx
      exact Binary64.beq_self ((hnative o ho).1.admits.finite x hx)

/-- A negative zero, a quarter turn and a half turn are native. -/
theorem toNative_fixed_iff_at_negative_zero :
    ∃ r, (⟨[⟨.rxx (-0), [1, 0]⟩, ⟨.rxx halfPi, [0, 1]⟩, ⟨.r pi (-7), [1]⟩], 2⟩ :
        Circuit Float).toNative = .ok r ∧
      (r == ⟨[⟨.rxx (-0), [1, 0]⟩, ⟨.rxx halfPi, [0, 1]⟩, ⟨.r pi (-7), [1]⟩], 2⟩) = true ∧
      r.toNative = .ok r := by
  have hfixed := toNative_fixed_iff
    ⟨[⟨.rxx (-0), [1, 0]⟩, ⟨.rxx halfPi, [0, 1]⟩, ⟨.r pi (-7), [1]⟩], 2⟩
  obtain ⟨r, hr, hsame⟩ := hfixed.1.mpr ⟨by decide, by decide⟩
  exact ⟨r, hr, hsame, (hfixed.2 r hr).1⟩

end IonCircuit
