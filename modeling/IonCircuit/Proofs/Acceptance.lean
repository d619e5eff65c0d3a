import IonCircuit.Proofs.Binary64.Lawful
import IonCircuit.Proofs.Outcome

/-! Which circuits of doubles the pass accepts, and the error on every other. -/
namespace IonCircuit
open Scalar (isFinite)

/-- A member of a concatenation comes from one of the parts. -/
theorem flatMap_split {α β : Type} {f : α → List β} {l : List α} {before after : List β} {o : β}
    (h : l.flatMap f = before ++ o :: after) : ∃ pre i post mid rest, l = pre ++ i :: post ∧
      before = pre.flatMap f ++ mid ∧ f i = mid ++ o :: rest := by
  induction l generalizing before with
  | nil => simp at h
  | cons i l ih =>
    have hlater : ∀ later, before = f i ++ later → l.flatMap f = later ++ o :: after →
        ∃ pre j post mid rest, i :: l = pre ++ j :: post ∧ before = pre.flatMap f ++ mid ∧
          f j = mid ++ o :: rest := by
      intro later hbefore hl
      obtain ⟨pre, j, post, mid, rest, rfl, rfl, hj⟩ := ih hl
      exact ⟨i :: pre, j, post, mid, rest, rfl, by simp [hbefore], hj⟩
    rw [List.flatMap_cons] at h
    rcases List.append_eq_append_iff.mp h with ⟨later, hbefore, hl⟩ | ⟨rest, hi, hl⟩
    · exact hlater later hbefore hl
    · cases rest with
      -- The first part ends right before the member.
      | nil => exact hlater [] (by simpa using hi.symm) hl.symm
      | cons p rest =>
        obtain ⟨rfl, -⟩ := List.cons.inj hl
        exact ⟨[], i, l, before, rest, rfl, rfl, hi⟩

section Generic
variable {α : Type} [Scalar α] [Trig α] [Scalar.Lawful α] {c r : Circuit α} {e : Error α}
  {p : Pass α}

/-- A range fault of the output is that of an instruction copied from the input. -/
theorem copied_of_outsideNativeRange [Trig.Bounded α] {s : NativeSet} {lower : Bool}
    {position : Nat} {kind : Kind} {value : α} (h : ∀ i ∈ c.instructions, i.Accepted c.width)
    (hr : s.FirstRefused 0 (c.blocks lower).instructions
      (.outsideNativeRange position kind value)) :
    ∃ pre i post, c.instructions = pre ++ i :: post ∧ (i.kind = .rz ∨ i.kind = .r) ∧
      i.kind = kind ∧ value ∈ i.gate.params ∧
      position = (pre.flatMap (·.block lower)).length := by
  obtain ⟨before, o, after, hsplit, -, ho⟩ := hr
  obtain ⟨pre, i, post, mid, rest, hc, rfl, hi⟩ := flatMap_split hsplit
  have hmem : i ∈ c.instructions := by simp [hc]
  have hcopied : ¬ i.Reduced := by
    intro hred
    have ho' : o ∈ i.block lower := by simp [hi]
    obtain ⟨hfin, hrange⟩ := native_block (h i hmem).fits.1 hred ((h i hmem).finite hred) o ho'
    cases ho with
    | nonFinite _ hx _ hbad =>
      have hvalue : value ∈ o.gate.params := by simp [hx]
      rw [hfin value hvalue] at hbad
      cases hbad
    | range _ _ hbad => exact hbad hrange
  rw [Instruction.block_of_not_reduced lower hcopied, eq_comm, List.append_eq_singleton_iff] at hi
  obtain ⟨rfl, hi⟩ | ⟨-, hi⟩ := hi
  · obtain ⟨rfl, rfl⟩ := List.cons.inj hi
    refine ⟨pre, o, post, hc, ?_, ?_⟩
    · cases hk : o.kind <;> simp_all [Instruction.Reduced]
    · cases ho with
      | nonFinite _ hx => simp [hx]
      | range => simp [Gate.theta_mem_params]
  · cases hi

theorem run_eq_error_iff (hc : p.settings.compareUnitaries = false) : p.run c = .error e ↔
    FirstRejected c.width c.instructions e ∨
      (∀ i ∈ c.instructions, i.Accepted c.width) ∧ p.settings.checkNative = true ∧
        p.target.FirstRefused 0 (c.blocks p.settings.lowerCorrections).instructions e := by
  constructor
  · intro h
    rcases accepted_or_firstRejected c.width c.instructions with hacc | ⟨e', he'⟩
    · cases hn : p.settings.checkNative with
      | false =>
        rw [run_of_admitted hacc (by simp [hn]) hc] at h
        cases h
      | true =>
        rcases p.target.admits_or_firstRefused 0
          (c.blocks p.settings.lowerCorrections).instructions with hadm | ⟨e', he'⟩
        · rw [run_of_admitted hacc (fun _ => hadm) hc] at h
          cases h
        · rw [run_of_firstRefused hacc hn he'] at h
          obtain rfl := Except.error.inj h
          exact .inr ⟨hacc, rfl, he'⟩
    · rw [run_of_firstRejected he'] at h
      obtain rfl := Except.error.inj h
      exact .inl he'
  · rintro (h | ⟨hacc, hn, h⟩)
    · exact run_of_firstRejected h
    · exact run_of_firstRefused hacc hn h

theorem run_eq_ok_iff (hc : p.settings.compareUnitaries = false) : p.run c = .ok r ↔
    (∀ i ∈ c.instructions, i.Accepted c.width) ∧
      (p.settings.checkNative = true →
        ∀ o ∈ (c.blocks p.settings.lowerCorrections).instructions, p.target.Admits o) ∧
      r = c.blocks p.settings.lowerCorrections := by
  constructor
  · intro h
    obtain ⟨hacc, rfl⟩ := run_eq_ok h
    refine ⟨hacc, fun hn => ?_, rfl⟩
    rcases p.target.admits_or_firstRefused 0
      (c.blocks p.settings.lowerCorrections).instructions with hadm | ⟨e, he⟩
    · exact hadm
    · rw [run_of_firstRefused hacc hn he] at h
      cases h
  · rintro ⟨hacc, hadm, rfl⟩
    exact run_of_admitted hacc hadm hc

end Generic

/-- The first faulty instruction of the input decides, then the first one of the output that
the target refuses; a circuit with neither is replaced block by block. -/
theorem run_outcome [Trig Float] [Trig.Bounded Float] {p : Pass Float} (c : Circuit Float)
    (hc : p.settings.compareUnitaries = false) :
    (∀ e, p.run c = .error e ↔ FirstRejected c.width c.instructions e ∨
      (∀ i ∈ c.instructions, i.Accepted c.width) ∧ p.settings.checkNative = true ∧
        p.target.FirstRefused 0 (c.blocks p.settings.lowerCorrections).instructions e) ∧
    (∀ r, p.run c = .ok r ↔ (∀ i ∈ c.instructions, i.Accepted c.width) ∧
      (p.settings.checkNative = true →
        ∀ o ∈ (c.blocks p.settings.lowerCorrections).instructions, p.target.Admits o) ∧
      r = c.blocks p.settings.lowerCorrections) ∧
    ∀ position kind value, p.run c = .error (.outsideNativeRange position kind value) →
      ∃ pre i post, c.instructions = pre ++ i :: post ∧ (i.kind = .rz ∨ i.kind = .r) ∧
        i.kind = kind ∧ value ∈ i.gate.params ∧
        position = (pre.flatMap (·.block p.settings.lowerCorrections)).length := by
  refine ⟨fun e => run_eq_error_iff hc, fun r => run_eq_ok_iff hc, fun position kind value h => ?_⟩
  rcases (run_eq_error_iff hc).mp h with ⟨pre, i, post, -, -, hi⟩ | ⟨hacc, -, href⟩
  · cases hi
  · exact copied_of_outsideNativeRange hacc href

/-- The trigonometric functions as they are at seven. -/
abbrev Trig.atSeven : Trig Float where
  sin _ := 0.6569865987187891
  cos _ := 0.7539022543433046
  atan2 _ _ := 0.7168146928204135

theorem Trig.bounded_atSeven : @Trig.Bounded Float _ Trig.atSeven :=
  @Trig.Bounded.mk Float _ Trig.atSeven
    (fun _ => show isFinite (0.6569865987187891 : Float) = true by decide)
    (fun _ => show isFinite (0.7539022543433046 : Float) = true by decide)
    (fun _ _ => show -Scalar.pi ≤ (0.7168146928204135 : Float) by decide)
    (fun _ _ => show (0.7168146928204135 : Float) ≤ Scalar.pi by decide)

/-- A rotation about x by seven is reduced, and an equatorial one by four is refused. -/
theorem run_outcome_at_seven :
    @Pass.run Float _ Trig.atSeven Pass.standard ⟨[⟨.rx 7, [0]⟩, ⟨.r 4 0, [1]⟩], 2⟩ =
      .error (.outsideNativeRange 1 .r 4) ∧
    @Pass.run Float _ Trig.atSeven Pass.standard ⟨[⟨.rx 7, [0]⟩], 1⟩ =
      .ok ⟨[⟨.r 0.7168146928204135 0, [0]⟩], 1⟩ := by
  have hrx : ∀ n, 0 < n → (⟨.rx 7, [0]⟩ : Instruction Float).Accepted n := fun n hn =>
    ⟨⟨⟨rfl, List.nodup_singleton 0⟩, by simpa using hn⟩, fun _ => by decide⟩
  have hr : (⟨.r 4 0, [1]⟩ : Instruction Float).Accepted 2 :=
    ⟨⟨⟨rfl, List.nodup_singleton 1⟩, by simp⟩, fun _ => by decide⟩
  have hadmits : (@Pass.standard Float _).target.Admits
      (⟨.r 0.7168146928204135 0, [0]⟩ : Instruction Float) :=
    ⟨rfl, by decide, by decide⟩
  have hone := @run_outcome Trig.atSeven Trig.bounded_atSeven Pass.standard
    ⟨[⟨.rx 7, [0]⟩], 1⟩ rfl
  have htwo := @run_outcome Trig.atSeven Trig.bounded_atSeven Pass.standard
    ⟨[⟨.rx 7, [0]⟩, ⟨.r 4 0, [1]⟩], 2⟩ rfl
  have hblock : @Circuit.blocks Float _ Trig.atSeven true ⟨[⟨.rx 7, [0]⟩], 1⟩ =
      ⟨[⟨.r 0.7168146928204135 0, [0]⟩], 1⟩ := by decide +kernel
  have hblocks : (@Circuit.blocks Float _ Trig.atSeven true
      ⟨[⟨.rx 7, [0]⟩, ⟨.r 4 0, [1]⟩], 2⟩).instructions =
      [⟨.r 0.7168146928204135 0, [0]⟩] ++ [⟨.r 4 0, [1]⟩] := by decide +kernel
  constructor
  · refine (htwo.1 _).mpr (.inr ⟨by simp [hrx, hr], rfl, _, _, [], hblocks, ?_, ?_⟩)
    · simpa using hadmits
    · exact .range rfl (by decide) (by decide)
  · refine (hone.2.1 _).mpr ⟨by simp [hrx], fun _ => ?_, hblock.symm⟩
    change ∀ o ∈ (@Circuit.blocks Float _ Trig.atSeven true ⟨[⟨.rx 7, [0]⟩], 1⟩).instructions, _
    rw [hblock]
    simpa using hadmits

end IonCircuit
