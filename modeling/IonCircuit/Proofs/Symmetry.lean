import IonCircuit.Proofs.Exchange
import IonCircuit.Proofs.Renaming
import IonCircuit.Proofs.SnappedPair

/-! What the names of the qubits and the order within an interaction change of a run: nothing but
the qubits that its result names, unless the comparison of unitaries meets a snapped angle. -/
namespace IonCircuit
open Register (Addresses bit renameStates)
open Scalar (zeroBand)

/-- Each of two qubits gets the name of the other. -/
theorem bijOn_other : Set.BijOn (1 - ·) (Set.Iio 2) (Set.Iio 2) := by
  refine ⟨fun q hq => ?_, fun q hq r hr he => ?_, fun q hq => ⟨1 - q, ?_, ?_⟩⟩
  all_goals simp only [Set.mem_Iio] at *
  all_goals omega

/-- Renaming the qubits renames the basis states of the unitary, and a run renames its result; only
a comparison when snapping changes an angle may reject that under the other names. Listing the qubits of
interactions in the other order changes neither the unitary nor what a run returns, apart from the
qubits on which its gates act. -/
theorem run_renamed_or_exchanged [Trig Float] :
    (∀ (c : Circuit ℝ) (σ : ℕ → ℕ), c.WellFormed →
      Set.BijOn σ (Set.Iio c.width) (Set.Iio c.width) →
      (∃ (π : Equiv.Perm (Fin (2 ^ c.width))) (U U' : Operator (Amplitude ℝ)),
        (∀ i, ∀ q < c.width, bit c.width (σ q) (π i) = bit c.width q i) ∧
        c.unitary = .ok U ∧ (c.renamed σ).unitary = .ok U' ∧
        ∀ i j, U'.entry (π i) (π j) = U.entry i j) ∧
      ∀ p : Pass ℝ,
        ((p.settings.compareUnitaries = true → c.snapped = c) →
          p.run (c.renamed σ) = (p.run c).map (·.renamed σ)) ∧
        ∀ r, p.run c = .ok r → p.run (c.renamed σ) = .ok (r.renamed σ) ∨
          p.settings.compareUnitaries = true ∧
            p.run (c.renamed σ) = .error (.notEquivalent p.settings.tolerance)) ∧
    (∀ (p : Pass Float) (c : Circuit Float) (σ : ℕ → ℕ), c.WellFormed →
      Set.BijOn σ (Set.Iio c.width) (Set.Iio c.width) → p.settings.compareUnitaries = false →
        p.run (c.renamed σ) = (p.run c).map (·.renamed σ)) ∧
    ∀ c d : Circuit ℝ, c.WellFormed → c.Exchanged d → d.unitary = c.unitary ∧
      ∀ p : Pass ℝ, (∀ e, p.run c = .error e → p.run d = .error e) ∧
        ∀ r, p.run c = .ok r → ∃ r' V, p.run d = .ok r' ∧ r.SameGates r' ∧
          r.unitary = .ok V ∧ r'.unitary = .ok V := by
  refine ⟨fun c σ h hσ => ⟨?_, fun p => ⟨fun hsnap => ?_, fun r hr => ?_⟩⟩, ?_, ?_⟩
  · obtain ⟨U, U', hU, hU', hentry⟩ := unitary_renamed hσ h
    exact ⟨renameStates hσ, U, U', fun i q hq => Register.bit_renamed hσ hq, hU, hU', hentry⟩
  · exact run_renamed hσ h fun hcompare => equivalent_blocks_renamed _ hσ h (hsnap hcompare) _
  · obtain rfl := (run_eq_ok hr).2
    rw [← Circuit.blocks_renamed]
    exact run_of_sameGates_of_ok h (h.renamed hσ) (c.sameGates_renamed σ) hr
  · intro p c σ h hσ hcompare
    exact run_renamed hσ h (by simp [hcompare])
  · intro c d hc h
    have hd := h.wellFormed hc
    refine ⟨h.unitary_eq hc, fun p => ⟨fun e he => ?_, fun r hr => ?_⟩⟩
    · rw [h.run_eq hc, he]
      rfl
    · obtain rfl := (run_eq_ok hr).2
      have hblocks := h.unitary_blocks_eq hc p.settings.lowerCorrections
      have hV := Circuit.unitary_eq_ok (hc.blocks p.settings.lowerCorrections)
      exact ⟨_, _, by rw [h.run_eq hc, hr]; rfl, h.sameGates.blocks hc hd _, hV, hblocks.trans hV⟩

/-- Three qubits around a circle, the interaction of two of them listed either way, and two qubits
in double precision. -/
theorem run_renamed_or_exchanged_around_circle :
    let c : Circuit ℝ := ⟨[⟨.rxx 3, [0, 2]⟩, ⟨.ry 1, [1]⟩], 3⟩
    let d : Circuit ℝ := ⟨[⟨.rxx 3, [2, 0]⟩, ⟨.ry 1, [1]⟩], 3⟩
    let p : Pass ℝ := ⟨⟨1 / 4, true, true, true⟩, .trappedIon⟩
    (∃ (π : Equiv.Perm (Fin (2 ^ 3))) (U U' : Operator (Amplitude ℝ)),
      (∀ i, ∀ q < 3, bit 3 ((q + 1) % 3) (π i) = bit 3 q i) ∧ c.unitary = .ok U ∧
      (⟨[⟨.rxx 3, [1, 0]⟩, ⟨.ry 1, [2]⟩], 3⟩ : Circuit ℝ).unitary = .ok U' ∧
      ∀ i j, U'.entry (π i) (π j) = U.entry i j) ∧
    (∃ r r' : Circuit ℝ, p.run c = .ok r ∧
      p.run ⟨[⟨.rxx 3, [1, 0]⟩, ⟨.ry 1, [2]⟩], 3⟩ = .ok (r.renamed fun q => (q + 1) % 3) ∧
      p.run d = .ok r' ∧ r.SameGates r' ∧ r'.unitary = r.unitary) ∧
    d.unitary = c.unitary ∧
    (Pass.standard : Pass Float).run ⟨[⟨.rxx 3, [1, 0]⟩], 2⟩ =
      ((Pass.standard : Pass Float).run ⟨[⟨.rxx 3, [0, 1]⟩], 2⟩).map (·.renamed (1 - ·)) := by
  intro c d p
  obtain ⟨hrenamed, hdouble, hexchanged⟩ := run_renamed_or_exchanged
  have hc : c.WellFormed := by decide
  have hσ : Set.BijOn (fun q => (q + 1) % 3) (Set.Iio 3) (Set.Iio 3) := by
    refine ⟨fun q hq => ?_, fun q hq r hr he => ?_, fun q hq => ⟨(q + 2) % 3, ?_, ?_⟩⟩
    all_goals simp only [Set.mem_Iio] at *
    all_goals omega
  have hband : ¬ InBand 1 := fun h => h.1 ⟨by linarith [Real.pi_pos], by linarith [Real.two_le_pi]⟩
  have hsnap : c.snapped = c :=
    Circuit.snapped_eq_self (by simpa [c, Instruction.kind, Gate.kind, Gate.theta] using hband)
  have hwidth : (1 / 4 : ℝ) < 2 ^ (-((3 : ℕ) : ℝ) / 2) := by
    refine lt_of_pow_lt_pow_left₀ 2 (by positivity) ?_
    rw [sq_two_rpow]
    norm_num
  have hrun : p.run c = .ok (c.blocks true) := by
    have hself : p.comparing true = p := rfl
    rw [← hself, run_comparing_true_eq_ok_iff]
    exact ⟨run_of_reduced hc (by simp [c, Instruction.Reduced, Instruction.kind, Gate.kind]) _,
      equivalent_blocks true hc hsnap (by norm_num) hwidth⟩
  have hexchange : c.Exchanged d := ⟨rfl, .cons (.inr ⟨rfl, rfl⟩) (.cons (.inl rfl) .nil)⟩
  obtain ⟨hunitary, hpass⟩ := hrenamed c _ hc hσ
  obtain ⟨hsame, hrun'⟩ := hexchanged c d hc hexchange
  obtain ⟨r', V, hr', hgates, hV, hV'⟩ := (hrun' p).2 _ hrun
  refine ⟨hunitary, ⟨_, r', hrun, ?_, hr', hgates, hV'.trans hV.symm⟩, hsame, ?_⟩
  · have hcycle := (hpass p).1 fun _ => hsnap
    rw [hrun] at hcycle
    exact hcycle
  · exact hdouble Pass.standard ⟨[⟨.rxx 3, [0, 1]⟩], 2⟩ (1 - ·) (by decide) bijOn_other rfl

/-- The tolerance and the excess are both as large as the band. Under the other names the last of
the largest entries is one that is off, and the comparison reads the phase there. -/
theorem run_renamed_rejects_snapped :
    let p : Pass ℝ := ⟨⟨zeroBand, true, true, true⟩, .trappedIon⟩
    let c : Circuit ℝ := ⟨snappedPair 0 1 zeroBand, 2⟩
    p.settings.check = .ok () ∧ c.WellFormed ∧ Set.BijOn (1 - ·) (Set.Iio 2) (Set.Iio 2) ∧
      (∃ r, p.run c = .ok r) ∧
      p.run (c.renamed (1 - ·)) = .error (.notEquivalent p.settings.tolerance) := by
  intro p c
  have hfirst : Addresses 2 ([0] ++ [1]) := ⟨by decide, by decide⟩
  have hsecond : Addresses 2 ([1] ++ [0]) := ⟨by decide, by decide⟩
  have hpos := zeroBand_pos
  have hsmall : (zeroBand : ℝ) ≤ 1 / 4 := by
    rw [real_zeroBand]
    norm_num
  have hband : |(zeroBand : ℝ)| ≤ zeroBand := (abs_of_pos hpos).le
  have hself : p.comparing true = p := rfl
  have hwf := wellFormed_snappedPair hfirst zeroBand
  have hwf' := wellFormed_snappedPair hsecond zeroBand
  refine ⟨?_, hwf, bijOn_other, ⟨c.blocks true, ?_⟩, ?_⟩
  · simp [p, Settings.check, Scalar.isFinite]
  · obtain ⟨U, V, hU, hV, hA, hA', hsame⟩ := exists_equivalent_snappedPair hfirst hband zeroBand
    rw [phase?_flipOne_first hU hV hpos hsmall hA hA'] at hsame
    rw [← hself, run_comparing_true_eq_ok_iff]
    exact ⟨run_of_reduced hwf (reduced_snappedPair _) _, hsame⟩
  · obtain ⟨U, V, hU, hV, hA, hA', hsame⟩ := exists_equivalent_snappedPair hsecond hband zeroBand
    rw [phase?_flipOne_second hU hV hpos hsmall hA hA'] at hsame
    rw [← hself, run_comparing_true_eq_error_iff]
    exact .inr ⟨_, run_of_reduced hwf' (reduced_snappedPair _) _, .inr ⟨hsame, rfl⟩⟩

end IonCircuit
