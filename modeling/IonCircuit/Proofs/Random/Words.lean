import IonCircuit.Proofs.Random.Angles
import IonCircuit.Proofs.Random.Layers

/-! Random circuits from words: when they come out, and which of the two ways they fail otherwise. -/
namespace IonCircuit.Random
open Scalar (isFinite)
variable {σ α β γ : Type} {n depth : ℕ}

/-- From every such state of the source the computation fails in this way. -/
def Stops (I : σ → Prop) (x : Draw σ α β) (e : Failure α) : Prop := ∀ s, I s → x s = .error e

section Stops
variable {I : σ → Prop} {P : β → Prop} {e : Failure α} {x : Draw σ α β} {f : β → Draw σ α γ}

theorem stops_throw : Stops I (throw e : Draw σ α β) e := fun _ _ => rfl

theorem Stops.bind (h : Stops I x e) : Stops I (x >>= f) e := by
  intro s hs
  change (x s >>= fun r => f r.1 r.2) = _
  rw [h s hs]
  rfl

theorem Keeps.bind_stops (hx : Keeps I x P) (hf : ∀ b, P b → Stops I (f b) e) :
    Stops I (x >>= f) e := by
  intro s hs
  obtain ⟨b, s', hrun, hs', hb⟩ := hx s hs
  exact (bind_ok hrun).trans (hf b hb s' hs')

/-- A loop fails when its first round does. -/
theorem stops_mapM_range {f : ℕ → Draw σ α β} (hn : 0 < n) (h : Stops I (f 0) e) :
    Stops I ((List.range n).mapM f) e := by
  obtain ⟨k, rfl⟩ := Nat.exists_eq_succ_of_ne_zero hn.ne'
  rw [List.range_succ_eq_map, List.mapM_cons]
  exact h.bind

variable {source : Source σ α} {bound : α}

theorem stops_layers (hdepth : 0 < depth) (h : Stops I (source.layer bound n) e) :
    Stops I (source.layers bound n depth) e :=
  stops_mapM_range (f := fun _ => source.layer bound n) hdepth h

theorem stops_layer_of_turn (hn : 0 < n) (h : Stops I (source.turn bound 0) e) :
    Stops I (source.layer bound n) e := (stops_mapM_range hn h).bind

end Stops

namespace Words
open Binary64
variable {words : Array UInt64} {s : Words} {bits tries : ℕ} {bound : Float} {I : Words → Prop}

/-- Such a choice takes this word and does not refuse it. -/
def Takes (bits n w : ℕ) : Prop := w % 2 ^ bits * n % 2 ^ bits ≤ zone bits n

/-- Among the words is one that such a choice takes. -/
def Offers (s : Words) (bits n : ℕ) : Prop := ∃ w ∈ s.cycle.toList, Takes bits n w.toNat

/-- The words can make every choice that a register of this width asks for. -/
def Serves (s : Words) (n : ℕ) : Prop :=
  s.Offers 32 3 ∧ (1 < n → s.Offers 64 n ∧ s.Offers 64 (n - 1))

theorem Offers.nonempty (h : s.Offers bits n) : s.cycle ≠ #[] := by
  obtain ⟨w, hw, -⟩ := h
  intro hempty
  rw [hempty] at hw
  cases hw

instance {w : ℕ} : Decidable (Takes bits n w) := inferInstanceAs (Decidable (_ ≤ _))

instance : Decidable (s.Offers bits n) := inferInstanceAs (Decidable (∃ w ∈ s.cycle.toList, _))

instance : Decidable (s.Serves n) := inferInstanceAs (Decidable (_ ∧ (_ → _)))

theorem next_of_some {w : UInt64} (h : s.cycle[s.used % s.cycle.size]? = some w) :
    (next : Draw Words α ℕ) s = .ok (w.toNat, { s with used := s.used + 1 }) := by
  have hget : (get : Draw Words α Words) s = .ok (s, s) := rfl
  rw [next, bind_ok hget, h]
  rfl

theorem stops_next : Stops (·.cycle = #[]) (next : Draw Words α ℕ) .exhausted := by
  rintro ⟨_, used⟩ rfl
  rfl

theorem keeps_next (hwords : words ≠ #[]) :
    Keeps (·.cycle = words) (next : Draw Words α ℕ) fun k => ∃ w ∈ words.toList, k = w.toNat := by
  rintro s rfl
  have hlt : s.used % s.cycle.size < s.cycle.size :=
    Nat.mod_lt _ (Array.size_pos_iff.mpr hwords)
  exact ⟨_, _, next_of_some (Array.getElem?_eq_getElem hlt), rfl, _, Array.getElem_mem_toList hlt, rfl⟩

/-- Around the cycle every word comes up. -/
theorem exists_position {w : UInt64} (hw : w ∈ words.toList) (used : ℕ) :
    ∃ i < words.size, words[(used + i) % words.size]? = some w := by
  obtain ⟨j, hj, hget⟩ := List.mem_iff_getElem.mp hw
  have hj : j < words.size := hj
  have hused : used % words.size < words.size := Nat.mod_lt _ (by omega)
  have hget : words[j]? = some w := by
    rw [Array.getElem?_eq_getElem hj]
    exact congrArg some hget
  rcases Nat.lt_or_ge j (used % words.size) with h | h
  · refine ⟨j + words.size - used % words.size, by omega, ?_⟩
    rwa [← Nat.mod_add_mod, Nat.add_sub_cancel' (by omega), Nat.add_mod_right, Nat.mod_eq_of_lt hj]
  · refine ⟨j - used % words.size, by omega, ?_⟩
    rwa [← Nat.mod_add_mod, Nat.add_sub_cancel' h, Nat.mod_eq_of_lt hj]

theorem pick_eq (hn : 0 < n) : (pick bits n hn (tries + 1) : Draw Words α (Fin n)) =
    next >>= fun w => if Takes bits n w then
      pure ⟨w % 2 ^ bits * n / 2 ^ bits, product_lt hn w⟩ else pick bits n hn tries := rfl

/-- The tries reach a word that is taken. -/
theorem exists_pick (hn : 0 < n) (h : ∃ i < tries, ∃ w,
    s.cycle[(s.used + i) % s.cycle.size]? = some w ∧ Takes bits n w.toNat) :
    ∃ q s', (pick bits n hn tries : Draw Words α (Fin n)) s = .ok (q, s') ∧ s'.cycle = s.cycle := by
  induction tries generalizing s with
  | zero =>
    obtain ⟨i, hi, -⟩ := h
    exact absurd hi (Nat.not_lt_zero i)
  | succ tries ih =>
    obtain ⟨i, hi, w, hw, htakes⟩ := h
    have hsize : s.cycle.size ≠ 0 := by
      intro hsize
      rw [Array.size_eq_zero_iff.mp hsize] at hw
      cases hw
    have hlt : s.used % s.cycle.size < s.cycle.size := Nat.mod_lt _ (by omega)
    have hnext := next_of_some (α := α) (Array.getElem?_eq_getElem hlt)
    rw [pick_eq, bind_ok hnext]
    split
    · exact ⟨_, _, rfl, rfl⟩
    · rename_i hrefused
      refine ih (s := { s with used := s.used + 1 }) ?_
      cases i with
      | zero =>
        rw [Nat.add_zero, Array.getElem?_eq_getElem hlt, Option.some.injEq] at hw
        exact absurd (hw ▸ htakes) hrefused
      | succ i => exact ⟨i, by omega, w, by rw [← hw, Nat.add_right_comm, Nat.add_assoc], htakes⟩

/-- Words that are all refused lead nowhere. -/
theorem stops_pick (hn : 0 < n) (h : ∀ w ∈ words.toList, ¬ Takes bits n w.toNat) :
    Stops (·.cycle = words) (pick bits n hn tries : Draw Words α (Fin n)) .exhausted := by
  induction tries with
  | zero => exact stops_throw
  | succ tries ih =>
    by_cases hwords : words = #[]
    · subst hwords
      exact stops_next.bind
    · refine (keeps_next hwords).bind_stops ?_
      rintro _ ⟨w, hw, rfl⟩
      split
      · rename_i htakes
        exact absurd htakes (h w hw)
      · exact ih

theorem keeps_below (hn : 0 < n) (h : ∃ w ∈ words.toList, Takes bits n w.toNat) :
    Keeps (·.cycle = words) (below bits n : Draw Words α (Fin n)) fun _ => True := by
  rintro s rfl
  obtain ⟨w, hw, htakes⟩ := h
  obtain ⟨i, hi, hget⟩ := exists_position hw s.used
  obtain ⟨q, s', hrun, hs'⟩ := exists_pick (α := α) hn ⟨i, hi, w, hget, htakes⟩
  refine ⟨q, s', ?_, hs', trivial⟩
  rw [below, dif_pos hn]
  exact hrun

theorem stops_below (h : ∀ w ∈ words.toList, ¬ Takes bits n w.toNat) :
    Stops (·.cycle = words) (below bits n : Draw Words α (Fin n)) .exhausted := by
  rintro s rfl
  rw [below]
  split
  · exact stops_pick _ h s rfl
  · rfl

theorem angle_of_finite (h : isFinite (span bound) = true) : angle bound =
    next >>= fun w => pure (fraction w * fitScale (-bound) bound (span bound).toBits.toNat + -bound) := by
  have hcheck : (!((bound - -bound) / topFraction).isFinite) = false := congrArg not h
  unfold angle
  simp only [hcheck]
  rfl

theorem angle_of_infinite (h : isFinite (span bound) = false) :
    angle bound = throw (.rangeTooWide bound) := by
  have hcheck : (!((bound - -bound) / topFraction).isFinite) = true := congrArg not h
  unfold angle
  simp only [hcheck]
  rfl

section Angle
variable (hfin : isFinite bound = true) (hbound : 0 ≤ bound)
include hfin hbound

theorem keeps_angle (h : bound ≤ widest) (hwords : words ≠ #[]) :
    Keeps (·.cycle = words) (source.angle bound) fun θ => -bound ≤ θ ∧ θ ≤ bound := by
  change Keeps _ (angle bound) _
  rw [angle_of_finite ((isFinite_span_iff hfin hbound).mpr h)]
  refine (keeps_next hwords).bind ?_
  rintro _ ⟨w, -, rfl⟩
  exact keeps_pure (angle_mem hfin hbound (isScale_span hfin hbound h) w.toNat_lt)

theorem stops_angle_of_empty (h : bound ≤ widest) :
    Stops (·.cycle = #[]) (source.angle bound) .exhausted := by
  change Stops _ (angle bound) _
  rw [angle_of_finite ((isFinite_span_iff hfin hbound).mpr h)]
  exact stops_next.bind

theorem stops_angle_of_wide (h : ¬ bound ≤ widest) :
    Stops I (source.angle bound) (.rangeTooWide bound) := by
  change Stops _ (angle bound) _
  rw [← isFinite_span_iff hfin hbound, Bool.not_eq_true] at h
  rw [angle_of_infinite h]
  exact stops_throw

theorem answers (h : bound ≤ widest) (hs : s.Serves n) :
    source.Answers (·.cycle = s.cycle) bound n where
  angle := keeps_angle hfin hbound h hs.1.nonempty
  axis := keeps_below (by decide) hs.1
  first hn := keeps_below (by omega) (hs.2 hn).1
  second hn := keeps_below (by omega) (hs.2 hn).2

/-- Without words for all of its choices no layer is completed. -/
theorem stops_layer (h : bound ≤ widest) (hn : 0 < n) (hs : ¬ s.Serves n) :
    Stops (·.cycle = s.cycle) (source.layer bound n) .exhausted := by
  by_cases haxis : s.Offers 32 3
  · have hturns := keeps_turns (keeps_angle hfin hbound h haxis.nonempty)
      (keeps_below (by decide) haxis) n
    refine hturns.bind_stops fun turns _ => ?_
    rw [Serves, not_and] at hs
    have hpair := hs haxis
    rw [Classical.not_imp, not_and_or] at hpair
    obtain ⟨hn, hpair⟩ := hpair
    rw [if_pos hn]
    refine Stops.bind ?_
    by_cases hfirst : s.Offers 64 n
    · have hsecond := hpair.resolve_left (not_not.mpr hfirst)
      refine (keeps_below (by omega) hfirst).bind_stops fun _ _ => Stops.bind ?_
      exact stops_below fun w hw htakes => hsecond ⟨w, hw, htakes⟩
    · exact Stops.bind (stops_below fun w hw htakes => hfirst ⟨w, hw, htakes⟩)
  · refine stops_layer_of_turn hn ?_
    by_cases hempty : s.cycle = #[]
    · rw [hempty]
      exact (stops_angle_of_empty hfin hbound h).bind
    · refine (keeps_angle hfin hbound h hempty).bind_stops fun θ _ => Stops.bind ?_
      exact stops_below fun w hw htakes => haxis ⟨w, hw, htakes⟩

end Angle

/-- A random circuit with an accepted bound comes out exactly when nothing is to be drawn, or when
the bound is not beyond the widest and the words serve. A wider bound is accepted too, but its range
is not finite, and then the source gives up at the first angle whatever the words; words that do not
serve are gone through without an end. The words are a finite list over and over. For a circuit that
comes out this is no restriction, since only finitely many words are read; that words do not serve is
said of such a repetition only. -/
theorem circuit_outcome (hfin : bound.isFinite = true) (hbound : 0 ≤ bound) (n depth : ℕ) (s : Words) :
    (n = 0 ∨ depth = 0 → circuit source n depth bound s = .ok (.empty n, s)) ∧
    (0 < n → 0 < depth → widest < bound →
      circuit source n depth bound s = .error (.rangeTooWide bound)) ∧
    (0 < n → 0 < depth → bound ≤ widest → s.Serves n → ∃ (layers : List (Layer Float)) (s' : Words),
      circuit source n depth bound s = .ok (⟨layers.flatMap Layer.instructions, n⟩, s') ∧
        layers.length = depth ∧ ∀ l ∈ layers, l.Spans bound n) ∧
    (0 < n → 0 < depth → bound ≤ widest → ¬ s.Serves n →
      circuit source n depth bound s = .error .exhausted) := by
  have hneg : ¬ bound < 0 := fun h => Binary64.lt_irrefl 0 (Binary64.lt_of_le_of_lt hbound h)
  rw [circuit_of_accepted hfin hneg]
  refine ⟨?_, ?_, ?_, ?_⟩
  · intro hnothing
    have hlayers : (source.layers bound n depth >>= fun layers =>
        pure ⟨layers.flatMap Layer.instructions, n⟩ : Draw Words Float (Circuit Float)) =
          pure (.empty n) := by
      rcases hnothing with rfl | rfl
      · have hnone : (List.replicate depth (⟨[], none⟩ : Layer Float)).flatMap
            Layer.instructions = [] := by simp [Layer.instructions]
        rw [layers_zero, pure_bind, hnone]
        rfl
      · rfl
    rw [hlayers]
    rfl
  · intro hn hdepth hwide
    have hwide : ¬ bound ≤ widest := fun h => Binary64.lt_irrefl _ (Binary64.lt_of_le_of_lt h hwide)
    have hturn : Stops (fun _ => True) (source.turn bound 0) (.rangeTooWide bound) :=
      (stops_angle_of_wide hfin hbound hwide).bind
    exact (stops_layers hdepth (stops_layer_of_turn hn hturn)).bind s trivial
  · intro hn hdepth hle hs
    obtain ⟨layers, s', hrun, -, hlayers⟩ := (answers hfin hbound hle hs).layers depth s rfl
    exact ⟨layers, s', bind_ok hrun, hlayers⟩
  · intro hn hdepth hle hs
    exact (stops_layers hdepth (stops_layer hfin hbound hle hn hs)).bind s rfl

/-- The largest double. -/
def largest : Float := Float.ofBits 0x7fefffffffffffff

theorem circuit_outcome_at_largest :
    largest.isFinite = true ∧ 0 ≤ largest ∧ widest < largest ∧
    circuit source 1 1 largest (ofList [0, 0]) = .error (.rangeTooWide largest) ∧
    widest.isFinite = true ∧ 0 ≤ widest ∧ (ofList [0, 0]).Serves 1 ∧
    (∃ (layers : List (Layer Float)) (s' : Words),
      circuit source 1 1 widest (ofList [0, 0]) =
          .ok (⟨layers.flatMap Layer.instructions, 1⟩, s') ∧
        layers.length = 1 ∧ ∀ l ∈ layers, l.Spans widest 1) ∧
    circuit source 1 1 widest (ofList [0, 0]) =
      .ok (⟨[⟨.rx (-widest), [0]⟩], 1⟩, ⟨#[0, 0], 2⟩) := by
  have hlargest : largest.isFinite = true ∧ 0 ≤ largest ∧ widest < largest := by decide
  have hwidest : widest.isFinite = true ∧ 0 ≤ widest ∧ widest ≤ widest := by decide
  have hserves : (ofList [0, 0]).Serves 1 := by decide
  obtain ⟨hfin, hbound, hwide⟩ := hlargest
  obtain ⟨hfin', hbound', hle⟩ := hwidest
  exact ⟨hfin, hbound, hwide, (circuit_outcome hfin hbound 1 1 _).2.1 one_pos one_pos hwide,
    hfin', hbound', hserves,
    (circuit_outcome hfin' hbound' 1 1 _).2.2.1 one_pos one_pos hle hserves, by decide +kernel⟩

end Words
end IonCircuit.Random
