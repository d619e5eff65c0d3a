import IonCircuit.Random.Circuit
import IonCircuit.Proofs.Binary64.Order
import IonCircuit.Proofs.Building
import IonCircuit.Proofs.Equality
import Mathlib.Probability.Distributions.Uniform

/-! The layers of random circuits. Building never fails on its own: over every source a random
circuit is what its layers draw, laid out in a row. -/
namespace IonCircuit.Random

/-- An ordered pair of different qubits of a register. -/
abbrev QubitPair (n : ℕ) := {p : Fin n × Fin n // p.1 ≠ p.2}

/-- The pair that two draws name. -/
def namedPair {n : ℕ} (draws : Fin n × Fin (n - 1)) : QubitPair n :=
  ⟨(draws.1, ⟨otherThan draws.1 draws.2, otherThan_lt draws.2.isLt⟩),
    fun h => otherThan_ne draws.1 draws.2 (congrArg Fin.val h).symm⟩

theorem otherThan_eq_succAbove {n : ℕ} (a : Fin (n + 1)) (b : Fin n) :
    otherThan a b = a.succAbove b := by
  simp only [otherThan, Fin.succAbove, Fin.lt_def, Fin.val_castSucc]
  split <;> split <;> simp <;> omega

theorem namedPair_bijective (n : ℕ) : Function.Bijective (namedPair (n := n)) := by
  cases n with
  | zero => exact ⟨fun draws => draws.1.elim0, fun p => p.1.1.elim0⟩
  | succ n =>
    have hsecond : ∀ (a : Fin (n + 1)) (b : Fin n),
        (namedPair (a, b) : QubitPair (n + 1)).1 = (a, a.succAbove b) := fun a b =>
      Prod.ext rfl (Fin.ext (otherThan_eq_succAbove a b))
    constructor
    · rintro ⟨a, b⟩ ⟨a', b'⟩ h
      have hpair := congrArg Subtype.val h
      rw [hsecond, hsecond, Prod.mk.injEq] at hpair
      obtain ⟨rfl, hb⟩ := hpair
      rw [Fin.succAbove_right_injective hb]
    · rintro ⟨⟨a, c⟩, hne⟩
      obtain ⟨b, hb⟩ := Fin.exists_succAbove_eq (Ne.symm hne)
      refine ⟨(a, b), Subtype.ext ?_⟩
      rw [hsecond, hb]

/-- A bijection carries the uniform distribution over. -/
theorem uniformOfFintype_map {β γ : Type} [Fintype β] [Fintype γ] [Nonempty β] [Nonempty γ]
    {f : β → γ} (hf : Function.Bijective f) :
    (PMF.uniformOfFintype β).map f = PMF.uniformOfFintype γ := by
  ext c
  obtain ⟨b, rfl⟩ := hf.surjective c
  rw [PMF.map_apply, tsum_eq_single b fun b' hb' => if_neg fun h => hb' (hf.injective h.symm),
    if_pos rfl, PMF.uniformOfFintype_apply, PMF.uniformOfFintype_apply,
    Fintype.card_of_bijective hf]

variable {σ α β γ : Type} {n : ℕ}

/-- From every state of the source the computation comes to such a result. -/
def Always (x : Draw σ α β) (P : β → Prop) : Prop := ∀ s, ∃ b s', x s = .ok (b, s') ∧ P b

theorem bind_ok {x : Draw σ α β} {f : β → Draw σ α γ} {s s' : σ} {b : β} (h : x s = .ok (b, s')) :
    (x >>= f) s = f b s' := by
  change (x s >>= fun r => f r.1 r.2) = _
  rw [h]
  rfl

/-- From every such state of the source the computation comes to such a result and state. -/
def Keeps (I : σ → Prop) (x : Draw σ α β) (P : β → Prop) : Prop :=
  ∀ s, I s → ∃ b s', x s = .ok (b, s') ∧ I s' ∧ P b

theorem always_iff_keeps {x : Draw σ α β} {P : β → Prop} :
    Always x P ↔ Keeps (fun _ => True) x P := by simp [Always, Keeps]

section Keeps
variable {I : σ → Prop} {P : β → Prop} {Q : γ → Prop}

theorem keeps_pure {b : β} (h : P b) : Keeps I (pure b : Draw σ α β) P :=
  fun s hs => ⟨b, s, rfl, hs, h⟩

theorem Keeps.bind {x : Draw σ α β} {f : β → Draw σ α γ} (hx : Keeps I x P)
    (hf : ∀ b, P b → Keeps I (f b) Q) : Keeps I (x >>= f) Q := by
  intro s hs
  obtain ⟨b, s₁, hrun, hs₁, hb⟩ := hx s hs
  obtain ⟨c, s₂, hrun', hs₂, hc⟩ := hf b hb s₁ hs₁
  exact ⟨c, s₂, (bind_ok hrun).trans hrun', hs₂, hc⟩

theorem keeps_mapM {f : β → Draw σ α γ} {R : β → γ → Prop} (xs : List β)
    (h : ∀ x ∈ xs, Keeps I (f x) (R x)) : Keeps I (xs.mapM f) (List.Forall₂ R xs) := by
  induction xs with
  | nil => exact keeps_pure .nil
  | cons x xs ih =>
    obtain ⟨hx, hxs⟩ := List.forall_mem_cons.mp h
    rw [List.mapM_cons]
    exact hx.bind fun y hy => (ih hxs).bind fun ys hys => keeps_pure (.cons hy hys)

end Keeps

/-- On circuits of this width, the step draws something and appends the instructions it stands
for. -/
def Appends (n : ℕ) (step : Circuit α → Draw σ α (Circuit α)) (draw : Draw σ α β)
    (emit : β → List (Instruction α)) : Prop :=
  ∀ done, step ⟨done, n⟩ = draw >>= fun x => pure ⟨done ++ emit x, n⟩

theorem add_of_fits {i : Instruction α} {done : List (Instruction α)} (h : i.Fits n) :
    (add ⟨done, n⟩ i : Draw σ α (Circuit α)) = pure ⟨done ++ [i], n⟩ := by
  rw [add, Circuit.add_eq_ok_iff.mpr ⟨h, rfl⟩]

/-- A loop appends what its rounds draw. -/
theorem appends_foldlM {step : Circuit α → γ → Draw σ α (Circuit α)} {draw : γ → Draw σ α β}
    {emit : β → List (Instruction α)} (xs : List γ)
    (h : ∀ x ∈ xs, Appends n (step · x) (draw x) emit) :
    Appends n (xs.foldlM step) (xs.mapM draw) (·.flatMap emit) := by
  induction xs with
  | nil =>
    intro done
    simp
  | cons x xs ih =>
    obtain ⟨hx, hxs⟩ := List.forall_mem_cons.mp h
    intro done
    have hstep : step ⟨done, n⟩ x = _ := hx done
    have hrest : ∀ done, xs.foldlM step ⟨done, n⟩ = _ := ih hxs
    simp only [List.foldlM_cons, List.mapM_cons, hstep, hrest, bind_assoc, pure_bind,
      List.flatMap_cons, List.append_assoc]

/-- What is drawn for one layer: the rotations of the qubits in their order and at most one
interaction. -/
structure Layer (α : Type) where
  turns : List (Instruction α)
  meeting : Option (Instruction α)

def Layer.instructions (l : Layer α) : List (Instruction α) := l.turns ++ l.meeting.toList

namespace Source

def turn (source : Source σ α) (bound : α) (q : ℕ) : Draw σ α (Instruction α) := do
  let θ ← source.angle bound
  let axis ← source.axis
  return ⟨rotation axis θ, [q]⟩

def meeting (source : Source σ α) (bound : α) (n : ℕ) : Draw σ α (Instruction α) := do
  let a ← source.below n
  let b ← source.below (n - 1)
  let θ ← source.angle bound
  let pair := (namedPair (a, b)).1
  return ⟨.rxx θ, [pair.1, pair.2]⟩

def layer (source : Source σ α) (bound : α) (n : ℕ) : Draw σ α (Layer α) := do
  let turns ← (List.range n).mapM (source.turn bound)
  if 1 < n then
    let i ← source.meeting bound n
    return ⟨turns, some i⟩
  else return ⟨turns, none⟩

def layers (source : Source σ α) (bound : α) (n depth : ℕ) : Draw σ α (List (Layer α)) :=
  (List.range depth).mapM fun _ => source.layer bound n

end Source

section Building
variable {source : Source σ α} {bound : α}

theorem appends_turn {q : ℕ} (hq : q < n) :
    Appends n (addRotation source bound · q) (source.turn bound q) fun i => [i] := by
  intro done
  have hfits : ∀ (axis : Fin 3) (θ : α), (⟨rotation axis θ, [q]⟩ : Instruction α).Fits n :=
    fun axis θ => (Instruction.fits_single (by fin_cases axis <;> rfl)).mpr hq
  simp only [addRotation, Source.turn, add_of_fits (hfits _ _), bind_assoc, pure_bind]

theorem appends_meeting :
    Appends n (addInteraction source bound) (source.meeting bound n) fun i => [i] := by
  intro done
  have hfits : ∀ (draws : Fin n × Fin (n - 1)) (θ : α),
      (⟨.rxx θ, [draws.1, otherThan draws.1 draws.2]⟩ : Instruction α).Fits n := fun draws θ =>
    (Instruction.fits_pair rfl).mpr
      ⟨(otherThan_ne draws.1 draws.2).symm, draws.1.isLt, otherThan_lt draws.2.isLt⟩
  simp only [addInteraction, Source.meeting, namedPair, add_of_fits (hfits (_, _) _), bind_assoc,
    pure_bind]

theorem appends_layer :
    Appends n (addLayer source bound) (source.layer bound n) Layer.instructions := by
  intro done
  have hturns : (List.range n).foldlM (addRotation source bound) ⟨done, n⟩ = _ :=
    appends_foldlM (List.range n) (fun q hq => appends_turn (List.mem_range.mp hq)) done
  simp only [addLayer, Source.layer, hturns, bind_assoc, pure_bind, List.flatMap_singleton']
  refine bind_congr fun turns => ?_
  by_cases hn : 1 < n
  · have hmeeting : addInteraction source bound ⟨done ++ turns, n⟩ = _ := appends_meeting _
    simp only [if_pos hn, hmeeting, bind_assoc, pure_bind, Layer.instructions,
      Option.toList_some, List.append_assoc]
  · simp only [if_neg hn, pure_bind, Layer.instructions, Option.toList_none, List.append_nil]

variable {depth : ℕ}

theorem layers_zero :
    source.layers bound 0 depth = pure (List.replicate depth ⟨[], none⟩) := by
  have hlayer : source.layer bound 0 = pure ⟨[], none⟩ := rfl
  rw [Source.layers, hlayer, List.mapM_pure, List.map_const', List.length_range]

variable [Scalar α]

/-- Whatever the source, only its own failures can stop a circuit with an accepted bound. -/
theorem circuit_of_accepted (hfin : Scalar.isFinite bound = true) (hbound : ¬ bound < 0) :
    circuit source n depth bound = source.layers bound n depth >>= fun layers =>
      pure ⟨layers.flatMap Layer.instructions, n⟩ := by
  have hrun : (List.range depth).foldlM (fun c _ => addLayer source bound c) ⟨[], n⟩ = _ :=
    appends_foldlM (List.range depth) (fun _ _ => appends_layer) []
  have hcheck : ¬ (!Scalar.isFinite bound || decide (bound < 0)) = true := by simp [hfin, hbound]
  rw [circuit, if_neg hcheck]
  change (if n = 0 then _ else _) = _
  split
  next hn =>
    -- the early return agrees: without qubits the layers are empty and take no draws
    subst hn
    have hnone : (List.replicate depth (⟨[], none⟩ : Layer α)).flatMap Layer.instructions = [] := by
      simp [Layer.instructions]
    rw [layers_zero, pure_bind, hnone]
    rfl
  next => exact hrun

theorem circuit_of_rejected (h : Scalar.isFinite bound = true → bound < 0) :
    circuit source n depth bound = throw (.invalid (.badAngleBound bound)) := by
  have hcheck : (!Scalar.isFinite bound || decide (bound < 0)) = true := by
    cases hfin : Scalar.isFinite bound with
    | false => rfl
    | true => simpa using h hfin
  rw [circuit, if_pos hcheck]
  rfl

end Building

section Shape
variable [Scalar α]

/-- A rotation of this qubit about one of the three axes, by an angle up to the bound. -/
def Turns (bound : α) (q : ℕ) (i : Instruction α) : Prop :=
  ∃ θ, (-bound ≤ θ ∧ θ ≤ bound) ∧ ∃ g ∈ [Gate.rx θ, .ry θ, .rz θ], i = ⟨g, [q]⟩

/-- An interaction of two different qubits of the register, by an angle up to the bound. -/
def Meets (bound : α) (n : ℕ) (i : Instruction α) : Prop :=
  ∃ θ, (-bound ≤ θ ∧ θ ≤ bound) ∧ ∃ pair : QubitPair n, i = ⟨.rxx θ, [pair.1.1, pair.1.2]⟩

/-- The layer turns every qubit in their order; just when there are two, two of them meet. -/
structure Layer.Spans (l : Layer α) (bound : α) (n : ℕ) : Prop where
  turns : List.Forall₂ (Turns bound) (List.range n) l.turns
  isSome_meeting : l.meeting.isSome = true ↔ 1 < n
  meeting : ∀ i ∈ l.meeting, Meets bound n i

theorem Turns.fits {bound : α} {q : ℕ} {i : Instruction α} (h : Turns bound q i) (hq : q < n) :
    i.Fits n := by
  obtain ⟨θ, -, g, hg, rfl⟩ := h
  have harity : g.arity = 1 := by
    simp only [List.mem_cons, List.not_mem_nil, or_false] at hg
    rcases hg with rfl | rfl | rfl <;> rfl
  exact (Instruction.fits_single harity).mpr hq

theorem Meets.fits {bound : α} {i : Instruction α} (h : Meets bound n i) : i.Fits n := by
  obtain ⟨θ, -, ⟨⟨a, b⟩, hne⟩, rfl⟩ := h
  exact (Instruction.fits_pair rfl).mpr ⟨fun hab => hne (Fin.ext hab), a.isLt, b.isLt⟩

theorem Layer.Spans.fits {l : Layer α} {bound : α} (h : l.Spans bound n) :
    ∀ i ∈ l.instructions, i.Fits n := by
  refine List.forall_mem_append.mpr ⟨?_, fun i hi => (h.meeting i (by simpa using hi)).fits⟩
  exact forall_of_forall₂ (P := (· < n)) h.turns (fun q i hturn hq => hturn.fits hq)
    fun q hq => List.mem_range.mp hq

/-- Every choice comes, and every angle between this bound and its negative. -/
structure Source.Honest (source : Source σ α) (bound : α) : Prop where
  angle : Always (source.angle bound) fun θ => -bound ≤ θ ∧ θ ≤ bound
  below : ∀ n, 0 < n → Always (source.below n) fun _ => True
  axis : Always source.axis fun _ => True

section Turns
variable {source : Source σ α} {I : σ → Prop} {bound : α}
  (hangle : Keeps I (source.angle bound) fun θ => -bound ≤ θ ∧ θ ≤ bound)
  (haxis : Keeps I source.axis fun _ => True)
include hangle haxis

theorem keeps_turn (q : ℕ) : Keeps I (source.turn bound q) (Turns bound q) := by
  refine hangle.bind fun θ hθ => haxis.bind fun axis _ => keeps_pure ⟨θ, hθ, ?_⟩
  refine ⟨rotation axis θ, ?_, rfl⟩
  fin_cases axis <;> simp [rotation]

theorem keeps_turns (n : ℕ) : Keeps I ((List.range n).mapM (source.turn bound))
    (List.Forall₂ (Turns bound) (List.range n)) :=
  keeps_mapM (List.range n) fun q _ => keeps_turn hangle haxis q

end Turns

/-- In such states every choice comes that a register of this width asks for, and every angle
between the bound and its negative. -/
structure Source.Answers (source : Source σ α) (I : σ → Prop) (bound : α) (n : ℕ) : Prop where
  angle : Keeps I (source.angle bound) fun θ => -bound ≤ θ ∧ θ ≤ bound
  axis : Keeps I source.axis fun _ => True
  first : 1 < n → Keeps I (source.below n) fun _ => True
  second : 1 < n → Keeps I (source.below (n - 1)) fun _ => True

namespace Source.Answers
variable {source : Source σ α} {I : σ → Prop} {bound : α} (h : source.Answers I bound n)
include h

theorem meeting (hn : 1 < n) : Keeps I (source.meeting bound n) (Meets bound n) :=
  (h.first hn).bind fun a _ => (h.second hn).bind fun b _ =>
    h.angle.bind fun θ hθ => keeps_pure ⟨θ, hθ, namedPair (a, b), rfl⟩

theorem layer : Keeps I (source.layer bound n) (·.Spans bound n) := by
  refine (keeps_turns h.angle h.axis n).bind fun turns hturns => ?_
  by_cases hn : 1 < n
  · rw [if_pos hn]
    exact (h.meeting hn).bind fun i hi =>
      keeps_pure ⟨hturns, by simpa using hn, by simpa using hi⟩
  · rw [if_neg hn]
    exact keeps_pure ⟨hturns, by simpa using hn, by simp⟩

theorem layers (depth : ℕ) : Keeps I (source.layers bound n depth) fun layers =>
    layers.length = depth ∧ ∀ l ∈ layers, l.Spans bound n := by
  intro s hs
  obtain ⟨layers, s', hrun, hs', hspans⟩ :=
    keeps_mapM (List.range depth) (fun _ _ => h.layer) s hs
  refine ⟨layers, s', hrun, hs', ?_, fun l hl => ?_⟩
  · rw [← hspans.length_eq, List.length_range]
  · exact forall_of_forall₂ (P := fun _ => True) hspans (fun _ _ h _ => h) (fun _ _ => trivial) l hl

end Source.Answers

namespace Source.Honest
variable {source : Source σ α} {bound : α} (h : source.Honest bound)
include h

theorem answers (n : ℕ) : source.Answers (fun _ => True) bound n where
  angle := always_iff_keeps.mp h.angle
  axis := always_iff_keeps.mp h.axis
  first hn := always_iff_keeps.mp (h.below n (by omega))
  second hn := always_iff_keeps.mp (h.below (n - 1) (by omega))

theorem layers (n depth : ℕ) : Always (source.layers bound n depth) fun layers =>
    layers.length = depth ∧ ∀ l ∈ layers, l.Spans bound n :=
  always_iff_keeps.mpr ((h.answers n).layers depth)

end Source.Honest
end Shape

/-- Over a source that gives what it is asked for, and for every accepted bound, a random circuit
comes out; its layers are those that the source draws, and without qubits nothing is drawn. The
pairs that two draws name are all pairs of different qubits, each once, so uniform draws name them
uniformly. A bound that is refused is refused whatever the source would have drawn. -/
theorem circuit_layers :
    (∀ {σ : Type} (source : Source σ Float) (bound : Float),
      source.Honest bound → bound.isFinite = true → 0 ≤ bound → ∀ n depth s,
        ∃ c s', circuit source n depth bound s = .ok (c, s') ∧ c.width = n ∧ c.WellFormed ∧
          (n = 0 → c.instructions = [] ∧ s' = s) ∧
          (0 < n → ∃ layers, source.layers bound n depth s = .ok (layers, s') ∧
            c.instructions = layers.flatMap Layer.instructions ∧ layers.length = depth ∧
            ∀ l ∈ layers, l.Spans bound n)) ∧
    (∀ n, Function.Bijective (namedPair (n := n)) ∧
      ∀ [Nonempty (Fin n × Fin (n - 1))] [Nonempty (QubitPair n)],
        (PMF.uniformOfFintype (Fin n × Fin (n - 1))).map namedPair =
          PMF.uniformOfFintype (QubitPair n)) ∧
    ∀ {σ : Type} (source : Source σ Float) (bound : Float),
      bound.isNaN = true ∨ bound.isInf = true ∨ bound < 0 → ∀ n depth s,
        circuit source n depth bound s = .error (.invalid (.badAngleBound bound)) := by
  refine ⟨?_, fun n => ⟨namedPair_bijective n, uniformOfFintype_map (namedPair_bijective n)⟩, ?_⟩
  · intro σ source bound hsource hfin hbound n depth s
    obtain ⟨layers, s', hlayers, hlength, hspans⟩ := hsource.layers n depth s
    have hneg : ¬ bound < 0 := fun h => Binary64.lt_irrefl 0 (Binary64.lt_of_le_of_lt hbound h)
    refine ⟨⟨layers.flatMap Layer.instructions, n⟩, s', ?_, rfl, ?_, ?_, fun _ =>
      ⟨layers, hlayers, rfl, hlength, hspans⟩⟩
    · rw [circuit_of_accepted hfin hneg]
      change (source.layers bound n depth s >>= _) = _
      rw [hlayers]
      rfl
    · intro i hi
      obtain ⟨l, hl, hil⟩ := List.mem_flatMap.mp hi
      exact (hspans l hl).fits i hil
    · rintro rfl
      rw [layers_zero] at hlayers
      cases hlayers
      simp [Layer.instructions]
  · intro σ source bound hbound n depth s
    rw [circuit_of_rejected]
    · rfl
    · intro hfin
      rw [← or_assoc, ← Binary64.isFinite_eq_false_iff, hfin] at hbound
      exact hbound.resolve_left Bool.true_eq_false.mp

/-- A source that counts its choices and makes each by the count. -/
def Source.counting : Source ℕ Float where
  angle bound := fun k => .ok (if k % 4 = 0 then bound else -bound, k + 1)
  below n := fun k =>
    if h : 0 < n then .ok (⟨k % n, Nat.mod_lt k h⟩, k + 1) else .error .exhausted
  axis := fun k => .ok (⟨k % 3, Nat.mod_lt k (by decide)⟩, k + 1)

theorem Source.honest_counting : counting.Honest 1 where
  angle k := ⟨_, k + 1, rfl, by split <;> decide⟩
  below n hn k := ⟨⟨k % n, Nat.mod_lt k hn⟩, k + 1, dif_pos hn, trivial⟩
  axis k := ⟨_, k + 1, rfl, trivial⟩

theorem circuit_layers_of_counting :
    Source.counting.Honest 1 ∧ (1 : Float).isFinite = true ∧ (0 : Float) ≤ 1 ∧ 0 < 3 ∧
    (∃ c s', circuit .counting 3 2 1 0 = .ok (c, s') ∧ c.width = 3 ∧ c.WellFormed ∧
      ∃ layers, Source.counting.layers 1 3 2 0 = .ok (layers, s') ∧
        c.instructions = layers.flatMap Layer.instructions ∧ layers.length = 2 ∧
        ∀ l ∈ layers, l.Spans 1 3) ∧
    circuit .counting 3 2 1 0 = .ok (⟨[⟨.ry 1, [0]⟩, ⟨.rx (-1), [1]⟩, ⟨.rz 1, [2]⟩,
      ⟨.rxx 1, [0, 2]⟩, ⟨.ry (-1), [0]⟩, ⟨.rx (-1), [1]⟩, ⟨.rz (-1), [2]⟩,
      ⟨.rxx (-1), [0, 1]⟩], 3⟩, 18) ∧
    (-1 : Float) < 0 ∧
    circuit .counting 3 2 (-1) 0 = .error (.invalid (.badAngleBound (-1))) := by
  have hone : (1 : Float).isFinite = true ∧ (0 : Float) ≤ 1 := by decide
  have hneg : (-1 : Float) < 0 := by decide
  obtain ⟨c, s', hrun, hwidth, hfits, -, hlayers⟩ :=
    circuit_layers.1 .counting 1 Source.honest_counting hone.1 hone.2 3 2 0
  exact ⟨Source.honest_counting, hone.1, hone.2, by decide,
    ⟨c, s', hrun, hwidth, hfits, hlayers (by decide)⟩, rfl, hneg,
    circuit_layers.2.2 .counting (-1) (.inr (.inr hneg)) 3 2 0⟩

end IonCircuit.Random
