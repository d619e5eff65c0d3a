import IonCircuit.Circuit.Json
import IonCircuit.NativeSet.Json
import IonCircuit.Proofs.Binary64.Value
import IonCircuit.Proofs.Json.Reading

/-! Reading what was written. A circuit comes back as it was, malformed or not, whenever the number
codec gives its angles back, and a circuit with an angle that is not finite does not come back. -/
namespace IonCircuit
open Scalar (isFinite)

namespace Json

theorem mapM_map_eq_some {β γ : Type} {read? : γ → Option β} {write : β → γ} {xs : List β}
    (h : ∀ x ∈ xs, read? (write x) = some x) : (xs.map write).mapM read? = some xs := by
  induction xs with
  | nil => rfl
  | cons x xs ih =>
    obtain ⟨hx, hxs⟩ := List.forall_mem_cons.mp h
    simp [List.mapM_cons, hx, ih hxs]

theorem mapM_eq_none {β γ : Type} {read? : γ → Option β} {ys : List γ} {y : γ} (hy : y ∈ ys)
    (h : read? y = none) : ys.mapM read? = none := by
  induction ys with
  | nil => cases hy
  | cons z ys ih =>
    rcases List.mem_cons.mp hy with rfl | hmem
    · simp [List.mapM_cons, h]
    · cases hz : read? z <;> simp [List.mapM_cons, hz, ih hmem]

/-- The number codec gives the double back. -/
def Number.Keeps (x : Float) : Prop := (Number.ofFloat? x).bind Number.toFloat? = some x

instance : DecidablePred Number.Keeps := fun x =>
  inferInstanceAs (Decidable ((Number.ofFloat? x).bind Number.toFloat? = some x))

theorem float?_ofFloat {x : Float} (h : Number.Keeps x) : (ofFloat x).float? = some x := by
  unfold Number.Keeps at h
  unfold ofFloat
  cases hx : Number.ofFloat? x with
  | none => simp [hx] at h
  | some n =>
    rw [hx] at h
    exact h

/-- An infinity and what is not a number are written as null. -/
theorem ofFloat_of_nonFinite {x : Float} (h : isFinite x = false) : ofFloat x = .null := by
  have hnone : Number.ofFloat? x = none := by
    rw [Binary64.isFinite_iff_fields, Binary64.fields] at h
    unfold Number.ofFloat?
    cases hfields : x.toModel.unpack <;> simp_all [Float.Model.UnpackedFloat.isFinite]
  rw [ofFloat, hnone]

theorem count?_ofNat {k : Nat} (h : k < UInt64.size) : (ofNat k).count? = some k :=
  Number.toCount?_ofNat h

end Json

open Json (Number)

namespace Gate
variable {g : Gate Float}

theorem ofJson?_toJson (h : ∀ x ∈ g.params, Number.Keeps x) : Gate.ofJson? g.toJson = some g := by
  cases g with
  | rx θ | ry θ | rz θ | rxx θ =>
    have hθ := Json.float?_ofFloat (h θ (by simp [params]))
    simp [ofJson?, toJson, Json.ofFields, Json.variant?, hθ]
  | r θ φ =>
    have hθ := Json.float?_ofFloat (h θ (by simp [params]))
    have hφ := Json.float?_ofFloat (h φ (by simp [params]))
    simp [ofJson?, toJson, Json.ofFields, Json.variant?, hθ, hφ]

theorem ofJson?_toJson_of_nonFinite {x : Float} (hx : x ∈ g.params) (h : isFinite x = false) :
    Gate.ofJson? g.toJson = none := by
  have hnull := Json.ofFloat_of_nonFinite h
  cases g with
  | rx θ | ry θ | rz θ | rxx θ =>
    obtain rfl : x = θ := by simpa [params] using hx
    simp [ofJson?, toJson, Json.ofFields, Json.variant?, hnull, Json.float?]
  | r θ φ =>
    rcases (by simpa [params] using hx : x = θ ∨ x = φ) with rfl | rfl
    · simp [ofJson?, toJson, Json.ofFields, Json.variant?, hnull, Json.float?]
    · simp [ofJson?, toJson, Json.ofFields, Json.variant?, hnull, Json.float?]

end Gate

namespace Instruction
variable {i : Instruction Float}

/-- The codec gives the angles back, and the qubits are counts of sixty-four bits. -/
structure Kept (i : Instruction Float) : Prop where
  angles : ∀ x ∈ i.gate.params, Number.Keeps x
  qubits : ∀ q ∈ i.qubits, q < UInt64.size

theorem ofJson?_toJson_eq (i : Instruction Float) : ofJson? i.toJson = do
    return ⟨← Gate.ofJson? i.gate.toJson, ← (i.qubits.map Json.ofNat).mapM Json.count?⟩ := rfl

theorem ofJson?_toJson (h : i.Kept) : ofJson? i.toJson = some i := by
  rw [ofJson?_toJson_eq, Gate.ofJson?_toJson h.angles,
    Json.mapM_map_eq_some fun q hq => Json.count?_ofNat (h.qubits q hq)]
  rfl

theorem ofJson?_toJson_of_nonFinite {x : Float} (hx : x ∈ i.gate.params) (h : isFinite x = false) :
    ofJson? i.toJson = none := by
  rw [ofJson?_toJson_eq, Gate.ofJson?_toJson_of_nonFinite hx h]
  rfl

end Instruction

namespace Circuit
variable {c : Circuit Float}

/-- Every instruction is kept, and the width is a count of sixty-four bits. -/
structure Kept (c : Circuit Float) : Prop where
  instructions : ∀ i ∈ c.instructions, i.Kept
  width : c.width < UInt64.size

theorem parse?_render_eq (c : Circuit Float) : Circuit.parse? c.render = do
    return ⟨← (c.instructions.map (·.toJson)).mapM Instruction.ofJson?,
      ← (Json.ofNat c.width).count?⟩ := by
  rw [parse?, render, Json.parse?_render]
  rfl

theorem parse?_render (h : c.Kept) : Circuit.parse? c.render = some c := by
  rw [parse?_render_eq, Json.count?_ofNat h.width,
    Json.mapM_map_eq_some fun i hi => Instruction.ofJson?_toJson (h.instructions i hi)]
  rfl

theorem parse?_render_of_nonFinite {i : Instruction Float} {x : Float} (hi : i ∈ c.instructions)
    (hx : x ∈ i.gate.params) (h : isFinite x = false) : Circuit.parse? c.render = none := by
  rw [parse?_render_eq, Json.mapM_eq_none (List.mem_map_of_mem hi)
    (Instruction.ofJson?_toJson_of_nonFinite hx h)]
  rfl

end Circuit

namespace NativeSet

/-- Kinds as a set lists them, in any order and any number of times. -/
def listJson (kinds : List Kind) : Json :=
  .ofFields [("kinds", .arr (kinds.map fun k => .str (some k.tag)))]

theorem render_eq (s : NativeSet) : s.render = (listJson s.toList).render := rfl

theorem parse?_listJson (kinds : List Kind) :
    NativeSet.parse? (listJson kinds).render = some (.ofList kinds) := by
  have hkind : ∀ k ∈ kinds, Kind.ofJson? (.str (some k.tag)) = some k := fun k _ => k.ofTag?_tag
  have hread : ofJson? (listJson kinds) = do
      return .ofList (← (kinds.map fun k => .str (some k.tag)).mapM Kind.ofJson?) := rfl
  rw [parse?, Json.parse?_render, Option.bind_some, hread, Json.mapM_map_eq_some hkind]
  rfl

theorem parse?_render (s : NativeSet) : NativeSet.parse? s.render = some s := by
  rw [render_eq, parse?_listJson, ofList_toList]

theorem mem_toList_ofList {kinds : List Kind} {k : Kind} : k ∈ (ofList kinds).toList ↔ k ∈ kinds := by
  simp [mem_toList, ofList]

/-- A set lists its members in the order of kinds. -/
theorem sublist_toList (s : NativeSet) : s.toList.Sublist Kind.all := List.filter_sublist

end NativeSet

/-- Whatever was written reads back as it was, so different circuits have different texts. An angle
that is not finite is written as null, and no circuit is read from such a text. A list of kinds is
read as a set, which is written in the order of kinds, each kind once. -/
theorem render_roundTrip :
    (∀ c : Circuit Float, c.Kept → Circuit.parse? c.render = some c) ∧
    (∀ c d : Circuit Float, c.Kept → d.Kept → c.render = d.render → c = d) ∧
    (∀ c : Circuit Float, ∀ i ∈ c.instructions, ∀ x ∈ i.gate.params, isFinite x = false →
      Json.ofFloat x = .null ∧ Circuit.parse? c.render = none) ∧
    (∀ s : NativeSet, NativeSet.parse? s.render = some s) ∧
    ∀ kinds : List Kind, ∃ s sorted, NativeSet.parse? (NativeSet.listJson kinds).render = some s ∧
      s.render = (NativeSet.listJson sorted).render ∧ sorted.Sublist Kind.all ∧
        ∀ k, k ∈ sorted ↔ k ∈ kinds := by
  refine ⟨fun c hc => Circuit.parse?_render hc, fun c d hc hd heq => ?_, fun c i hi x hx h => ?_,
    NativeSet.parse?_render, fun kinds => ?_⟩
  · have hread := Circuit.parse?_render hc
    rw [heq, Circuit.parse?_render hd] at hread
    exact (Option.some.inj hread).symm
  · exact ⟨Json.ofFloat_of_nonFinite h, Circuit.parse?_render_of_nonFinite hi hx h⟩
  · exact ⟨_, _, NativeSet.parse?_listJson kinds, NativeSet.render_eq _,
      NativeSet.sublist_toList _, fun k => NativeSet.mem_toList_ofList⟩

/-- A malformed circuit with a negative zero and the smallest double reads back, and one with what is
not a number does not. -/
theorem render_roundTrip_of_malformed :
    (∃ c : Circuit Float, c = ⟨[⟨.rxx (-0), [7, 7, 7]⟩, ⟨.r 5e-324 0.1, []⟩], 1⟩ ∧
      Circuit.parse? c.render = some c) ∧
    Circuit.parse? (⟨[⟨.rz (0 / 0), [0]⟩], 1⟩ : Circuit Float).render = none := by
  obtain ⟨hread, -, hnull, -⟩ := render_roundTrip
  refine ⟨⟨_, rfl, hread _ ⟨?_, by decide⟩⟩, ?_⟩
  · intro i hi
    simp only [List.mem_cons, List.not_mem_nil, or_false] at hi
    rcases hi with rfl | rfl <;> exact ⟨by decide +kernel, by decide⟩
  · exact (hnull _ _ List.mem_cons_self (0 / 0) List.mem_cons_self (by decide +kernel)).2

end IonCircuit
