import IonCircuit.Proofs.Binary64.Order
import IonCircuit.Proofs.RoundTrip
import IonCircuit.Settings.Json

/-! Reading settings. What a text says of the four fields decides the result, whatever else it says
and in whatever order, and only settings that can be used are read. -/
namespace IonCircuit
open Scalar (isFinite)
open Json (Number)

/-- The error concerns the settings themselves. -/
def Error.BlamesSettings {α : Type} : Error α → Prop
  | .unreadableSettings | .badTolerance _ => True
  | _ => False

namespace Json
variable {β : Type} {fields : List (String × Json)} {name : String} {read? : Json → Option β}
  {given : Option β}

/-- No field has this name, or a single one has it and reads as this value. -/
def Gives (fields : List (String × Json)) (name : String) (read? : Json → Option β) :
    Option β → Prop
  | none => ∀ field ∈ fields, field.1 ≠ name
  | some x => ∃ before j after, fields = before ++ (name, j) :: after ∧
      (∀ field ∈ before ++ after, field.1 ≠ name) ∧ read? j = some x

theorem filter_eq_nil (h : ∀ field ∈ fields, field.1 ≠ name) :
    (fields.map fun (k, j) => (some k, j)).filter (fun (k, _) => k == some name) = [] := by
  simp only [List.filter_eq_nil_iff, List.forall_mem_map, beq_iff_eq, Option.some.injEq]
  exact h

/-- What is given replaces the standard value. -/
theorem exists_single?_eq (standard : β) (h : Gives fields name read? given) :
    ∃ value, single? (fields.map fun (k, j) => (some k, j)) name = some value ∧
      Settings.orElse read? standard value = some (given.getD standard) := by
  cases given with
  | none => exact ⟨none, by rw [single?, filter_eq_nil h], rfl⟩
  | some x =>
    obtain ⟨before, j, after, rfl, hother, hread⟩ := h
    obtain ⟨hbefore, hafter⟩ := List.forall_mem_append.mp hother
    refine ⟨some j, ?_, hread⟩
    simp [single?, filter_eq_nil hbefore, filter_eq_nil hafter]

/-- Every double that is read is finite. -/
theorem Number.isFinite_of_toFloat? {n : Number} {x : Float} (h : n.toFloat? = some x) :
    isFinite x = true := by
  unfold Number.toFloat? at h
  dsimp only at h
  split at h
  · rename_i hsize
    obtain rfl := Option.some.inj h
    split
    · exact Binary64.isFinite_neg.trans hsize
    · exact hsize
  · cases h

theorem isFinite_of_float? {j : Json} {x : Float} (h : j.float? = some x) : isFinite x = true := by
  cases j with
  | num n => exact Number.isFinite_of_toFloat? h
  | null | bool | str | arr | obj => cases h

end Json

namespace Settings
variable {c : Settings Float} {text : String} {fields : List (String × Json)}

/-- The values that a text may give for the fields of settings. -/
structure Given where
  tolerance : Option Float
  compareUnitaries : Option Bool
  lowerCorrections : Option Bool
  checkNative : Option Bool

/-- The standard settings with the given values in their places. -/
def Given.settings (g : Given) : Settings Float :=
  let base : Settings Float := standard
  { tolerance := g.tolerance.getD base.tolerance
    compareUnitaries := g.compareUnitaries.getD base.compareUnitaries
    lowerCorrections := g.lowerCorrections.getD base.lowerCorrections
    checkNative := g.checkNative.getD base.checkNative }

/-- Among these fields, in any order and any number of others, are just the given ones. -/
structure Given.In (g : Given) (fields : List (String × Json)) : Prop where
  tolerance : Json.Gives fields "equivalence_tolerance" Json.float? g.tolerance
  compareUnitaries : Json.Gives fields "check_equivalence" Json.bool? g.compareUnitaries
  lowerCorrections : Json.Gives fields "lower_corrections" Json.bool? g.lowerCorrections
  checkNative : Json.Gives fields "validate_output" Json.bool? g.checkNative

theorem Given.In.ofJson?_eq {g : Given} (h : g.In fields) :
    ofJson? (.ofFields fields) = some g.settings := by
  let base : Settings Float := standard
  obtain ⟨tolerance, htolerance, htoleranceEq⟩ := Json.exists_single?_eq base.tolerance h.tolerance
  obtain ⟨check, hcheck, hcheckEq⟩ :=
    Json.exists_single?_eq base.compareUnitaries h.compareUnitaries
  obtain ⟨lower, hlower, hlowerEq⟩ := Json.exists_single?_eq base.lowerCorrections h.lowerCorrections
  obtain ⟨validate, hvalidate, hvalidateEq⟩ := Json.exists_single?_eq base.checkNative h.checkNative
  have hrecord : (Json.ofFields fields).record? fieldNames =
      some [tolerance, check, lower, validate] := by
    simp [Json.ofFields, Json.record?, fieldNames, htolerance, hcheck, hlower, hvalidate]
  rw [ofJson?, hrecord]
  simp [htoleranceEq, hcheckEq, hlowerEq, hvalidateEq, base, Given.settings]

theorem Given.In.isFinite_tolerance {g : Given} (h : g.In fields) :
    isFinite g.settings.tolerance = true := by
  have hgives := h.tolerance
  cases htolerance : g.tolerance with
  | none =>
    have hstandard : g.settings.tolerance = 1e-8 := by rw [Given.settings, htolerance]; rfl
    rw [hstandard]
    decide +kernel
  | some x =>
    have hgiven : g.settings.tolerance = x := by rw [Given.settings, htolerance]; rfl
    rw [htolerance] at hgives
    obtain ⟨before, j, after, -, -, hread⟩ := hgives
    rw [hgiven]
    exact Json.isFinite_of_float? hread

/-- A double and zero compare one way or the other. -/
theorem check_eq (c : Settings Float) : c.check =
    if isFinite c.tolerance = true ∧ 0 < c.tolerance then .ok ()
    else .error (.badTolerance c.tolerance) := by
  cases hfin : isFinite c.tolerance with
  | false => simp [check, hfin]
  | true =>
    have hle : c.tolerance ≤ 0 ↔ ¬ 0 < c.tolerance := by
      rw [Binary64.le_iff_value hfin Binary64.isFinite_zero,
        Binary64.lt_iff_value Binary64.isFinite_zero hfin, not_lt]
    by_cases hpos : 0 < c.tolerance <;> simp [check, hfin, hle, hpos]

theorem parse_of_read (h : (Json.parse? text).bind ofJson? = some c) : parse text =
    if isFinite c.tolerance = true ∧ 0 < c.tolerance then .ok c
    else .error (.badTolerance c.tolerance) := by
  rw [parse, h]
  dsimp only
  rw [check_eq]
  split <;> rfl

theorem parse_of_unread (h : (Json.parse? text).bind ofJson? = none) :
    parse text = .error .unreadableSettings := by
  rw [parse, h]

/-- Whatever is read can be used, and whatever is refused is refused as settings. -/
theorem parse_cases (text : String) :
    (∃ c, parse text = .ok c ∧ isFinite c.tolerance = true ∧ 0 < c.tolerance) ∨
      ∃ e, parse text = .error e ∧ e.BlamesSettings := by
  cases hread : (Json.parse? text).bind ofJson? with
  | none => exact .inr ⟨_, parse_of_unread hread, trivial⟩
  | some c =>
    have hparse := parse_of_read hread
    split at hparse
    next husable => exact .inl ⟨c, hparse, husable⟩
    next => exact .inr ⟨_, hparse, trivial⟩

/-- All that can be lost in writing is the tolerance. -/
theorem ofJson?_toJson_eq (c : Settings Float) : ofJson? c.toJson = do
    return { c with tolerance := ← (Json.ofFloat c.tolerance).float? } := rfl

theorem read_render (h : Number.Keeps c.tolerance) :
    (Json.parse? c.render).bind ofJson? = some c := by
  rw [render, Json.parse?_render, Option.bind_some, ofJson?_toJson_eq, Json.float?_ofFloat h]
  rfl

theorem read_render_of_nonFinite (h : isFinite c.tolerance = false) :
    (Json.parse? c.render).bind ofJson? = none := by
  rw [render, Json.parse?_render, Option.bind_some, ofJson?_toJson_eq, Json.ofFloat_of_nonFinite h]
  rfl

/-- Settings that were written are read back just when they can be used. -/
theorem parse_render_eq_ok_iff (h : isFinite c.tolerance = true → Number.Keeps c.tolerance) :
    parse c.render = .ok c ↔ c.check = .ok () := by
  cases hfin : isFinite c.tolerance with
  | true =>
    rw [parse_of_read (read_render (h hfin)), check_eq]
    split <;> simp
  | false =>
    rw [parse_of_unread (read_render_of_nonFinite hfin), check_eq]
    simp [hfin]

theorem exists_parse_render_eq_error (h : isFinite c.tolerance = true → Number.Keeps c.tolerance)
    (hcheck : c.check ≠ .ok ()) : ∃ e, parse c.render = .error e ∧ e.BlamesSettings := by
  cases hfin : isFinite c.tolerance with
  | true =>
    have hunusable : ¬ (isFinite c.tolerance = true ∧ 0 < c.tolerance) := by
      rw [check_eq] at hcheck
      exact fun husable => hcheck (if_pos husable)
    exact ⟨_, (parse_of_read (read_render (h hfin))).trans (if_neg hunusable), trivial⟩
  | false => exact ⟨_, parse_of_unread (read_render_of_nonFinite hfin), trivial⟩

end Settings

/-- Settings that were written come back unchanged if they pass their own check, and as an error
about settings if they do not; a tolerance that is not finite is written as null. A text that gives
values to some of the fields, each once, in any order and among any others, is read as the standard
settings with these values in their places, and refused just when the tolerance is not positive.
Whatever the text, the tolerance that is read is finite and positive. -/
theorem Settings.parse_outcome :
    (∀ c : Settings Float, (isFinite c.tolerance = true → Number.Keeps c.tolerance) →
      (Settings.parse c.render = .ok c ↔ c.check = .ok ()) ∧
      (c.check ≠ .ok () → ∃ e, Settings.parse c.render = .error e ∧ e.BlamesSettings) ∧
      (isFinite c.tolerance = false → Json.ofFloat c.tolerance = .null)) ∧
    (∀ text fields (given : Given), Json.parse? text = some (.ofFields fields) → given.In fields →
      (0 < given.settings.tolerance → Settings.parse text = .ok given.settings) ∧
      (¬ 0 < given.settings.tolerance →
        Settings.parse text = .error (.badTolerance given.settings.tolerance))) ∧
    ∀ text c, Settings.parse text = .ok c → isFinite c.tolerance = true ∧ 0 < c.tolerance := by
  refine ⟨fun c hkeeps => ⟨parse_render_eq_ok_iff hkeeps, exists_parse_render_eq_error hkeeps,
    Json.ofFloat_of_nonFinite⟩, fun text fields given htext hgiven => ?_, fun text c h => ?_⟩
  · have hread : (Json.parse? text).bind ofJson? = some given.settings := by
      rw [htext, Option.bind_some, hgiven.ofJson?_eq]
    rw [parse_of_read hread, hgiven.isFinite_tolerance]
    exact ⟨fun hpos => if_pos ⟨rfl, hpos⟩, fun hpos => if_neg fun h => hpos h.2⟩
  · rcases parse_cases text with ⟨d, hparse, husable⟩ | ⟨e, hparse, -⟩
    · obtain rfl := Except.ok.inj (h.symm.trans hparse)
      exact husable
    · rw [hparse] at h
      cases h

/-- A tenth is kept and what is not a number is not written. Of a text with two of the fields around
an unknown one, the two are read. -/
theorem Settings.parse_outcome_of_unordered :
    (∃ c : Settings Float, c = ⟨0.1, true, false, true⟩ ∧ Settings.parse c.render = .ok c) ∧
    (∃ e, Settings.parse (⟨0 / 0, true, false, true⟩ : Settings Float).render = .error e ∧
      e.BlamesSettings) ∧
    ∃ text fields, ∃ given : Given,
      text = "\x7b\"lower_corrections\": false, \"retries\": [1e999],\n" ++
        "\"equivalence_tolerance\": 25e-2\x7d" ∧
      Json.parse? text = some (.ofFields fields) ∧ given.In fields ∧
      Settings.parse text = .ok ⟨0.25, false, false, true⟩ := by
  obtain ⟨hwritten, hgiven, -⟩ := Settings.parse_outcome
  refine ⟨⟨_, rfl, (hwritten _ fun _ => ?_).1.mpr ?_⟩, (hwritten _ fun hfin => ?_).2.1 ?_, ?_⟩
  · decide +kernel
  · decide +kernel
  · cases hfin.symm.trans (show isFinite (0 / 0 : Float) = false by decide)
  · decide +kernel
  · let lower : String × Json := ("lower_corrections", .bool false)
    let retries : String × Json := ("retries", .arr [.num ⟨false, 1, [], some 999⟩])
    let tolerance : String × Json := ("equivalence_tolerance", .num ⟨false, 25, [], some (-2)⟩)
    have hparse : Json.parse? ("\x7b\"lower_corrections\": false, \"retries\": [1e999],\n" ++
        "\"equivalence_tolerance\": 25e-2\x7d") = some (.ofFields [lower, retries, tolerance]) := rfl
    have hin : Given.In ⟨some 0.25, none, some false, none⟩ [lower, retries, tolerance] := by
      refine ⟨⟨[lower, retries], _, [], rfl, by simp [lower, retries], by decide +kernel⟩, ?_,
        ⟨[], _, [retries, tolerance], rfl, by simp [retries, tolerance], rfl⟩, ?_⟩
      all_goals simp [Json.Gives, lower, retries, tolerance]
    exact ⟨_, _, _, rfl, hparse, hin, (hgiven _ _ _ hparse hin).1 (by decide +kernel)⟩

end IonCircuit
