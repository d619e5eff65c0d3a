import IonCircuit.Json.Text

/-! Reading the inside of a written string gives the string back. -/
namespace IonCircuit.Json.Text

theorem hexValue?_hexDigit {k : Nat} (h : k < 16) : hexValue? (hexDigit k) = some k := by
  have hall : ∀ k : Fin 16, hexValue? (hexDigit k) = some k.val := by decide
  exact hall ⟨k, h⟩

/-- A written character is one code unit to the reader. -/
theorem units?_encodeChar (c : Char) (rest : List Char) :
    units? (encodeChar c ++ rest) = (units? rest).map (c.toNat :: ·) := by
  unfold encodeChar
  split
  · rename_i h
    rcases h with rfl | rfl <;> cases hrest : units? rest <;> simp [units?, escaped?, hrest]
  · rename_i hplain
    rw [not_or] at hplain
    split
    · rename_i hcontrol
      have hzero : hexValue? '0' = some 0 := by decide
      have hhigh := hexValue?_hexDigit (k := c.toNat / 16) (by omega)
      have hlow := hexValue?_hexDigit (k := c.toNat % 16) (by omega)
      have hunit : 16 * (c.toNat / 16) + c.toNat % 16 = c.toNat := Nat.div_add_mod _ _
      cases hrest : units? rest <;> simp [units?, hzero, hhigh, hlow, hunit, hrest]
    · rename_i hprinted
      simp [units?, hplain.2, hprinted]

theorem units?_flatMap_encodeChar (cs : List Char) :
    units? (cs.flatMap encodeChar) = some (cs.map Char.toNat) := by
  induction cs with
  | nil => rfl
  | cons c cs ih => rw [List.flatMap_cons, units?_encodeChar, ih]; rfl

/-- No character is half of a surrogate pair. -/
theorem not_surrogate (c : Char) : isHigh c.toNat = false ∧ isLow c.toNat = false := by
  have hvalid : c.toNat < 0xD800 ∨ 0xDFFF < c.toNat ∧ c.toNat < 0x110000 := c.valid
  simp only [isHigh, isLow, Bool.and_eq_false_iff, decide_eq_false_iff_not]
  omega

theorem characters?_toNat (cs : List Char) : characters? (cs.map Char.toNat) = some cs := by
  induction cs with
  | nil => rfl
  | cons c cs ih =>
    obtain ⟨hhigh, hlow⟩ := not_surrogate c
    cases cs with
    | nil => simp [characters?, hhigh, hlow]
    | cons d ds =>
      rw [List.map_cons] at ih
      simp [characters?, hhigh, hlow, ih]

/-- A written string reads back. -/
theorem decode?_encode (t : Text) : decode? t.encode = some t := by
  cases t with
  | none => decide
  | some s => simp [decode?, encode, units?_flatMap_encodeChar, characters?_toNat]

end IonCircuit.Json.Text
