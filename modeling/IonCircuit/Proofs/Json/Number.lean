import IonCircuit.Json.Token

/-! Reading a written number gives the number back, and its text is one bare word. -/
namespace IonCircuit
open Decimal

/-- A numeral starts with a zero only if it is the numeral of zero. -/
theorem Decimal.numeral_eq_cons (n : Nat) :
    ∃ d ds, numeral n = d :: ds ∧ (d = .zero → n = 0 ∧ ds = []) := by
  fun_induction numeral n with
  | case1 n h =>
    refine ⟨_, [], rfl, fun hd => ⟨?_, rfl⟩⟩
    have hval := congrArg Fin.val hd
    simp only [Digit.last, Digit.zero] at hval
    omega
  | case2 n h ih =>
    obtain ⟨d, ds, hnum, hzero⟩ := ih
    refine ⟨d, ds ++ [Digit.last n], by rw [hnum, List.cons_append], fun hd => ?_⟩
    have := (hzero hd).1
    omega

namespace Json.Number
variable {ds : List Digit} {rest : List Char} {n : Number}

/-- Digits end before these characters. -/
def EndsDigits (rest : List Char) : Prop := ∀ c ∈ rest.head?, Digit.ofChar? c = none

theorem splitDigits_toChars (h : EndsDigits rest) (ds : List Digit) :
    splitDigits (toChars ds ++ rest) = (ds, rest) := by
  induction ds with
  | nil =>
    cases rest with
    | nil => rfl
    | cons c cs => simp [toChars, splitDigits, h c rfl]
  | cons d ds ih =>
    have ih : splitDigits (ds.map Digit.toChar ++ rest) = (ds, rest) := ih
    simp [toChars, splitDigits, ih]

theorem onlyDigits?_numeral (k : Nat) : onlyDigits? (toChars (numeral k)) = some k := by
  obtain ⟨d, ds, hnum, -⟩ := numeral_eq_cons k
  have hend : EndsDigits [] := by simp [EndsDigits]
  have hsplit := splitDigits_toChars hend (numeral k)
  rw [List.append_nil] at hsplit
  rw [onlyDigits?, hsplit, hnum]
  dsimp only
  rw [← hnum, value_numeral]

/-- What is written of an exponent, if there is one. -/
def exponentPart : Option Int → List Char
  | none => []
  | some e => exponentChars e

/-- What is written after the whole part. -/
def tailChars (n : Number) : List Char :=
  (if n.fraction.isEmpty then [] else '.' :: toChars n.fraction) ++ exponentPart n.exponent

theorem chars_eq (n : Number) : n.chars =
    (if n.negative then ['-'] else []) ++ (toChars (numeral n.whole) ++ n.tailChars) := by
  cases h : n.exponent <;> simp [chars, tailChars, exponentPart, h]

theorem exponent?_exponentPart (e : Option Int) : exponent? (exponentPart e) = some e := by
  rcases e with - | k | k
  · rfl
  · simp [exponentPart, exponentChars, exponent?, onlyDigits?_numeral]
  · simp [exponentPart, exponentChars, exponent?, onlyDigits?_numeral, Int.negSucc_eq]

theorem endsDigits_exponentPart (e : Option Int) : EndsDigits (exponentPart e) := by
  rcases e with - | k | k <;> simp [EndsDigits, exponentPart, exponentChars] <;> decide

theorem endsDigits_tailChars (n : Number) : EndsDigits n.tailChars := by
  unfold tailChars
  split
  · exact endsDigits_exponentPart n.exponent
  · simp [EndsDigits]
    decide

theorem tail?_tailChars (n : Number) : tail? n.tailChars = some (n.fraction, n.exponent) := by
  unfold tailChars
  cases hfraction : n.fraction with
  | nil =>
    have hnone : tail? (exponentPart n.exponent) =
        (exponent? (exponentPart n.exponent)).map ([], ·) := by
      rcases n.exponent with - | k | k <;> rfl
    simp [hnone, exponent?_exponentPart]
  | cons d ds =>
    have hsplit := splitDigits_toChars (endsDigits_exponentPart n.exponent) (d :: ds)
    simp [tail?, hsplit, exponent?_exponentPart]

theorem unsigned?_chars (n : Number) :
    unsigned? n.negative (toChars (numeral n.whole) ++ n.tailChars) = some n := by
  obtain ⟨d, ds, hnum, hzero⟩ := numeral_eq_cons n.whole
  have hlead : ¬ (d = .zero ∧ ds ≠ []) := fun h => h.2 (hzero h.1).2
  rw [unsigned?, splitDigits_toChars n.endsDigits_tailChars, hnum]
  dsimp only
  rw [if_neg hlead, tail?_tailChars, ← hnum, value_numeral]
  rfl

theorem toChar_ne_minus (d : Digit) : d.toChar ≠ '-' := by
  revert d
  decide

/-- A written number reads back. -/
theorem ofChars?_chars (n : Number) : ofChars? n.chars = some n := by
  have hread := unsigned?_chars n
  rw [chars_eq]
  cases hsign : n.negative with
  | true => simpa [ofChars?, hsign] using hread
  | false =>
    obtain ⟨d, ds, hnum, -⟩ := numeral_eq_cons n.whole
    rw [hsign] at hread
    simp only [hnum, toChars, List.map_cons, List.cons_append] at hread
    simp [hnum, toChars, ofChars?, toChar_ne_minus, hread]

/-- The characters that numbers are written with. -/
def alphabet : List Char := ['-', '+', '.', 'e', '0', '1', '2', '3', '4', '5', '6', '7', '8', '9']

theorem toChars_subset (ds : List Digit) : toChars ds ⊆ alphabet := by
  have hdigit : ∀ d : Digit, d.toChar ∈ alphabet := by decide
  intro c hc
  obtain ⟨d, -, rfl⟩ := List.mem_map.mp hc
  exact hdigit d

theorem chars_subset (n : Number) : n.chars ⊆ alphabet := by
  have hexponent : exponentPart n.exponent ⊆ alphabet := by
    rcases n.exponent with - | k | k <;>
      simp [exponentPart, exponentChars, toChars_subset] <;> decide
  rw [chars_eq, tailChars]
  cases n.negative <;> cases n.fraction.isEmpty <;>
    simp [toChars_subset, hexponent] <;> decide

theorem chars_ne_nil (n : Number) : n.chars ≠ [] := by
  obtain ⟨d, ds, hnum, -⟩ := numeral_eq_cons n.whole
  simp [chars_eq, hnum, toChars]

/-- No literal name is a number, so a word that is written for a number reads as that number. -/
theorem ofWord?_chars (n : Number) : Token.ofWord? n.chars = some (.num n) := by
  have hother : ∀ c cs, c ∉ alphabet → n.chars ≠ c :: cs := by
    intro c cs hc h
    exact hc (n.chars_subset (h ▸ List.mem_cons_self))
  rw [Token.ofWord?, if_neg (hother _ _ (by decide)), if_neg (hother _ _ (by decide)),
    if_neg (hother _ _ (by decide)), ofChars?_chars]
  rfl

/-- A count of sixty-four bits reads back. -/
theorem toCount?_ofNat {k : Nat} (h : k < UInt64.size) : (ofNat k).toCount? = some k := by
  simp [toCount?, ofNat, h]

end Json.Number
end IonCircuit
