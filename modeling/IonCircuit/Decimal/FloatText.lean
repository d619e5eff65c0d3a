import IonCircuit.Decimal.Positional
import IonCircuit.Decimal.Shortest

/-! The two texts that messages give a double. -/
namespace IonCircuit.Decimal
open Float.Model (UnpackedFloat)
attribute [local instance (high)] instPowNat

/-- A minus sign for the negative sign, also of zero. -/
def signText : UnpackedFloat.Sign → String
  | .negative => "-"
  | .positive => ""

/-- The shortest digits that read back, always written out in full. -/
def fullText (x : Float) : String :=
  match x.toModel.unpack with
  | .notANumber => "NaN"
  | .infinity s => signText s ++ "inf"
  | .zero s => signText s ++ "0"
  | .finite s m e _ =>
    let d := shortest .up m e
    signText s ++ (Positional.ofDigits d.digits d.power).text

/-- The whole number nearest to a quotient, a half going to the even neighbour. -/
def roundHalfEven (numerator denominator : Nat) : Nat :=
  let q := numerator / denominator
  let rest := 2 * (numerator % denominator)
  if rest < denominator ∨ (rest = denominator ∧ q % 2 = 0) then q else q + 1

/-- A number of hundredths with two places. -/
def hundredthsText (n : Nat) : String :=
  (Positional.mk (numeral (n / 100)) [.last (n / 10), .last n]).text

/-- The exact value rounded to two places. -/
def twoPlacesText (x : Float) : String :=
  match x.toModel.unpack with
  | .notANumber => "NaN"
  | .infinity s => signText s ++ "inf"
  | .zero s => signText s ++ hundredthsText 0
  | .finite s m e _ =>
    signText s ++ hundredthsText (roundHalfEven (100 * m * 2 ^ e.toNat) (2 ^ (-e).toNat))

/-- Rounding moves a quotient by at most one half, up or down. -/
theorem roundHalfEven_near {n d : Nat} (hd : 0 < d) :
    2 * (roundHalfEven n d * d) ≤ 2 * n + d ∧ 2 * n ≤ 2 * (roundHalfEven n d * d) + d := by
  have h := Nat.div_add_mod n d
  have hlt := Nat.mod_lt n hd
  rw [Nat.mul_comm] at h
  unfold roundHalfEven
  dsimp only
  split
  · omega
  · rw [Nat.add_mul]
    omega

end IonCircuit.Decimal
