import IonCircuit.Decimal.Digit

/-! Digits with a decimal point. -/
namespace IonCircuit.Decimal

/-- The digits before and after the point. -/
structure Positional where
  whole : List Digit
  fraction : List Digit

/-- Places the point so that the first digit has the given power of ten, with zeros where
digits are missing. -/
def Positional.ofDigits (digits : List Digit) (power : Int) : Positional :=
  if power < 0 then ⟨[.zero], List.replicate (-power - 1).toNat .zero ++ digits⟩
  else
    let places := power.toNat + 1
    ⟨digits.take places ++ List.replicate (places - digits.length) .zero, digits.drop places⟩

/-- Without a point when no digit follows it. -/
def Positional.text (p : Positional) : String :=
  let whole := toChars p.whole
  String.ofList (if p.fraction.isEmpty then whole else whole ++ '.' :: toChars p.fraction)

end IonCircuit.Decimal
