/-! Decimal digits and the numerals made of them. -/
namespace IonCircuit.Decimal

abbrev Digit := Fin 10

namespace Digit

def zero : Digit := ⟨0, by decide⟩

/-- The last digit of a number. -/
def last (n : Nat) : Digit := ⟨n % 10, Nat.mod_lt n (by decide)⟩

def toChar (d : Digit) : Char := Char.ofNat ('0'.toNat + d)

/-- Only the ten ASCII digits are digits. -/
def ofChar? (c : Char) : Option Digit :=
  if h : '0'.toNat ≤ c.toNat ∧ c.toNat < '0'.toNat + 10 then
    some ⟨c.toNat - '0'.toNat, by omega⟩
  else none

@[simp] theorem ofChar?_toChar (d : Digit) : ofChar? d.toChar = some d := by
  revert d; decide

end Digit

/-- The number that digits denote, the most significant first. -/
def value (digits : List Digit) : Nat := digits.foldl (fun n (d : Digit) => 10 * n + d.val) 0

/-- The numeral of a number, without leading zeros; zero has one digit. -/
def numeral (n : Nat) : List Digit :=
  if n < 10 then [Digit.last n] else numeral (n / 10) ++ [Digit.last n]

theorem value_append_digit (ds : List Digit) (d : Digit) :
    value (ds ++ [d]) = 10 * value ds + d.val := by
  simp [value]

@[simp] theorem value_numeral (n : Nat) : value (numeral n) = n := by
  fun_induction numeral n with
  | case1 n h => simp [value, Digit.last, Nat.mod_eq_of_lt h]
  | case2 n _ ih =>
    rw [value_append_digit, ih]
    simp [Digit.last]
    omega

def toChars (digits : List Digit) : List Char := digits.map Digit.toChar

/-- A number in decimal. -/
def natText (n : Nat) : String := String.ofList (toChars (numeral n))

end IonCircuit.Decimal
