import IonCircuit.Decimal.Digit

/-! The fewest decimal digits that read back as the same double, and of those the nearest
to it. All comparisons are between whole numbers. -/
namespace IonCircuit.Decimal

-- Powers of naturals are the core library's, whatever is imported beside this.
attribute [local instance (high)] instPowNat

/-- The choice between two decimals that lie equally near. -/
inductive Tie where
  | toEven
  | up

/-- Digits without trailing zeros, with the power of ten of the first. -/
structure Scientific where
  digits : List Digit
  power : Int

/-- A double's neighbourhood: the value and the ends of the interval of numbers that
round to it, over one denominator. -/
structure Neighbourhood where
  low : Nat
  value : Nat
  high : Nat
  denominator : Nat
  /-- Whether the ends themselves round to the double. -/
  closed : Bool

namespace Neighbourhood

/-- The neighbourhood of `m * 2 ^ e`, counted in quarters of the last place. Below a power
of two the next double is only half as far, except at the smallest exponent. -/
def ofBinary (m : Nat) (e : Int) : Neighbourhood :=
  let unit := 2 ^ (e - 2).toNat
  let below := if m = 2 ^ (52 : Nat) ∧ -1074 < e then 1 else 2
  { low := (4 * m - below) * unit
    value := 4 * m * unit
    high := (4 * m + 2) * unit
    denominator := 2 ^ (2 - e).toNat
    closed := m % 2 == 0 }

/-- The same numbers counted in units of the power of ten. -/
def inUnits (n : Neighbourhood) (power : Int) : Neighbourhood :=
  let up := 10 ^ (-power).toNat
  { n with
    low := n.low * up
    value := n.value * up
    high := n.high * up
    denominator := n.denominator * 10 ^ power.toNat }

/-- Whether a whole number of units rounds to the double. -/
def holds (n : Neighbourhood) (units : Nat) : Bool :=
  let k := units * n.denominator
  if n.closed then decide (n.low ≤ k ∧ k ≤ n.high) else decide (n.low < k ∧ k < n.high)

/-- The nearest whole number of units among the two beside the value, if one holds. -/
def nearest? (n : Neighbourhood) (tie : Tie) : Option Nat :=
  let lower := n.value / n.denominator
  let upper := lower + 1
  match n.holds lower, n.holds upper with
  | false, false => none
  | true, false => some lower
  | false, true => some upper
  | true, true =>
    match compare (2 * n.value) ((lower + upper) * n.denominator) with
    | .lt => some lower
    | .gt => some upper
    | .eq => match tie with
      | .up => some upper
      | .toEven => some (if lower % 2 = 0 then lower else upper)

/-- The power of ten of the first digit of the value. -/
def leadingPower (n : Neighbourhood) : Int :=
  let guess : Int := (numeral n.value).length - (numeral n.denominator).length
  let scaled := n.inUnits guess
  if scaled.value < scaled.denominator then guess - 1 else guess

end Neighbourhood

/-- Drops the zeros at the end. -/
def trimZeros (digits : List Digit) : List Digit :=
  (digits.reverse.dropWhile (· == .zero)).reverse

/-- A number of units of a power of ten. -/
def Scientific.ofUnits (units : Nat) (power : Int) : Scientific :=
  let digits := numeral units
  ⟨trimZeros digits, power + digits.length - 1⟩

/-- The shortest digits of the double `m * 2 ^ e`; seventeen always suffice. -/
def shortest (tie : Tie) (m : Nat) (e : Int) : Scientific :=
  let n := Neighbourhood.ofBinary m e
  let first := n.leadingPower
  let found := (List.range 17).findSome? fun (further : Nat) =>
    let power := first - further
    ((n.inUnits power).nearest? tie).map (Scientific.ofUnits · power)
  found.getD ⟨[.zero], 0⟩

end IonCircuit.Decimal
