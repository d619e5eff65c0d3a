import IonCircuit.Decimal.Positional
import IonCircuit.Decimal.Shortest

/-! JSON numbers as they are written, and the doubles and naturals they stand for. -/
namespace IonCircuit.Json
open Decimal
attribute [local instance (high)] instPowNat

/-- The parts of a written number. An empty fraction means that no point is written. -/
structure Number where
  negative : Bool
  whole : Nat
  fraction : List Digit
  exponent : Option Int
  deriving DecidableEq

namespace Number

def ofNat (n : Nat) : Number := ⟨false, n, [], none⟩

/-- A count is written without sign, point or exponent and has sixty-four bits. -/
def toCount? (n : Number) : Option Nat :=
  if n.negative = false ∧ n.fraction = [] ∧ n.exponent = none ∧ n.whole < UInt64.size then
    some n.whole
  else none

/-- The double nearest to the number, unless that is infinite. A negative zero keeps its
sign. The exact value is rounded once; a reader that makes a double of the digits and then scales
it by the power of ten rounds twice, and may read a long decimal as a neighbour of this double.
What is proved of reading takes from here only that the result is finite, and `Number.Keeps` as an
assumption. -/
def toFloat? (n : Number) : Option Float :=
  let digits := n.whole * 10 ^ n.fraction.length + value n.fraction
  let power := n.exponent.getD 0 - n.fraction.length
  let size := Float.ofScientific digits (power < 0) power.natAbs
  if size.isFinite then some (if n.negative then -size else size) else none

/-- Writes digits with a point, or with an exponent when the first digit has a power of
ten below `-5` or above `15`. Digits always follow a point that no exponent replaces. -/
def ofScientific (negative : Bool) (s : Scientific) : Number :=
  if -5 ≤ s.power ∧ s.power ≤ 15 then
    let p := Positional.ofDigits s.digits s.power
    ⟨negative, value p.whole, if p.fraction.isEmpty then [.zero] else p.fraction, none⟩
  else ⟨negative, value (s.digits.take 1), s.digits.drop 1, some s.power⟩

/-- The shortest number that reads back as a double, a tie going to the even digit.
Infinities and what is not a number have none. -/
def ofFloat? (x : Float) : Option Number :=
  match x.toModel.unpack with
  | .notANumber | .infinity _ => none
  | .zero s => some ⟨s == .negative, 0, [.zero], none⟩
  | .finite s m e _ => some (ofScientific (s == .negative) (shortest .toEven m e))

def exponentChars : Int → List Char
  | .ofNat n => 'e' :: '+' :: toChars (numeral n)
  | .negSucc n => 'e' :: '-' :: toChars (numeral (n + 1))

def chars (n : Number) : List Char :=
  (if n.negative then ['-'] else []) ++ toChars (numeral n.whole) ++
    (if n.fraction.isEmpty then [] else '.' :: toChars n.fraction) ++
    (match n.exponent with
      | none => []
      | some e => exponentChars e)

/-- The digits in front, and the rest. -/
def splitDigits : List Char → List Digit × List Char
  | [] => ([], [])
  | c :: cs =>
    match Digit.ofChar? c with
    | some d => let (ds, rest) := splitDigits cs; (d :: ds, rest)
    | none => ([], c :: cs)

/-- The number at the end of which only digits may stand, at least one. -/
def onlyDigits? (cs : List Char) : Option Nat :=
  match splitDigits cs with
  | (d :: ds, []) => some (value (d :: ds))
  | _ => none

/-- The exponent that a text ends with: none, or a mark, a sign or not, and digits. -/
def exponent? : List Char → Option (Option Int)
  | [] => some none
  | mark :: rest =>
    if mark = 'e' ∨ mark = 'E' then
      match rest with
      | '-' :: ds => (onlyDigits? ds).map fun n => some (-(n : Int))
      | '+' :: ds => (onlyDigits? ds).map fun n => some (n : Int)
      | ds => (onlyDigits? ds).map fun n => some (n : Int)
    else none

/-- Reads a fraction, if a point announces one, and an exponent. -/
def tail? : List Char → Option (List Digit × Option Int)
  | '.' :: rest =>
    match splitDigits rest with
    | ([], _) => none
    | (ds, rest) => (exponent? rest).map (ds, ·)
  | rest => (exponent? rest).map ([], ·)

/-- Reads a number without its sign. Only zero itself starts with a zero. -/
def unsigned? (negative : Bool) (cs : List Char) : Option Number :=
  match splitDigits cs with
  | ([], _) => none
  | (d :: ds, rest) =>
    if d = .zero ∧ ds ≠ [] then none
    else (tail? rest).map fun (fraction, exponent) =>
      ⟨negative, value (d :: ds), fraction, exponent⟩

def ofChars? : List Char → Option Number
  | '-' :: cs => unsigned? true cs
  | cs => unsigned? false cs

end Number
end IonCircuit.Json
